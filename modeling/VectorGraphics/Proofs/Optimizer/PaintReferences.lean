import VectorGraphics.Graphic.Document
import VectorGraphics.Optimizer.Transforms
import VectorGraphics.Proofs.Graphic.Outcomes
import VectorGraphics.Proofs.Optimizer.Alternatives

/-!
# Paint that refers to another element

Gradients, patterns, masks, filters and clip paths are fitted to the box of the path that refers to
them. A path that refers to one should therefore stay by itself (`KeepsPaintReferences`). Merging
leaves all of them as they are exactly where no two neighbours that it joins refer to anything
(`keepsPaintReferences_iff`): it compares the attributes of two neighbours and does not look into
them, nor at the paint that they inherit, whereas a transform is not handed down to a path that
refers to something (`hasReference`).
-/

namespace VectorGraphics

namespace Optimizer

/-! ## References -/

/-- The paint of a path, the inherited one if that is what it asks for. -/
def paint? (scope : Scope) (foreign : Attributes) (key : String) : Option String :=
  (scope.resolve foreign key).bind fun value =>
    if value = "inherit" then scope.get? key else some value

/-- Whether an element is a painted path that refers to another element, be it by an attribute of
its own or by the paint it inherits. -/
def refers (scope : Scope) : Element → Bool
  | .shape .painted label _ =>
    hasReference label.foreign
      || ["fill", "stroke"].any fun key =>
        (paint? scope label.foreign key).any (Text.contains "url(")
  | _ => false

mutual

/-- The lists of siblings inside an element, outer ones first, each with the inherited values. -/
def families (scope : Scope) : Element → List (Scope × List Element)
  | .container _ label children =>
    (scope.enter label.foreign, children) :: familiesIn (scope.enter label.foreign) children
  | .shape .. | .text _ => []

/-- The lists of siblings inside some siblings, in document order. -/
def familiesIn (scope : Scope) : List Element → List (Scope × List Element)
  | [] => []
  | e :: es => families scope e ++ familiesIn scope es

end

end Optimizer

open Optimizer in
/-- All lists of siblings of a graphic, in document order. -/
def Graphic.families (g : Graphic) : List (Scope × List Element) :=
  (Scope.enter {} g.label.foreign, g.children)
    :: familiesIn (Scope.enter {} g.label.foreign) g.children

namespace Optimizer

open Reading

variable {format : Format} {scope : Scope}

/-- Merging leaves every path that refers to another element as it is: all lists of siblings have
the paths that refer to one that they had before. -/
def KeepsPaintReferences (g : Graphic) : Prop :=
  List.Forall₂
    (fun before after => after.1 = before.1
      ∧ after.2.filter (refers after.1) = before.2.filter (refers before.1))
    g.families (mergeGraphic g).value.families

/-! ## One list of siblings -/

theorem refers_congr {r s : Run} (h : s.foreign = r.foreign) :
    refers scope s.element = refers scope r.element := by
  rw [Run.element, Run.element, refers, refers, h]

/-- Paths that join refer to something, or they do not, and the path they become likewise. -/
theorem refers_of_join? {r s joined : Run} (h : r.join? s = some joined) :
    refers scope s.element = refers scope r.element
      ∧ refers scope joined.element = refers scope r.element := by
  obtain ⟨hforeign, -, rfl⟩ := Run.join?_eq_some h
  exact ⟨refers_congr hforeign, refers_congr rfl⟩

/-- The path of the current run and the siblings that follow it. -/
abbrev remaining (current : Option Run) (es : List Element) : List Element :=
  current.toList.map Run.element ++ es

theorem ofElement?_element {e : Element} {r : Run}
    (h : Run.ofElement? format scope e = some r) :
    Run.ofElement? format scope r.element = some r := by
  rw [element_of_ofElement? h, h]

/-- Merging leaves no more paths that refer to something than there were. -/
theorem countP_mergeFrom_le (current : Option Run) (es : List Element) :
    (mergeFrom format scope current es).countP (refers scope)
      ≤ (remaining current es).countP (refers scope) := by
  fun_induction mergeFrom format scope current es with
  | case1 | case2 => exact le_rfl
  | case3 e es hnone ih =>
    simp only [remaining, Option.toList_none, List.map_nil, List.nil_append, List.countP_cons]
      at ih ⊢
    omega
  | case4 e es s hs ih =>
    rw [← element_of_ofElement? hs]
    exact ih
  | case5 e es r hnone ih =>
    simp only [remaining, Option.toList_none, Option.toList_some, List.map_nil, List.map_cons,
      List.nil_append, List.cons_append, List.countP_cons] at ih ⊢
    omega
  | case6 e es r s hs joined hjoined ih =>
    have hrefers : refers scope joined.element = _ := (refers_of_join? hjoined).2
    simp only [remaining, Option.toList_some, List.map_nil, List.map_cons, List.nil_append,
      List.cons_append, List.countP_cons, hrefers] at ih ⊢
    omega
  | case7 e es r s hs hnone ih =>
    rw [← element_of_ofElement? hs]
    simp only [remaining, Option.toList_some, List.map_nil, List.map_cons, List.nil_append,
      List.cons_append, List.countP_cons] at ih ⊢
    omega

/-- Of two paths that join and refer to something one is gone. -/
theorem filter_mergeFrom_ne_of_join? {r s joined : Run} {es : List Element}
    (hjoined : r.join? s = some joined) (hr : refers scope r.element = true) :
    (mergeFrom format scope (some joined) es).filter (refers scope)
      ≠ (r.element :: s.element :: es).filter (refers scope) := by
  intro heq
  obtain ⟨hsecond, hboth⟩ : refers scope s.element = refers scope r.element
      ∧ refers scope joined.element = refers scope r.element := refers_of_join? hjoined
  have hle : (mergeFrom format scope (some joined) es).countP (refers scope)
      ≤ (joined.element :: es).countP (refers scope) := countP_mergeFrom_le (some joined) es
  rw [List.countP_eq_length_filter, heq, ← List.countP_eq_length_filter] at hle
  simp only [List.countP_cons, hsecond, hboth, hr, if_true] at hle
  omega

theorem filter_cons_eq_iff {α : Type} {p : α → Bool} {a : α} {l l' : List α} :
    (a :: l).filter p = (a :: l').filter p ↔ l.filter p = l'.filter p := by
  rw [List.filter_cons, List.filter_cons]
  split
  · rw [List.cons_inj_right]
  · rfl

theorem isChain_cons_iff_of_forall {α : Type} {R : α → α → Prop} {a : α} {l : List α}
    (h : ∀ b, R a b) : (a :: l).IsChain R ↔ l.IsChain R :=
  ⟨List.IsChain.tail, fun hl => .cons hl fun b _ => h b⟩

/-- Merging leaves the paths that refer to something as they are if and only if it joins no two of
them. A run of such paths is compared with the next one as long as it is still one path. -/
theorem filter_mergeFrom_iff {current : Option Run} {es : List Element}
    (hcurrent : ∀ r, current = some r → refers scope r.element = true →
      Run.ofElement? format scope r.element = some r) :
    (mergeFrom format scope current es).filter (refers scope)
        = (remaining current es).filter (refers scope)
      ↔ (remaining current es).IsChain fun a b =>
          ¬(Joins format scope a b ∧ refers scope a = true) := by
  fun_induction mergeFrom format scope current es with
  | case1 => exact iff_of_true rfl .nil
  | case2 r => exact iff_of_true rfl (.singleton _)
  | case3 e es hnone ih =>
    exact filter_cons_eq_iff.trans ((ih (by rintro _ ⟨⟩)).trans
      (isChain_cons_iff_of_forall fun b h => not_joins_of_eq_none (.inl hnone) h.1).symm)
  | case4 e es s hs ih =>
    rw [← element_of_ofElement? hs]
    refine ih ?_
    rintro _ ⟨⟩ -
    exact ofElement?_element hs
  | case5 e es r hnone ih =>
    refine filter_cons_eq_iff.trans (filter_cons_eq_iff.trans ((ih (by rintro _ ⟨⟩)).trans ?_))
    have hr : ¬(Joins format scope r.element e ∧ refers scope r.element = true) :=
      fun h => not_joins_of_eq_none (.inr hnone) h.1
    rw [← isChain_cons_iff_of_forall fun b h => not_joins_of_eq_none (.inl hnone) h.1]
    exact (List.isChain_cons_cons.trans (and_iff_right hr)).symm
  | case6 e es r s hs joined hjoined ih =>
    obtain ⟨hsecond, hboth⟩ : refers scope s.element = refers scope r.element
        ∧ refers scope joined.element = refers scope r.element := refers_of_join? hjoined
    rw [← element_of_ofElement? hs]
    cases hr : refers scope r.element with
    | true =>
      exact iff_of_false (filter_mergeFrom_ne_of_join? hjoined hr) fun hchain =>
        (List.isChain_cons_cons.1 hchain).1
          ⟨⟨r, s, joined, hcurrent r rfl hr, ofElement?_element hs, hjoined⟩, hr⟩
    | false =>
      rw [hr] at hsecond hboth
      have hdrop {a : Element} (ha : refers scope a = false) (l : List Element) :
          (a :: l).IsChain (fun a b => ¬(Joins format scope a b ∧ refers scope a = true))
            ↔ l.IsChain fun a b => ¬(Joins format scope a b ∧ refers scope a = true) :=
        isChain_cons_iff_of_forall fun b h => Bool.false_ne_true (ha.symm.trans h.2)
      have hmore := ih (by rintro _ ⟨⟩ h; rw [hboth] at h; cases h)
      simp only [remaining, Option.toList_some, List.map_nil, List.map_cons, List.nil_append,
        List.cons_append, List.filter_cons, hr, hsecond, hboth, Bool.false_eq_true, if_false,
        hdrop hr, hdrop hsecond, hdrop hboth] at hmore ⊢
      exact hmore
  | case7 e es r s hs hnone ih =>
    have hr : ¬(Joins format scope r.element e ∧ refers scope r.element = true) := by
      rintro ⟨⟨r', s', joined, hr', hs', hjoined⟩, hr⟩
      obtain rfl := Option.some.inj ((hcurrent r rfl hr).symm.trans hr')
      obtain rfl := Option.some.inj (hs.symm.trans hs')
      rw [hnone] at hjoined
      cases hjoined
    have hmore := ih (by rintro _ ⟨⟩ -; exact ofElement?_element hs)
    rw [remaining, Option.toList_some, List.map_singleton, List.singleton_append,
      element_of_ofElement? hs] at hmore
    exact filter_cons_eq_iff.trans
      (hmore.trans (List.isChain_cons_cons.trans (and_iff_right hr)).symm)

/-! ## The tree -/

theorem familiesIn_mergeFrom (current : Option Run) (es : List Element) :
    familiesIn scope (mergeFrom format scope current es) = familiesIn scope es := by
  have hrun {e : Element} {r : Run} (h : Run.ofElement? format scope e = some r) :
      families scope e = [] := by
    rw [← element_of_ofElement? h]
    rfl
  fun_induction mergeFrom format scope current es with
  | case1 | case2 => rfl
  | case3 e es hnone ih => exact congrArg (families scope e ++ ·) ih
  | case4 e es s hs ih | case6 e es r s hs joined hjoined ih | case7 e es r s hs hnone ih =>
    change familiesIn scope (mergeFrom ..) = families scope e ++ familiesIn scope es
    rw [hrun hs]
    exact ih
  | case5 e es r hnone ih => exact congrArg (families scope e ++ ·) ih

/-- A list of siblings as merging leaves it. -/
def mergeFamily (format : Format) (f : Scope × List Element) : Scope × List Element :=
  (f.1, mergeFrom format f.1 none (f.2.map (mergeInside format f.1)))

mutual

theorem families_mergeInside : ∀ (scope : Scope) (e : Element),
    families scope (mergeInside format scope e) = (families scope e).map (mergeFamily format)
  | _, .shape .. | _, .text _ => rfl
  | scope, .container role label children => by
    rw [mergeInside_container, families, families, familiesIn_mergeFrom,
      familiesIn_map_mergeInside (scope.enter label.foreign) children]
    rfl

theorem familiesIn_map_mergeInside : ∀ (scope : Scope) (es : List Element),
    familiesIn scope (es.map (mergeInside format scope))
      = (familiesIn scope es).map (mergeFamily format)
  | _, [] => rfl
  | scope, e :: es => by
    rw [List.map_cons, familiesIn, familiesIn, families_mergeInside scope e,
      familiesIn_map_mergeInside scope es, List.map_append]

end

/-- Merging works on each list of siblings. -/
theorem families_mergeGraphic (g : Graphic) :
    (mergeGraphic g).value.families = g.families.map (mergeFamily g.format) := by
  obtain ⟨format, label, children⟩ := g
  rw [value_mergeGraphic, Graphic.families, Graphic.families, familiesIn_mergeFrom,
    familiesIn_map_mergeInside]
  rfl

theorem filter_map_mergeInside (es : List Element) :
    (es.map (mergeInside format scope)).filter (refers scope) = es.filter (refers scope) := by
  induction es with
  | nil => rfl
  | cons e es ih =>
    rw [List.map_cons, List.filter_cons, List.filter_cons, ih]
    cases e <;> rfl

theorem isChain_map_mergeInside_refers {es : List Element} :
    (es.map (mergeInside format scope)).IsChain
        (fun a b => ¬(Joins format scope a b ∧ refers scope a = true))
      ↔ es.IsChain fun a b => ¬(Joins format scope a b ∧ refers scope a = true) := by
  have hrefers (e : Element) : refers scope (mergeInside format scope e) = refers scope e := by
    cases e <;> rfl
  simp only [List.isChain_map, Joins, ofElement?_mergeInside, hrefers]

/-- **Paths stay what paint is fitted to.** Merging leaves every path that refers to another
element, or that inherits paint that does, as it is if and only if, nowhere in the graphic, two
neighbours that it joins refer to one. -/
theorem keepsPaintReferences_iff (g : Graphic) :
    KeepsPaintReferences g ↔ ∀ f ∈ g.families,
      f.2.IsChain fun a b => ¬(Joins g.format f.1 a b ∧ refers f.1 a = true) := by
  rw [KeepsPaintReferences, families_mergeGraphic, List.forall₂_map_right_iff, List.forall₂_same]
  refine forall₂_congr fun f _ => (and_iff_right rfl).trans ?_
  have hmerged : (mergeFamily g.format f).2.filter (refers f.1)
      = (f.2.map (mergeInside g.format f.1)).filter (refers f.1) ↔ _ :=
    filter_mergeFrom_iff (by rintro _ ⟨⟩)
  rw [filter_map_mergeInside] at hmerged
  exact hmerged.trans isChain_map_mergeInside_refers

/-- How many paths refer to another element, in one list of siblings after the other. -/
def referenceCounts (g : Graphic) : List Nat := g.families.map fun f => f.2.countP (refers f.1)

theorem KeepsPaintReferences.referenceCounts_eq {g : Graphic} (h : KeepsPaintReferences g) :
    referenceCounts (mergeGraphic g).value = referenceCounts g := by
  refine List.forall₂_eq_eq_eq ▸ List.forall₂_map_left_iff.2 (List.forall₂_map_right_iff.2 ?_)
  refine h.flip.imp fun _ _ hf => ?_
  rw [List.countP_eq_length_filter, List.countP_eq_length_filter, hf.2]

/-- Merging makes one path of two that are filled with the same gradient, whether they say so
themselves or inherit it from the group around them. -/
theorem merged_gradients :
    (∃ g, Yields (read ("<svg><path fill=\"url(#g)\" d=\"M0 0h1v1z\"/>"
        ++ "<path fill=\"url(#g)\" d=\"M5 5h1v1z\"/></svg>")) g ∧ ¬KeepsPaintReferences g)
      ∧ ∃ g, Yields (read ("<svg><g fill=\"url(#g)\"><path d=\"M0 0h1v1z\"/>"
        ++ "<path d=\"M5 5h1v1z\"/></g></svg>")) g ∧ ¬KeepsPaintReferences g := by
  have key {s : String} (h : ∃ g, Yields (read s) g
      ∧ referenceCounts (mergeGraphic g).value ≠ referenceCounts g) :
      ∃ g, Yields (read s) g ∧ ¬KeepsPaintReferences g := by
    obtain ⟨g, hread, hne⟩ := h
    exact ⟨g, hread, fun h => hne h.referenceCounts_eq⟩
  exact ⟨key (by decide +kernel), key (by decide +kernel)⟩

end Optimizer

end VectorGraphics
