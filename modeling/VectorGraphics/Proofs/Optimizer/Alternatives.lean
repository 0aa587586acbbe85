import VectorGraphics.Optimizer.Pass
import VectorGraphics.Proofs.Graphic.Outcomes
import VectorGraphics.Proofs.Optimizer.SwitchPasses

/-!
# Alternatives stay alternatives

After a pass, every `switch` should have the alternatives it had before, each as it comes out of
the pass when it is the only one (`KeepsAlternatives`). Eleven passes do this to every graphic.
Merging does it exactly where no two neighbouring alternatives are paths that it joins
(`keepsAlternatives_iff`): it takes the alternatives for siblings that are drawn one after another,
so that of two alternatives it can make one that draws both.
-/

namespace VectorGraphics.Optimizer

open Reading

variable {α β : Type} {format : Format} {scope : Scope}

/-- A pass leaves the alternatives of all switches alternatives: there are as many switches as
before, each has as many alternatives as before, and every alternative becomes what it becomes when
it is the only one in its switch. -/
def KeepsAlternatives (o : Options) (p : Pass) (g : Graphic) : Prop :=
  List.Forall₂ (fun s s' => List.Forall₂ (fun a a' => (p.run o (s.replace [a])).value
    = s'.replace [a']) s.alternatives s'.alternatives) g.switches (p.run o g).value.switches

theorem KeepsAlternatives.lengths {o : Options} {p : Pass} {g : Graphic}
    (h : KeepsAlternatives o p g) :
    (p.run o g).value.switches.map (·.alternatives.length)
      = g.switches.map (·.alternatives.length) := by
  refine List.forall₂_eq_eq_eq ▸ List.forall₂_map_left_iff.2 (List.forall₂_map_right_iff.2 ?_)
  exact h.flip.imp fun _ _ hs => hs.length_eq.symm

/-! ## Siblings that merging leaves as they are -/

/-- Two neighbours that merging makes one path. -/
def Joins (format : Format) (scope : Scope) (a b : Element) : Prop :=
  ∃ r s joined, Run.ofElement? format scope a = some r ∧ Run.ofElement? format scope b = some s
    ∧ r.join? s = some joined

theorem element_of_ofElement? {e : Element} {r : Run}
    (h : Run.ofElement? format scope e = some r) : r.element = e :=
  (Run.ofElement?_eq_some h).1.symm

theorem Joins.isSome {a b : Element} (h : Joins format scope a b) :
    (Run.ofElement? format scope a).isSome = true
      ∧ (Run.ofElement? format scope b).isSome = true := by
  obtain ⟨r, s, -, hr, hs, -⟩ := h
  exact ⟨hr ▸ rfl, hs ▸ rfl⟩

theorem not_joins_of_eq_none {a b : Element} (h : Run.ofElement? format scope a = none
    ∨ Run.ofElement? format scope b = none) : ¬Joins format scope a b := by
  intro hjoins
  obtain ⟨ha, hb⟩ := hjoins.isSome
  obtain h | h := h
  · rw [h] at ha
    cases ha
  · rw [h] at hb
    cases hb

/-- Merging leaves siblings as they are of which no two neighbours join. The run at the beginning is
that of one path `before` the siblings, if there is one. -/
theorem mergeFrom_of_isChain {current : Option Run} {es : List Element} (before : List Element)
    (hbefore : before.map (Run.ofElement? format scope) = current.toList.map some)
    (h : (before ++ es).IsChain fun a b => ¬Joins format scope a b) :
    mergeFrom format scope current es = before ++ es := by
  fun_induction mergeFrom format scope current es generalizing before with
  | case1 =>
    obtain rfl := List.map_eq_nil_iff.1 hbefore
    rfl
  | case2 r =>
    obtain ⟨e, rfl, he⟩ := List.map_eq_singleton_iff.1 hbefore
    rw [element_of_ofElement? he]
    rfl
  | case3 e es hnone ih =>
    obtain rfl := List.map_eq_nil_iff.1 hbefore
    exact congrArg (e :: ·) (ih [] rfl h.tail)
  | case4 e es s hs ih =>
    obtain rfl := List.map_eq_nil_iff.1 hbefore
    exact ih [e] (congrArg (fun r => [r]) hs) h
  | case5 e es r hnone ih =>
    obtain ⟨b, rfl, hb⟩ := List.map_eq_singleton_iff.1 hbefore
    rw [element_of_ofElement? hb, ih [] rfl h.tail.tail]
    rfl
  | case6 e es r s hs joined hjoined ih =>
    obtain ⟨b, rfl, hb⟩ := List.map_eq_singleton_iff.1 hbefore
    exact absurd ⟨r, s, joined, hb, hs, hjoined⟩ (List.isChain_cons_cons.1 h).1
  | case7 e es r s hs hnone ih =>
    obtain ⟨b, rfl, hb⟩ := List.map_eq_singleton_iff.1 hbefore
    rw [element_of_ofElement? hb, ih [e] (congrArg (fun r => [r]) hs) h.tail]
    rfl

theorem length_mergeFrom_le (current : Option Run) (es : List Element) :
    (mergeFrom format scope current es).length ≤ current.toList.length + es.length := by
  fun_induction mergeFrom format scope current es <;> simp_all <;> omega

/-- Where two neighbours join, fewer siblings are left. -/
theorem isChain_of_length_mergeFrom {current : Option Run} {es : List Element}
    (before : List Element)
    (hbefore : before.map (Run.ofElement? format scope) = current.toList.map some)
    (h : (mergeFrom format scope current es).length = before.length + es.length) :
    (before ++ es).IsChain fun a b => ¬Joins format scope a b := by
  fun_induction mergeFrom format scope current es generalizing before with
  | case1 =>
    obtain rfl := List.map_eq_nil_iff.1 hbefore
    exact .nil
  | case2 r =>
    obtain ⟨e, rfl, he⟩ := List.map_eq_singleton_iff.1 hbefore
    exact .singleton e
  | case3 e es hnone ih =>
    obtain rfl := List.map_eq_nil_iff.1 hbefore
    have hlength : (mergeFrom format scope none es).length = 0 + es.length := by
      simp only [List.length_cons, List.length_nil] at h
      omega
    refine .cons (ih [] rfl hlength) fun b _ hjoins => ?_
    simpa [hnone] using hjoins.isSome
  | case4 e es s hs ih =>
    obtain rfl := List.map_eq_nil_iff.1 hbefore
    refine ih [e] (congrArg (fun r => [r]) hs) (h.trans ?_)
    simp only [List.length_cons, List.length_nil]
    omega
  | case5 e es r hnone ih =>
    obtain ⟨b, rfl, hb⟩ := List.map_eq_singleton_iff.1 hbefore
    have hlength : (mergeFrom format scope none es).length = 0 + es.length := by
      simp only [List.length_cons, List.length_nil] at h
      omega
    refine .cons_cons (fun hjoins => ?_) (.cons (ih [] rfl hlength) fun c _ hjoins => ?_)
    · simpa [hnone] using hjoins.isSome
    · simpa [hnone] using hjoins.isSome
  | case6 e es r s hs joined hjoined ih =>
    have hle : (mergeFrom format scope (some joined) es).length ≤ _ :=
      length_mergeFrom_le (some joined) es
    have hbefore := congrArg List.length hbefore
    simp only [List.length_map, Option.toList_some, List.length_cons] at hle hbefore h
    omega
  | case7 e es r s hs hnone ih =>
    obtain ⟨b, rfl, hb⟩ := List.map_eq_singleton_iff.1 hbefore
    have hlength : (mergeFrom format scope (some s) es).length = [e].length + es.length := by
      simp only [List.length_cons, List.length_nil] at h ⊢
      omega
    refine .cons_cons ?_ (ih [e] (congrArg (fun r => [r]) hs) hlength)
    rintro ⟨r', s', joined, hr', hs', hjoined⟩
    obtain rfl := Option.some.inj (hb.symm.trans hr')
    obtain rfl := Option.some.inj (hs.symm.trans hs')
    rw [hnone] at hjoined
    cases hjoined

theorem length_mergeFrom_iff {es : List Element} :
    (mergeFrom format scope none es).length = es.length
      ↔ es.IsChain fun a b => ¬Joins format scope a b :=
  ⟨fun h => isChain_of_length_mergeFrom [] rfl (h.trans (Nat.zero_add _).symm),
    fun h => congrArg List.length (mergeFrom_of_isChain [] rfl h)⟩

/-! ## The effects one by one -/

theorem Follows.keeps_of_oneByOne {F : α → β} {s : Switch α} {s' : Switch β}
    (h : Follows oneByOne F s s') :
    List.Forall₂ (fun a a' => F (s.replace [a]) = s'.replace [a']) s.alternatives
      s'.alternatives := by
  obtain ⟨_, ⟨f, rfl⟩, halternatives, hreplace⟩ := h
  rw [halternatives, List.forall₂_map_right_iff]
  exact List.forall₂_same.2 fun a _ => hreplace [a]

/-- An element with the siblings inside it merged. -/
def mergeInside (format : Format) (scope : Scope) (e : Element) : Element :=
  (mapSiblings (fun _ => true) (mergeSiblings format) scope e).value

theorem value_mapSiblingsIn_mergeSiblings (scope : Scope) (es : List Element) :
    (mapSiblingsIn (fun _ => true) (mergeSiblings format) scope es).value
      = es.map (mergeInside format scope) := by
  induction es with
  | nil => rfl
  | cons e es ih => exact congrArg (mergeInside format scope e :: ·) ih

theorem editIn_mergeSiblings (scope : Scope) (es : List Element) :
    editIn (fun _ => true) (mergeSiblings format) scope es
      = mergeFrom format scope none (es.map (mergeInside format scope)) := by
  rw [editIn, value_mergeSiblings, value_mapSiblingsIn_mergeSiblings]

theorem mergeInside_container (scope : Scope) (role : Role) (label : Label)
    (children : List Element) : mergeInside format scope (.container role label children)
      = .container role label (mergeFrom format (scope.enter label.foreign) none
          (children.map (mergeInside format (scope.enter label.foreign)))) := by
  rw [← value_mapSiblingsIn_mergeSiblings, ← value_mergeSiblings]
  rfl

theorem value_mergeGraphic (format : Format) (label : Label) (children : List Element) :
    (mergeGraphic ⟨format, label, children⟩).value
      = ⟨format, label, mergeFrom format (Scope.enter {} label.foreign) none
          (children.map (mergeInside format (Scope.enter {} label.foreign)))⟩ := by
  rw [← value_mapSiblingsIn_mergeSiblings, ← value_mergeSiblings]
  rfl

theorem ofElement?_mergeInside (e : Element) :
    Run.ofElement? format scope (mergeInside format scope e) = Run.ofElement? format scope e := by
  cases e <;> rfl

/-- Merging inside alternatives does not change which of them join. -/
theorem isChain_map_mergeInside {es : List Element} :
    (es.map (mergeInside format scope)).IsChain (fun a b => ¬Joins format scope a b)
      ↔ es.IsChain fun a b => ¬Joins format scope a b := by
  simp only [List.isChain_map, Joins, ofElement?_mergeInside]

theorem Follows.keeps_iff_of_merging {F : α → β} {s : Switch α} {s' : Switch β}
    (h : Follows (merging format) F s s') :
    List.Forall₂ (fun a a' => F (s.replace [a]) = s'.replace [a']) s.alternatives s'.alternatives
      ↔ s.alternatives.IsChain fun a b => ¬Joins format s.scope a b := by
  obtain ⟨_, rfl, halternatives, hreplace⟩ := h
  rw [editIn_mergeSiblings] at halternatives
  constructor
  · intro hkeeps
    rw [← isChain_map_mergeInside, ← length_mergeFrom_iff, ← halternatives, ← hkeeps.length_eq,
      List.length_map]
  · intro hchain
    rw [halternatives, mergeFrom_of_isChain [] rfl (isChain_map_mergeInside.2 hchain),
      List.nil_append, List.forall₂_map_right_iff]
    refine List.forall₂_same.2 fun a _ => (hreplace [a]).trans (congrArg s'.replace ?_)
    rw [editIn_mergeSiblings]
    exact mergeFrom_of_isChain [] rfl (.singleton _)

theorem forall₂_iff_forall_mem {R S : α → β → Prop} {p : α → Prop} {l : List α} {l' : List β}
    (h : List.Forall₂ R l l') (hp : ∀ a b, R a b → (S a b ↔ p a)) :
    List.Forall₂ S l l' ↔ ∀ a ∈ l, p a := by
  induction h with
  | nil => exact iff_of_true .nil (List.forall_mem_nil _)
  | cons hab _ ih => rw [List.forall₂_cons, List.forall_mem_cons, hp _ _ hab, ih]

/-- **Alternatives stay alternatives.** A pass leaves all switches of a graphic the alternatives
they had, each changed as if it were the only one; merging does so if and only if it joins no two
neighbouring alternatives. -/
theorem keepsAlternatives_iff (o : Options) (p : Pass) (g : Graphic) :
    KeepsAlternatives o p g ↔ (p = .mergePaths →
      ∀ s ∈ g.switches, s.alternatives.IsChain fun a b => ¬Joins g.format s.scope a b) := by
  by_cases hp : p = .mergePaths
  · subst hp
    rw [forall_prop_of_true rfl]
    exact forall₂_iff_forall_mem (follows_merging o g) fun _ _ => Follows.keeps_iff_of_merging
  · refine iff_of_true ?_ fun h => absurd h hp
    exact (follows_oneByOne o p g hp).imp fun _ _ => Follows.keeps_of_oneByOne

/-- Merging makes one path of two alternatives that are far apart. -/
theorem merged_alternatives : ∃ g,
    Yields (read "<svg><switch><path d=\"M0 0h1v1z\"/><path d=\"M5 5h1v1z\"/></switch></svg>") g
      ∧ ¬KeepsAlternatives {} .mergePaths g := by
  have hlengths : ∃ g,
      Yields (read "<svg><switch><path d=\"M0 0h1v1z\"/><path d=\"M5 5h1v1z\"/></switch></svg>") g
        ∧ (Pass.mergePaths.run {} g).value.switches.map (·.alternatives.length)
          ≠ g.switches.map (·.alternatives.length) := by
    decide +kernel
  obtain ⟨g, hread, hne⟩ := hlengths
  exact ⟨g, hread, fun h => hne h.lengths⟩

end VectorGraphics.Optimizer
