import VectorGraphics.Proofs.Graphic.Properties
import VectorGraphics.Proofs.Path.Outline

/-!
# Merged paths are drawn as they were

Merging replaces runs of neighbouring paths by one path each (`SiblingsMerge`). The paths of a run
have no identifier, equal attributes and boxes without a common point, and the path in their place
draws what they draw, one after the other (`mergeGraphic_keeps_outlines`).

A run that is still growing is compared with the next path by a box around all its members. That box
overlaps whatever the box of a member overlaps, even where a coordinate is no number
(`Gathers.covers`), so that disjointness from it is disjointness from each member.
-/

namespace VectorGraphics

namespace Path.Bounds

variable {b c d : Bounds}

theorem overlaps_iff : b.overlaps c = true ↔
    b.low.x ≤ c.high.x ∧ c.low.x ≤ b.high.x ∧ b.low.y ≤ c.high.y ∧ c.low.y ≤ b.high.y := by
  simp only [overlaps, Bool.and_eq_true, decide_eq_true_eq, and_assoc]

theorem overlaps_union_of_left (h : b.overlaps d = true) : (b.union c).overlaps d = true := by
  obtain ⟨hlx, hhx, hly, hhy⟩ := overlaps_iff.1 h
  exact overlaps_iff.2
    ⟨Single.min_le_of_left_le (Single.min_le_of_left_le hlx),
      Single.le_max_of_le_left (Single.le_max_of_le_left hhx),
      Single.min_le_of_left_le (Single.min_le_of_left_le hly),
      Single.le_max_of_le_left (Single.le_max_of_le_left hhy)⟩

theorem overlaps_union_of_right (h : c.overlaps d = true) : (b.union c).overlaps d = true := by
  obtain ⟨hlx, hhx, hly, hhy⟩ := overlaps_iff.1 h
  exact overlaps_iff.2
    ⟨Single.min_le_of_left_le (Single.min_le_of_right_le hlx), Single.le_max_of_le_right hhx,
      Single.min_le_of_left_le (Single.min_le_of_right_le hly), Single.le_max_of_le_right hhy⟩

end Path.Bounds

namespace Optimizer

open VectorGraphics.Path (Command outline BeginsWithMove)

/-! ## What merging may do -/

/-- A painted path without an identifier. -/
abbrev plainPath (foreign : Attributes) (commands : List Command) : Element :=
  .shape .painted { foreign } commands

/-- A box around what a path with the given attributes paints, if it has any point. -/
def paintedBox? (format : Format) (scope : Scope) (foreign : Attributes)
    (commands : List Command) : Option Path.Bounds :=
  (Path.Bounds.ofPath? commands).map fun box => box.expand (strokeMargin format scope foreign)

/-- Two paths have boxes, and these have no point in common. -/
def Apart (format : Format) (scope : Scope) (foreign : Attributes) (cs ds : List Command) : Prop :=
  ∃ b c, paintedBox? format scope foreign cs = some b ∧ paintedBox? format scope foreign ds = some c
    ∧ b.overlaps c = false

mutual

/-- An element with the siblings inside it merged. -/
inductive ElementMerge (format : Format) : Scope → Element → Element → Prop
  /-- A path or text stays as it is. -/
  | leaf {scope : Scope} {e : Element} (he : e.children? = none) : ElementMerge format scope e e
  /-- The children of a container are merged. -/
  | container {scope : Scope} {role : Role} {label : Label} {children merged : List Element}
      (h : SiblingsMerge format (scope.enter label.foreign) children merged) :
      ElementMerge format scope (.container role label children) (.container role label merged)

/-- Siblings of which some runs of neighbouring paths are replaced by one path each, here and in
everything inside them. -/
inductive SiblingsMerge (format : Format) : Scope → List Element → List Element → Prop
  /-- No siblings. -/
  | nil {scope : Scope} : SiblingsMerge format scope [] []
  /-- An element stays by itself. -/
  | keep {scope : Scope} {e e' : Element} {es es' : List Element}
      (he : ElementMerge format scope e e') (h : SiblingsMerge format scope es es') :
      SiblingsMerge format scope (e :: es) (e' :: es')
  /-- Two or more paths with the same attributes, and with boxes that have no point in common,
  become one path with these attributes that draws what they draw, in their order. -/
  | join {scope : Scope} {foreign : Attributes} {members : List (List Command)}
      {commands : List Command} {es es' : List Element} (hlength : 2 ≤ members.length)
      (hapart : members.Pairwise (Apart format scope foreign))
      (houtline : outline commands = members.flatMap outline)
      (h : SiblingsMerge format scope es es') :
      SiblingsMerge format scope (members.map (plainPath foreign) ++ es)
        (plainPath foreign commands :: es')

end

/-! ## Runs -/

/-- The members of a run that is being gathered. -/
structure Run.Gathers (format : Format) (scope : Scope) (r : Run) (members : List (List Command)) :
    Prop where
  ne_nil : members ≠ []
  single : ∀ cs, members = [cs] → r.commands = cs
  draws : outline r.commands = members.flatMap outline
  apart : members.Pairwise (Apart format scope r.foreign)
  covers : ∀ cs ∈ members, ∃ b, paintedBox? format scope r.foreign cs = some b
    ∧ ∀ c, b.overlaps c = true → r.box.overlaps c = true

variable {format : Format} {scope : Scope}

theorem Run.ofElement?_eq_some {e : Element} {r : Run}
    (h : Run.ofElement? format scope e = some r) :
    e = plainPath r.foreign r.commands
      ∧ paintedBox? format scope r.foreign r.commands = some r.box := by
  unfold Run.ofElement? at h
  split at h
  · next foreign commands =>
    obtain ⟨box, hbox, rfl⟩ := Option.map_eq_some_iff.1 h
    exact ⟨rfl, congrArg (Option.map _) hbox⟩
  · cases h

theorem Run.join?_eq_some {r s joined : Run} (h : r.join? s = some joined) :
    s.foreign = r.foreign ∧ r.box.overlaps s.box = false
      ∧ joined = ⟨r.foreign, r.commands ++ appendable s.commands, r.box.union s.box⟩ := by
  rw [join?] at h
  split at h
  · next hcondition =>
    exact ⟨hcondition.1.symm, by simpa using hcondition.2, (Option.some.inj h).symm⟩
  · cases h

theorem Run.Gathers.singleton {r : Run}
    (h : paintedBox? format scope r.foreign r.commands = some r.box) :
    r.Gathers format scope [r.commands] where
  ne_nil := List.cons_ne_nil _ _
  single := fun _ hcs => (List.cons.inj hcs).1
  draws := (List.flatMap_singleton outline r.commands).symm
  apart := List.pairwise_singleton _ _
  covers := by
    intro cs hcs
    rw [List.mem_singleton.1 hcs]
    exact ⟨r.box, h, fun _ => id⟩

/-- A path that is far enough from a run continues it. -/
theorem Run.Gathers.join {r s joined : Run} {members : List (List Command)}
    (hr : r.Gathers format scope members)
    (hbox : paintedBox? format scope s.foreign s.commands = some s.box)
    (hmove : BeginsWithMove s.commands) (h : r.join? s = some joined) :
    joined.Gathers format scope (members ++ [s.commands]) := by
  obtain ⟨hforeign, hoverlaps, rfl⟩ := Run.join?_eq_some h
  have happ : members ++ [s.commands] ≠ [] := List.append_ne_nil_of_left_ne_nil hr.ne_nil _
  refine ⟨happ, fun cs hcs => ?_, ?_, ?_, fun cs hcs => ?_⟩
  · have := congrArg List.length hcs
    have := List.length_pos_iff.2 hr.ne_nil
    simp only [List.length_append, List.length_singleton] at *
    omega
  · rw [outline, Path.outlineFrom_append, Path.outlineFrom_appendable hmove,
      List.flatMap_append, List.flatMap_singleton, ← hr.draws]
    rfl
  · refine List.pairwise_append.2 ⟨hr.apart, List.pairwise_singleton _ _, fun cs hcs ds hds => ?_⟩
    obtain rfl := List.mem_singleton.1 hds
    obtain ⟨b, hb, hcovers⟩ := hr.covers cs hcs
    refine ⟨b, s.box, hb, hforeign ▸ hbox, Bool.eq_false_iff.2 fun hb => ?_⟩
    rw [hcovers _ hb] at hoverlaps
    cases hoverlaps
  · obtain hcs | hcs := List.mem_append.1 hcs
    · obtain ⟨b, hb, hcovers⟩ := hr.covers cs hcs
      exact ⟨b, hb, fun c hc => Path.Bounds.overlaps_union_of_left (hcovers c hc)⟩
    · rw [List.mem_singleton.1 hcs]
      exact ⟨s.box, hforeign ▸ hbox, fun c hc => Path.Bounds.overlaps_union_of_right hc⟩

/-- The elements that have gone into the run before the next sibling, if there is one. -/
def Gathered (format : Format) (scope : Scope) : Option Run → List Element → Prop
  | none, before => before = []
  | some r, before =>
    ∃ members, r.Gathers format scope members ∧ before = members.map (plainPath r.foreign)

theorem Gathered.none : Gathered format scope none [] := rfl

theorem Gathered.of_ofElement? {e : Element} {r : Run}
    (h : Run.ofElement? format scope e = some r) : Gathered format scope (some r) [e] := by
  obtain ⟨rfl, hbox⟩ := Run.ofElement?_eq_some h
  exact ⟨_, .singleton hbox, rfl⟩

/-- A run becomes one path, which is the path it began with if that is all there is. -/
theorem Gathered.flush {r : Run} {before es es' : List Element}
    (hr : Gathered format scope (some r) before) (h : SiblingsMerge format scope es es') :
    SiblingsMerge format scope (before ++ es) (r.element :: es') := by
  obtain ⟨members, hmembers, rfl⟩ := hr
  match members, hmembers with
  | [], hmembers => exact absurd rfl hmembers.ne_nil
  | [cs], hmembers =>
    rw [← hmembers.single cs rfl]
    exact .keep (.leaf rfl) h
  | cs :: ds :: members, hmembers =>
    exact .join (by simp) hmembers.apart hmembers.draws h

/-! ## The tree -/

/-- Painted paths are empty or begin with a move. -/
def opens : ElementProperty where
  shape := fun use _ cs => use = .painted → cs = [] ∨ BeginsWithMove cs
  container := fun _ _ => True

theorem beginsWithMove_of_ofElement? {e : Element} {r : Run} (he : opens.Holds e)
    (h : Run.ofElement? format scope e = some r) : BeginsWithMove r.commands := by
  obtain ⟨rfl, hbox⟩ := Run.ofElement?_eq_some h
  refine (he rfl).resolve_left fun hnil => ?_
  rw [hnil] at hbox
  cases hbox

/-- A path is none of the elements that merging changes inside. -/
theorem ElementMerge.eq_of_ofElement? {e e' : Element} {r : Run}
    (he : ElementMerge format scope e e') (h : Run.ofElement? format scope e' = some r) :
    e = e' := by
  obtain ⟨rfl, -⟩ := Run.ofElement?_eq_some h
  cases he with
  | leaf => rfl

/-- A run continued by the next sibling. -/
theorem Gathered.join {r s joined : Run} {before : List Element} {e : Element}
    (hr : Gathered format scope (some r) before) (hmove : BeginsWithMove s.commands)
    (hs : Run.ofElement? format scope e = some s) (h : r.join? s = some joined) :
    Gathered format scope (some joined) (before ++ [e]) := by
  obtain ⟨members, hmembers, rfl⟩ := hr
  obtain ⟨rfl, hbox⟩ := Run.ofElement?_eq_some hs
  have hjoined := hmembers.join hbox hmove h
  obtain ⟨hforeign, -, rfl⟩ := Run.join?_eq_some h
  refine ⟨_, hjoined, ?_⟩
  rw [List.map_append, hforeign]
  rfl

/-- What the loop does from the next sibling on, with a run before it or without. -/
theorem siblingsMerge_mergeFrom {current : Option Run} {before es es' : List Element}
    (hcurrent : Gathered format scope current before)
    (hes : List.Forall₂ (ElementMerge format scope) es es') (hopens : opens.HoldsAll es) :
    SiblingsMerge format scope (before ++ es) (mergeFrom format scope current es') := by
  fun_induction mergeFrom format scope current es' generalizing before es with
  | case1 =>
    cases hes
    rw [hcurrent]
    exact .nil
  | case2 r =>
    cases hes
    exact hcurrent.flush .nil
  | case3 e' es' hnone ih =>
    obtain ⟨e, es, he, htail, rfl⟩ := List.forall₂_cons_right_iff.1 hes
    rw [hcurrent]
    exact .keep he (ih .none htail hopens.2)
  | case4 e' es' s hs ih =>
    obtain ⟨e, es, he, htail, rfl⟩ := List.forall₂_cons_right_iff.1 hes
    obtain rfl := he.eq_of_ofElement? hs
    have hmore := ih (.of_ofElement? hs) htail hopens.2
    rw [hcurrent]
    exact hmore
  | case5 e' es' r hnone ih =>
    obtain ⟨e, es, he, htail, rfl⟩ := List.forall₂_cons_right_iff.1 hes
    exact hcurrent.flush (.keep he (ih .none htail hopens.2))
  | case6 e' es' r s hs joined hjoined ih =>
    obtain ⟨e, es, he, htail, rfl⟩ := List.forall₂_cons_right_iff.1 hes
    obtain rfl := he.eq_of_ofElement? hs
    have hmore := ih (hcurrent.join (beginsWithMove_of_ofElement? hopens.1 hs) hs hjoined) htail
      hopens.2
    rwa [List.append_assoc] at hmore
  | case7 e' es' r s hs hnone ih =>
    obtain ⟨e, es, he, htail, rfl⟩ := List.forall₂_cons_right_iff.1 hes
    obtain rfl := he.eq_of_ofElement? hs
    have hmore := ih (.of_ofElement? hs) htail hopens.2
    exact hcurrent.flush hmore

theorem value_mergeSiblings (es : List Element) :
    (mergeSiblings format scope es).value = mergeFrom format scope none es := by
  rw [mergeSiblings]
  split <;> rfl

mutual

theorem elementMerge_mapSiblings : ∀ {scope : Scope} {e : Element}, opens.Holds e →
    ElementMerge format scope e
      (mapSiblings (fun _ => true) (mergeSiblings format) scope e).value
  | _, .shape .., _ => .leaf rfl
  | _, .container role label children, h => by
    simp only [mapSiblings, if_true, Logged.value_bind, Logged.value_pure, value_mergeSiblings]
    exact .container (siblingsMerge_mergeFrom .none (forall₂_mapSiblingsIn h.2) h.2)
  | _, .text _, _ => .leaf rfl

theorem forall₂_mapSiblingsIn : ∀ {scope : Scope} {es : List Element}, opens.HoldsAll es →
    List.Forall₂ (ElementMerge format scope) es
      (mapSiblingsIn (fun _ => true) (mergeSiblings format) scope es).value
  | _, [], _ => .nil
  | _, _ :: _, h => .cons (elementMerge_mapSiblings h.1) (forall₂_mapSiblingsIn h.2)

end

/-- **Merging paths changes nothing of what is drawn.** Everywhere in a graphic whose painted paths
are empty or begin with a move, the siblings are the ones before with some runs of neighbouring
paths replaced by one path each: the paths of a run have no identifier, the same attributes and
boxes without a common point, and the new path has their attributes and draws what they draw, in
their order. -/
theorem mergeGraphic_keeps_outlines (g : Graphic)
    (hopens : ∀ label cs, .shape .painted label cs ∈ g.elements → cs = [] ∨ BeginsWithMove cs) :
    ∃ merged, (mergeGraphic g).value = { g with children := merged }
      ∧ SiblingsMerge g.format (Scope.enter {} g.label.foreign) g.children merged := by
  have hall : opens.HoldsAll g.children := by
    refine ElementProperty.holdsAll_iff_descendants.2 fun e he => ?_
    cases e with
    | shape use label cs =>
      rintro rfl
      exact hopens label cs he
    | container | text => trivial
  refine ⟨_, rfl, ?_⟩
  rw [value_mergeSiblings]
  exact siblingsMerge_mergeFrom .none (forall₂_mapSiblingsIn hall) hall

/-- Two lines far enough apart, of which the second begins with a relative move. -/
theorem two_lines_keep_outlines :
    SiblingsMerge .svg {}
      [plainPath ∅ [.draw .move .absolute [⟨1, 1⟩], .draw .line .relative [⟨2, 0⟩]],
        plainPath ∅ [.draw .move .relative [⟨8, 8⟩], .draw .line .relative [⟨2, 0⟩]]]
      [plainPath ∅ [.draw .move .absolute [⟨1, 1⟩], .draw .line .relative [⟨2, 0⟩],
        .draw .move .absolute [⟨8, 8⟩], .draw .line .relative [⟨2, 0⟩]]] := by
  obtain ⟨merged, hvalue, hmerge⟩ := mergeGraphic_keeps_outlines ⟨.svg, {},
      [plainPath ∅ [.draw .move .absolute [⟨1, 1⟩], .draw .line .relative [⟨2, 0⟩]],
        plainPath ∅ [.draw .move .relative [⟨8, 8⟩], .draw .line .relative [⟨2, 0⟩]]]⟩ (by
    intro label cs hmem
    simp only [Graphic.elements, Element.descendants.descendantsOfAll, Element.descendants,
      List.cons_append, List.nil_append, List.mem_cons, List.not_mem_nil, or_false,
      Element.shape.injEq] at hmem
    obtain ⟨-, -, rfl⟩ | ⟨-, -, rfl⟩ := hmem
    · exact .inr ⟨_, _, _, _, rfl⟩
    · exact .inr ⟨_, _, _, _, rfl⟩)
  have hmerged : merged = [plainPath ∅ [.draw .move .absolute [⟨1, 1⟩],
      .draw .line .relative [⟨2, 0⟩], .draw .move .absolute [⟨8, 8⟩],
      .draw .line .relative [⟨2, 0⟩]]] := (congrArg Graphic.children hvalue).symm.trans rfl
  rwa [hmerged] at hmerge

end Optimizer

end VectorGraphics
