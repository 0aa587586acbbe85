import VectorGraphics.Optimizer.Pass
import VectorGraphics.Proofs.Optimizer.Sightings

/-!
# Flattening

Dropping the empty groups of a graphic and then dissolving those that have nothing but children
keeps the drawing, leaves such a group only around a clip path, and is done after one run
(`flatten_keeps_sightings`).

Dissolving goes from the inside to the outside, so that two things have to be seen. A group that is
not empty does not become empty by what happens inside it, as a dissolved group leaves its children
behind (`collapse_eq_nil_iff`). And what a dissolved group leaves behind has been dealt with
already, as the siblings around it are the last to change (`establishes_isSettled`).
-/

namespace VectorGraphics.Optimizer

/-! ## Dissolving the groups of one list -/

theorem collapsible?_eq_some_iff {e : Element} {children : List Element} :
    collapsible? e = some children ↔ ∃ role label, e = .container role label children
      ∧ isPlainGroup role label = true ∧ children ≠ [] ∧ children.any isClipPath = false := by
  rw [collapsible?]
  constructor
  · intro h
    split at h
    · next hplain =>
      obtain ⟨hchildren, hfilter⟩ := Option.filter_eq_some_iff.1 h
      cases e with
      | container role label es =>
        obtain rfl := Option.some.inj hchildren
        exact ⟨role, label, rfl, (hasAttributes?_container role label es).1 hplain,
          by simpa using hfilter⟩
      | shape use label commands => cases hchildren
      | text content => cases hchildren
    · cases h
  · rintro ⟨role, label, rfl, hplain, hne, hclip⟩
    rw [if_pos ((hasAttributes?_container role label children).2 hplain)]
    exact Option.filter_eq_some_iff.2 ⟨rfl, by simpa [hne] using hclip⟩

theorem isEmptyGroup_iff {e : Element} : isEmptyGroup e = true ↔ ∃ role label,
    e = .container role label [] ∧ isPlainGroup role label = true := by
  cases e with
  | container role label children =>
    simp only [isEmptyGroup, Element.children?, Option.any_some, Bool.and_eq_true,
      decide_eq_true_eq, List.isEmpty_iff, hasAttributes?_container]
    constructor
    · rintro ⟨hplain, rfl⟩
      exact ⟨role, label, rfl, hplain⟩
    · rintro ⟨_, _, heq, hplain⟩
      obtain ⟨rfl, rfl, rfl⟩ := Element.container.inj heq
      exact ⟨hplain, rfl⟩
  | shape use label commands => exact iff_of_false Bool.false_ne_true (by rintro ⟨_, _, ⟨⟩, -⟩)
  | text content => exact iff_of_false Bool.false_ne_true (by rintro ⟨_, _, ⟨⟩, -⟩)

theorem isSequence_of_isPlainGroup {role : Role} {label : Label}
    (h : isPlainGroup role label = true) : isSequence role = true := by
  cases role with
  | group m => rfl
  | clipGroup => rfl
  | extra name => cases h

theorem value_collapseOne (e : Element) :
    (collapseOne e).value = (collapsible? e).getD [e] := by
  rw [collapseOne]
  cases collapsible? e <;> rfl

theorem value_collapse_cons (e : Element) (es : List Element) :
    (collapse (e :: es)).value = (collapsible? e).getD [e] ++ (collapse es).value := by
  rw [collapse, Logged.value_bind, Logged.value_bind, Logged.value_pure, value_collapseOne]

theorem value_collapse (es : List Element) :
    (collapse es).value = es.flatMap fun e => (collapsible? e).getD [e] := by
  induction es with
  | nil => rfl
  | cons e es ih => rw [value_collapse_cons, ih, List.flatMap_cons]

/-- A dissolved group leaves its children behind. -/
theorem collapse_eq_nil_iff {es : List Element} : (collapse es).value = [] ↔ es = [] := by
  rw [value_collapse, List.flatMap_eq_nil_iff]
  constructor
  · intro h
    refine List.eq_nil_iff_forall_not_mem.2 fun e he => ?_
    have hnil := h e he
    cases hsome : collapsible? e with
    | none =>
      rw [hsome] at hnil
      cases hnil
    | some children =>
      obtain ⟨-, -, -, -, hne, -⟩ := collapsible?_eq_some_iff.1 hsome
      rw [hsome] at hnil
      exact hne hnil
  · rintro rfl
    exact List.forall_mem_nil _

/-- The elements that come in place of some siblings when groups are dissolved, inside and among
them. -/
def dissolveIn (scope : Scope) (es : List Element) : List Element :=
  (collapse (mapSiblingsIn isSequence (fun _ => collapse) scope es).value).value

theorem value_mapSiblings_collapse (scope : Scope) (role : Role) (label : Label)
    (children : List Element) :
    (mapSiblings isSequence (fun _ => collapse) scope (.container role label children)).value
      = if isSequence role then
          .container role label (dissolveIn (scope.enter label.foreign) children)
        else .container role label children :=
  value_mapSiblings_container scope role label children

theorem dissolveIn_eq_nil_iff {scope : Scope} {es : List Element} :
    dissolveIn scope es = [] ↔ es = [] :=
  collapse_eq_nil_iff.trans value_mapSiblingsIn_eq_nil

/-! ## Sightings -/

theorem sightingsIn_collapse (around : List (Role × Label)) (es : List Element) :
    sightingsIn around (collapse es).value = sightingsIn around es := by
  induction es with
  | nil => rfl
  | cons e es ih =>
    rw [value_collapse_cons, sightingsIn_append, ih, sightingsIn]
    cases hsome : collapsible? e with
    | none => rw [Option.getD_none, sightingsIn, sightingsIn, List.append_nil]
    | some children =>
      obtain ⟨role, label, rfl, hplain, -⟩ := collapsible?_eq_some_iff.1 hsome
      rw [Option.getD_some, sightings_of_isPlainGroup hplain]

theorem sightingsIn_dissolveIn (scope : Scope) (around : List (Role × Label)) (es : List Element) :
    sightingsIn around (dissolveIn scope es) = sightingsIn around es := by
  rw [dissolveIn, sightingsIn_collapse,
    sightingsIn_mapSiblingsIn fun around _ es => sightingsIn_collapse around es]

theorem sightingsIn_removeEmpty (around : List (Role × Label)) (es : List Element) :
    sightingsIn around (removeEmpty es) = sightingsIn around es := by
  induction es with
  | nil => rfl
  | cons e es ih =>
    rw [sightingsIn, ← ih, removeEmpty, List.filter_cons]
    split
    · rw [sightingsIn, removeEmpty]
    · next hempty =>
      obtain ⟨role, label, rfl, hplain⟩ := isEmptyGroup_iff.1 (by simpa using hempty)
      rw [sightings_of_isPlainGroup hplain, sightingsIn, List.nil_append, removeEmpty]

/-! ## Settled elements -/

/-- A group with nothing but children has a clip path among them. -/
def IsSettled (e : Element) : Prop :=
  e.hasAttributes? = some false → ∃ children, e.children? = some children
    ∧ ∃ child ∈ children, isClipPath child = true

/-- A settled element is neither dropped nor dissolved. -/
theorem isSettled_iff {e : Element} :
    IsSettled e ↔ isEmptyGroup e = false ∧ collapsible? e = none := by
  rw [IsSettled, isEmptyGroup, collapsible?]
  cases e with
  | container role label children =>
    by_cases hplain : (Element.container role label children).hasAttributes? = some false
    · cases children <;> simp [hplain, Element.children?]
    · simp [hplain]
  | shape use label commands => exact iff_of_true (by rintro ⟨⟩) ⟨rfl, rfl⟩
  | text content => exact iff_of_true (by rintro ⟨⟩) ⟨rfl, rfl⟩

/-- Dropping the empty groups of one list after another drops them all. -/
theorem establishes_not_isEmptyGroup :
    Establishes (fun _ => True) (fun e => isEmptyGroup e = false)
      (fun _ es => pure (removeEmpty es)) := by
  intro scope es h x hx
  obtain ⟨e, he, hx⟩ := mem_inSequenceIn.1 hx
  obtain ⟨he, hempty⟩ := List.mem_filter.1 he
  obtain rfl | hx := hx
  · simpa using hempty
  · exact (h e he).2 x hx

/-- Dissolving the groups of one list after another settles all elements, if no group is empty. -/
theorem establishes_isSettled :
    Establishes (fun e => isEmptyGroup e = false) IsSettled (fun _ es => collapse es) := by
  intro scope es h x hx
  rw [value_collapse] at hx
  obtain ⟨f, hf, hx⟩ := mem_inSequenceIn.1 hx
  obtain ⟨e, he, hf⟩ := List.mem_flatMap.1 hf
  obtain ⟨hempty, hinside⟩ := h e he
  cases hsome : collapsible? e with
  | none =>
    rw [hsome, Option.getD_none, List.mem_singleton] at hf
    subst hf
    obtain rfl | hx := hx
    · exact isSettled_iff.2 ⟨hempty, hsome⟩
    · exact hinside x hx
  | some children =>
    -- What is left of the group has been inside it before.
    obtain ⟨role, label, rfl, hplain, -⟩ := collapsible?_eq_some_iff.1 hsome
    rw [hsome, Option.getD_some] at hf
    refine hinside x ?_
    rw [inside, if_pos (isSequence_of_isPlainGroup hplain)]
    exact mem_inSequenceIn.2 ⟨f, hf, hx⟩

/-- No group becomes empty by what is dissolved inside it. -/
theorem isEmptyGroup_mapSiblings_collapse (scope : Scope) (e : Element) :
    isEmptyGroup (mapSiblings isSequence (fun _ => collapse) scope e).value = isEmptyGroup e := by
  cases e with
  | container role label children =>
    rw [value_mapSiblings_collapse]
    split
    · rw [Bool.eq_iff_iff, isEmptyGroup_iff, isEmptyGroup_iff]
      simp only [Element.container.injEq, dissolveIn_eq_nil_iff]
    · rfl
  | shape use label commands => rfl
  | text content => rfl

/-! ## Flattening a graphic -/

/-- A graphic after its empty groups have been dropped and its groups have been dissolved. -/
def flatten (o : Options) (g : Graphic) : Graphic :=
  ([.removeEmptyGroups, .collapseGroups].foldlM (Pass.run o) g).value

section

variable (o : Options) (g : Graphic)

theorem flatten_eq : flatten o g = (collapseGraphic (removeEmptyGraphic g).value).value := rfl

theorem children_removeEmptyGraphic : (removeEmptyGraphic g).value.children
    = removeEmpty (mapSiblingsIn isSequence (fun _ es => pure (removeEmpty es))
      (Scope.enter {} g.label.foreign) g.children).value := rfl

theorem children_collapseGraphic : (collapseGraphic g).value.children
    = dissolveIn (Scope.enter {} g.label.foreign) g.children := rfl

theorem sightingsIn_flatten (around : List (Role × Label)) :
    sightingsIn around (flatten o g).children = sightingsIn around g.children := by
  rw [flatten_eq, children_collapseGraphic, sightingsIn_dissolveIn, children_removeEmptyGraphic,
    sightingsIn_removeEmpty,
    sightingsIn_mapSiblingsIn fun around _ es => sightingsIn_removeEmpty around es]

theorem not_isEmptyGroup_removeEmptyGraphic :
    ∀ e ∈ inSequenceIn (removeEmptyGraphic g).value.children, isEmptyGroup e = false :=
  establishes_not_isEmptyGroup (Scope.enter {} g.label.foreign) _
    (forall_inside_mapSiblingsIn establishes_not_isEmptyGroup (fun _ _ _ => trivial) _ _
      fun _ _ => trivial)

theorem isSettled_flatten : ∀ e ∈ inSequenceIn (flatten o g).children, IsSettled e :=
  establishes_isSettled (Scope.enter {} g.label.foreign) _
    (forall_inside_mapSiblingsIn establishes_isSettled
      (fun scope e h => (isEmptyGroup_mapSiblings_collapse scope e).trans h) _ _
      (not_isEmptyGroup_removeEmptyGraphic g))

variable {g}

theorem removeEmpty_eq_self {es : List Element} (h : ∀ e ∈ es, IsSettled e) :
    removeEmpty es = es :=
  List.filter_eq_self.2 fun e he => by simp [(isSettled_iff.1 (h e he)).1]

theorem collapse_eq_self {es : List Element} (h : ∀ e ∈ es, IsSettled e) :
    (collapse es).value = es := by
  induction es with
  | nil => rfl
  | cons e es ih =>
    rw [List.forall_mem_cons] at h
    rw [value_collapse_cons, (isSettled_iff.1 h.1).2, ih h.2, Option.getD_none,
      List.singleton_append]

/-- Nothing is left to do where every element is settled. -/
theorem flatten_eq_self (h : ∀ e ∈ inSequenceIn g.children, IsSettled e) : flatten o g = g := by
  have hsiblings : ∀ e ∈ g.children, IsSettled e := fun e he => h e (mem_inSequenceIn_of_mem he)
  have hremove : (removeEmptyGraphic g).value = g := by
    have hchildren : (removeEmptyGraphic g).value.children = g.children := by
      rw [children_removeEmptyGraphic,
        mapSiblingsIn_eq_self (fun _ _ => removeEmpty_eq_self) _ g.children h,
        removeEmpty_eq_self hsiblings]
    exact congrArg (fun children => { g with children }) hchildren
  have hcollapse : (collapseGraphic g).value.children = g.children := by
    rw [children_collapseGraphic, dissolveIn,
      mapSiblingsIn_eq_self (fun _ _ => collapse_eq_self) _ g.children h,
      collapse_eq_self hsiblings]
  rw [flatten_eq, hremove]
  exact congrArg (fun children => { g with children }) hcollapse

end

/-- **Flattening keeps the drawing and is done after one run.** The elements of a graphic other than
groups stay, in their order, each with the containers around it that are more than a group of
children, and everything inside of alternatives stays as it is. Outside of these, a group that has
nothing but children has a clip path among them. Flattening once more changes nothing. -/
theorem flatten_keeps_sightings (o : Options) (g : Graphic) :
    (flatten o g).format = g.format ∧ (flatten o g).label = g.label
      ∧ sightingsIn [] (flatten o g).children = sightingsIn [] g.children
      ∧ (∀ m label children, .group m label children ∈ inSequenceIn (flatten o g).children →
        (Element.group m label children).hasAttributes? = some false →
          ∃ child ∈ children, isClipPath child = true)
      ∧ flatten o (flatten o g) = flatten o g := by
  refine ⟨rfl, rfl, sightingsIn_flatten o g [], fun m label children hmem hplain => ?_,
    flatten_eq_self o (isSettled_flatten o g)⟩
  obtain ⟨_, hchildren, hclip⟩ := isSettled_flatten o g _ hmem hplain
  obtain rfl := Option.some.inj hchildren
  exact hclip

end VectorGraphics.Optimizer
