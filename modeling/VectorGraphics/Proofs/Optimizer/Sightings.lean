import VectorGraphics.Optimizer.Groups

/-!
# What is seen of a graphic

Groups that have nothing but children leave no trace in a drawing. `sightings` lists all other
elements of a tree but the groups themselves, each with the containers that stand around it, and
`inSequence` lists the elements that are drawn one after another with their siblings, which are all
those outside of alternatives.

A pass over lists of siblings keeps the sightings of a tree if it keeps those of every list
(`sightingsIn_mapSiblingsIn`), establishes what it establishes for one list after another
(`forall_inside_mapSiblings`), and changes nothing where it has nothing to do
(`mapSiblingsIn_eq_self`).
-/

namespace VectorGraphics.Optimizer

/-! ## Sightings -/

/-- Whether a container is a group with nothing but its children. -/
def isPlainGroup : Role → Label → Bool
  | .group m, label => !(label.id.isSome || !label.foreign.isEmpty || !m.isIdentity)
  | _, _ => false

theorem hasAttributes?_container (role : Role) (label : Label) (children : List Element) :
    (Element.container role label children).hasAttributes? = some false
      ↔ isPlainGroup role label = true := by
  cases role with
  | group m => simp [Element.hasAttributes?, isPlainGroup]
  | clipGroup => exact iff_of_false nofun nofun
  | extra name => exact iff_of_false nofun nofun

/-- An element with what stands around it. -/
structure Sighting where
  /-- The containers around the element, the outermost first. Groups with nothing but children are
  left out. -/
  around : List (Role × Label)
  /-- The element. Children of a container that are drawn one after another are left out, as they
  are seen by themselves. -/
  element : Element

/-- What stands around the children of a container. -/
def surround (around : List (Role × Label)) (role : Role) (label : Label) : List (Role × Label) :=
  if isPlainGroup role label then around else around ++ [(role, label)]

/-- What is seen of a container that is no group. -/
def frame (role : Role) (label : Label) (children : List Element) : List Element :=
  match role with
  | .group _ => []
  | role => [.container role label (if isSequence role then [] else children)]

mutual

/-- The elements of a tree other than groups, in document order. -/
def sightings (around : List (Role × Label)) : Element → List Sighting
  | .shape use label commands => [⟨around, .shape use label commands⟩]
  | .container role label children =>
    (frame role label children).map (⟨around, ·⟩)
      ++ sightingsIn (surround around role label) children
  | .text content => [⟨around, .text content⟩]

/-- The elements of some trees other than groups, in document order. -/
def sightingsIn (around : List (Role × Label)) : List Element → List Sighting
  | [] => []
  | e :: es => sightings around e ++ sightingsIn around es

end

theorem sightingsIn_append (around : List (Role × Label)) (es fs : List Element) :
    sightingsIn around (es ++ fs) = sightingsIn around es ++ sightingsIn around fs := by
  induction es with
  | nil => rfl
  | cons e es ih => rw [List.cons_append, sightingsIn, sightingsIn, ih, List.append_assoc]

/-- Of a group with nothing but children, the children are seen. -/
theorem sightings_of_isPlainGroup {role : Role} {label : Label}
    (h : isPlainGroup role label = true) (around : List (Role × Label)) (children : List Element) :
    sightings around (.container role label children) = sightingsIn around children := by
  cases role with
  | group m => simp [sightings, frame, surround, h]
  | clipGroup => cases h
  | extra name => cases h

/-- What is seen of a container does not depend on children that are drawn one after another. -/
theorem frame_of_isSequence {role : Role} (h : isSequence role = true) (label : Label)
    (children children' : List Element) :
    frame role label children = frame role label children' := by
  cases role with
  | group m => rfl
  | clipGroup => rfl
  | extra name => simp [frame, h]

/-! ## Elements in sequence -/

mutual

/-- The elements of a tree outside of alternatives, parents first. -/
def inSequence : Element → List Element
  | .container role label children =>
    .container role label children :: if isSequence role then inSequenceIn children else []
  | e => [e]

/-- The elements of some trees outside of alternatives, parents first. -/
def inSequenceIn : List Element → List Element
  | [] => []
  | e :: es => inSequence e ++ inSequenceIn es

end

/-- The elements inside an element that are outside of alternatives, parents first. -/
def inside : Element → List Element
  | .container role _ children => if isSequence role then inSequenceIn children else []
  | _ => []

theorem inSequence_eq (e : Element) : inSequence e = e :: inside e := by
  cases e with
  | container role label children => rw [inSequence, inside]
  | shape use label commands => rfl
  | text content => rfl

theorem mem_inSequenceIn {es : List Element} {x : Element} :
    x ∈ inSequenceIn es ↔ ∃ e ∈ es, x = e ∨ x ∈ inside e := by
  induction es with
  | nil => exact iff_of_false List.not_mem_nil (by simp)
  | cons e es ih =>
    rw [inSequenceIn, List.mem_append, ih, inSequence_eq, List.mem_cons]
    simp

theorem mem_inSequenceIn_of_mem {es : List Element} {e : Element} (h : e ∈ es) :
    e ∈ inSequenceIn es := mem_inSequenceIn.2 ⟨e, h, .inl rfl⟩

/-! ## Passes over lists of siblings -/

section

variable {edit : Scope → List Element → Logged (List Element)}

/-- The lists of siblings inside a container are changed from the inside to the outside. -/
theorem value_mapSiblings_container (scope : Scope) (role : Role) (label : Label)
    (children : List Element) :
    (mapSiblings isSequence edit scope (.container role label children)).value
      = if isSequence role then
          .container role label (edit (scope.enter label.foreign)
            (mapSiblingsIn isSequence edit (scope.enter label.foreign) children).value).value
        else .container role label children := by
  rw [mapSiblings]
  split <;> rfl

theorem value_mapSiblingsIn_cons (scope : Scope) (e : Element) (es : List Element) :
    (mapSiblingsIn isSequence edit scope (e :: es)).value
      = (mapSiblings isSequence edit scope e).value
        :: (mapSiblingsIn isSequence edit scope es).value := rfl

theorem value_mapSiblingsIn_eq_nil {scope : Scope} {es : List Element} :
    (mapSiblingsIn isSequence edit scope es).value = [] ↔ es = [] := by
  cases es with
  | nil => exact iff_of_true rfl rfl
  | cons e es =>
    rw [value_mapSiblingsIn_cons]
    exact iff_of_false (List.cons_ne_nil _ _) (List.cons_ne_nil e es)

mutual

theorem sightings_mapSiblings
    (hedit : ∀ around scope es, sightingsIn around (edit scope es).value = sightingsIn around es)
    (around : List (Role × Label)) (scope : Scope) :
    ∀ e, sightings around (mapSiblings isSequence edit scope e).value = sightings around e
  | .shape .. => rfl
  | .text _ => rfl
  | .container role label children => by
    rw [value_mapSiblings_container]
    split
    · next hopen =>
      rw [sightings, sightings, hedit, sightingsIn_mapSiblingsIn hedit,
        frame_of_isSequence hopen label _ children]
    · rfl

/-- A pass keeps the sightings of siblings if it keeps those of every list by itself. -/
theorem sightingsIn_mapSiblingsIn
    (hedit : ∀ around scope es, sightingsIn around (edit scope es).value = sightingsIn around es)
    (around : List (Role × Label)) (scope : Scope) :
    ∀ es, sightingsIn around (mapSiblingsIn isSequence edit scope es).value
      = sightingsIn around es
  | [] => rfl
  | e :: es => by
    rw [value_mapSiblingsIn_cons, sightingsIn, sightings_mapSiblings hedit around scope e,
      sightingsIn_mapSiblingsIn hedit around scope es, sightingsIn]

end

/-- Changing a list of siblings makes `P` true of all elements in it, if `P` is true inside them
already and `H` is true of each of them. -/
def Establishes (H P : Element → Prop) (edit : Scope → List Element → Logged (List Element)) :
    Prop :=
  ∀ scope es, (∀ e ∈ es, H e ∧ ∀ x ∈ inside e, P x) →
    ∀ x ∈ inSequenceIn (edit scope es).value, P x

section

variable {H P : Element → Prop}

mutual

theorem forall_inside_mapSiblings (hedit : Establishes H P edit)
    (hkeep : ∀ scope e, H e → H (mapSiblings isSequence edit scope e).value) (scope : Scope) :
    ∀ e, (∀ x ∈ inside e, H x) → ∀ x ∈ inside (mapSiblings isSequence edit scope e).value, P x
  | .shape .., _ => nofun
  | .text _, _ => nofun
  | .container role label children, h => by
    rw [value_mapSiblings_container]
    cases hopen : isSequence role with
    | false =>
      simp only [Bool.false_eq_true, if_false, inside, hopen]
      nofun
    | true =>
      simp only [if_true, inside, hopen] at h ⊢
      exact hedit _ _ (forall_inside_mapSiblingsIn hedit hkeep _ children h)

/-- What a pass establishes for one list after another is true everywhere inside the siblings. Each
of them keeps a property that it has from the beginning. -/
theorem forall_inside_mapSiblingsIn (hedit : Establishes H P edit)
    (hkeep : ∀ scope e, H e → H (mapSiblings isSequence edit scope e).value) (scope : Scope) :
    ∀ es, (∀ x ∈ inSequenceIn es, H x) →
      ∀ e ∈ (mapSiblingsIn isSequence edit scope es).value, H e ∧ ∀ x ∈ inside e, P x
  | [], _ => nofun
  | e :: es, h => by
    rw [inSequenceIn, List.forall_mem_append, inSequence_eq, List.forall_mem_cons] at h
    obtain ⟨⟨he, hinside⟩, hes⟩ := h
    rw [value_mapSiblingsIn_cons]
    exact List.forall_mem_cons.2
      ⟨⟨hkeep scope e he, forall_inside_mapSiblings hedit hkeep scope e hinside⟩,
        forall_inside_mapSiblingsIn hedit hkeep scope es hes⟩

end

mutual

theorem mapSiblings_eq_self (hedit : ∀ scope es, (∀ e ∈ es, P e) → (edit scope es).value = es)
    (scope : Scope) :
    ∀ e, (∀ x ∈ inside e, P x) → (mapSiblings isSequence edit scope e).value = e
  | .shape .., _ => rfl
  | .text _, _ => rfl
  | .container role label children, h => by
    rw [value_mapSiblings_container]
    split
    · next hopen =>
      simp only [inside, hopen, if_true] at h
      rw [mapSiblingsIn_eq_self hedit _ children h,
        hedit _ children fun e he => h e (mem_inSequenceIn_of_mem he)]
    · rfl

/-- A pass changes nothing where every element is such that it has nothing to do. -/
theorem mapSiblingsIn_eq_self (hedit : ∀ scope es, (∀ e ∈ es, P e) → (edit scope es).value = es)
    (scope : Scope) :
    ∀ es, (∀ x ∈ inSequenceIn es, P x) → (mapSiblingsIn isSequence edit scope es).value = es
  | [], _ => rfl
  | e :: es, h => by
    rw [inSequenceIn, List.forall_mem_append, inSequence_eq, List.forall_mem_cons] at h
    obtain ⟨⟨-, hinside⟩, hes⟩ := h
    rw [value_mapSiblingsIn_cons, mapSiblings_eq_self hedit scope e hinside,
      mapSiblingsIn_eq_self hedit scope es hes]

end

end

end

end VectorGraphics.Optimizer
