import VectorGraphics.Graphic.Element
import VectorGraphics.Proofs.Graphic.Labels
import VectorGraphics.Graphic.Scope

/-!
# The values of a property

An element sets a property by an attribute and by the declarations of its style, and the last of
these values counts (`Scope.resolve_eq`). What is inside the element inherits the last of them that
is handed on (`Scope.get?_enter`). Both are the end of one list, `setValues`, with the value around
the element in its place where the list is empty.

`Element.places` lists the elements of a tree together with the scopes around them.
-/

namespace VectorGraphics

/-! ## Values in a list of entries -/

/-- The values of a key among some entries, in their order. -/
def valuesOf (key : String) (entries : List (String × String)) : List String :=
  (entries.filter fun entry => entry.1 = key).map Prod.snd

section

variable {key : String}

theorem valuesOf_cons (entry : String × String) (entries : List (String × String)) :
    valuesOf key (entry :: entries)
      = if entry.1 = key then entry.2 :: valuesOf key entries else valuesOf key entries := by
  rw [valuesOf, List.filter_cons]
  simp only [decide_eq_true_eq]
  split <;> rfl

theorem valuesOf_append (entries more : List (String × String)) :
    valuesOf key (entries ++ more) = valuesOf key entries ++ valuesOf key more := by
  rw [valuesOf, List.filter_append, List.map_append, valuesOf, valuesOf]

/-- Filtering the entries filters the values of a key. -/
theorem valuesOf_filter (p : String → String → Bool) (entries : List (String × String)) :
    valuesOf key (entries.filter fun entry => p entry.1 entry.2)
      = (valuesOf key entries).filter (p key) := by
  rw [valuesOf, valuesOf, List.filter_map, List.filter_filter, List.filter_filter]
  congr 1
  refine List.filter_congr fun entry _ => ?_
  by_cases hkey : entry.1 = key
  · simp [hkey]
  · simp [hkey]

/-- Where keys are not repeated, a key has at most one value. -/
theorem valuesOf_of_nodup {entries : List (String × String)}
    (h : (entries.map Prod.fst).Nodup) : valuesOf key entries = (entries.lookup key).toList := by
  induction entries with
  | nil => rfl
  | cons entry entries ih =>
    obtain ⟨k, v⟩ := entry
    obtain ⟨hk, h⟩ := List.nodup_cons.1 h
    rw [valuesOf_cons, List.lookup_cons, ih h]
    by_cases hkey : k = key
    · subst hkey
      rw [lookup_eq_none_of_notMem hk, if_pos rfl, beq_self_eq_true]
      rfl
    · rw [if_neg hkey, beq_false_of_ne (Ne.symm hkey)]

end

/-! ## Values of an element -/

/-- The declarations of the style among the attributes of an element. -/
def declared (foreign : Attributes) : List (String × String) :=
  ((foreign.get? "style").map declarations).getD []

theorem declared_of_get?_eq_none {foreign : Attributes} (h : foreign.get? "style" = none) :
    declared foreign = [] := by
  rw [declared, h]
  rfl

theorem declared_of_get?_eq_some {foreign : Attributes} {style : String}
    (h : foreign.get? "style" = some style) : declared foreign = declarations style := by
  rw [declared, h]
  rfl

/-- The values that an element sets a property to, the last of which counts: its attribute, then
the declarations of its style. -/
def setValues (foreign : Attributes) (key : String) : List String :=
  valuesOf key (Scope.specified foreign)

theorem setValues_eq (foreign : Attributes) (key : String) :
    setValues foreign key = (foreign.get? key).toList ++ valuesOf key (declared foreign) := by
  rw [setValues, Scope.specified, valuesOf_append, valuesOf_of_nodup foreign.nodup_keys]
  rfl

/-- Whether what is inside an element inherits a value that the element sets. -/
def isHandedOn (key value : String) : Bool := inheritedProperties.contains key && value != "inherit"

/-- The values of a property that an element hands on to what is inside it. -/
def handedOn (foreign : Attributes) (key : String) : List String :=
  (setValues foreign key).filter (isHandedOn key)

namespace Scope

variable (scope : Scope) (foreign : Attributes) (key : String)

theorem resolve_eq :
    scope.resolve foreign key = (setValues foreign key).getLast?.or (scope.get? key) := by
  have hstyled : styled? foreign key = (valuesOf key (declared foreign)).getLast? := by
    rw [styled?, declared, valuesOf, List.getLast?_map]
    cases foreign.get? "style" <;> rfl
  have hattribute : (foreign.get? key).toList.getLast? = foreign.get? key := by
    cases foreign.get? key <;> rfl
  rw [resolve, hstyled, setValues_eq, List.getLast?_append, hattribute, Option.or_assoc]

theorem get?_record (inherited : Attributes) (entry : String × String) :
    (record inherited entry).get? key
      = if entry.1 = key ∧ isHandedOn key entry.2 then some entry.2 else inherited.get? key := by
  have hrecord : record inherited entry
      = if isHandedOn entry.1 entry.2 then inherited.insert entry.1 entry.2 else inherited := rfl
  rw [hrecord]
  by_cases hkey : entry.1 = key
  · subst hkey
    simp only [true_and]
    split
    · exact Attributes.get?_insert_self inherited _ _
    · rfl
  · simp only [hkey, false_and, if_false]
    split
    · exact Attributes.get?_insert_of_ne inherited entry.2 (Ne.symm hkey)
    · rfl

/-- The last value of a property that is handed on is the one inside an element. -/
theorem get?_enter :
    (scope.enter foreign).get? key = (handedOn foreign key).getLast?.or (scope.get? key) := by
  rw [handedOn, setValues, enter, get?, get?]
  generalize specified foreign = entries
  generalize scope.inherited = inherited
  dsimp only
  induction entries generalizing inherited with
  | nil => rfl
  | cons entry entries ih =>
    rw [List.foldl_cons, ih, get?_record, valuesOf_cons]
    by_cases hkey : entry.1 = key
    · by_cases hhanded : isHandedOn key entry.2 = true
      · rw [if_pos ⟨hkey, hhanded⟩, if_pos hkey, List.filter_cons_of_pos hhanded,
          List.getLast?_cons]
        cases ((valuesOf key entries).filter (isHandedOn key)).getLast? <;> rfl
      · rw [if_neg fun h => hhanded h.2, if_pos hkey, List.filter_cons_of_neg hhanded]
    · rw [if_neg fun h => hkey h.1, if_neg hkey]

end Scope

/-! ## Places -/

namespace Element

mutual

/-- The elements of a tree, parents first: the scope around each one and its attributes. -/
def places (scope : Scope) : Element → List (Scope × Attributes)
  | .shape _ label _ => [(scope, label.foreign)]
  | .container _ label children =>
    (scope, label.foreign) :: placesIn (scope.enter label.foreign) children
  | .text _ => []

/-- The elements of some trees, parents first. -/
def placesIn (scope : Scope) : List Element → List (Scope × Attributes)
  | [] => []
  | e :: es => places scope e ++ placesIn scope es

end

end Element

/-- The root of a graphic and all its elements, parents first: the scope around each one and its
attributes. -/
def Graphic.places (g : Graphic) : List (Scope × Attributes) :=
  ({}, g.label.foreign) :: Element.placesIn (Scope.enter {} g.label.foreign) g.children

end VectorGraphics
