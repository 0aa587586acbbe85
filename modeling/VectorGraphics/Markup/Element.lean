/-!
# Element trees

An `Element` has a name, attributes in document order and child nodes, each of which is an element
or a run of character data.
-/

namespace VectorGraphics.Markup

/-- A child of an element. -/
inductive Node
  /-- An element with its name, its attributes in document order and its children. -/
  | element (name : String) (attributes : List (String × String)) (children : List Node)
  /-- Character data. -/
  | text (content : String)
  deriving Repr, BEq

/-- An element by itself, such as the root of a document. -/
structure Element where
  name : String
  attributes : List (String × String) := []
  children : List Node := []
  deriving Repr, BEq

namespace Element

/-- The element as a child. -/
def toNode (e : Element) : Node := .element e.name e.attributes e.children

/-- The value of an attribute. -/
def get? (e : Element) (key : String) : Option String := e.attributes.lookup key

/-- A list of attributes with one of them set: its value is replaced where it stands, or it is
added at the end. -/
def setIn (key value : String) : List (String × String) → List (String × String)
  | [] => [(key, value)]
  | (k, v) :: rest => if k = key then (k, value) :: rest else (k, v) :: setIn key value rest

theorem lookup_setIn_self (key value : String) (l : List (String × String)) :
    (setIn key value l).lookup key = some value := by
  induction l with
  | nil => simp [setIn]
  | cons hd tl ih =>
    obtain ⟨k, v⟩ := hd
    rw [setIn]
    split
    · next h => simp [h]
    · next h => rw [List.lookup_cons, beq_false_of_ne (Ne.symm h), ih]

theorem lookup_setIn_of_ne {key key' : String} (h : key' ≠ key) (value : String)
    (l : List (String × String)) : (setIn key value l).lookup key' = l.lookup key' := by
  induction l with
  | nil => simp [setIn, List.lookup_cons, beq_false_of_ne h]
  | cons hd tl ih =>
    obtain ⟨k, v⟩ := hd
    rw [setIn]
    split
    · next hk =>
      subst hk
      simp [List.lookup_cons, beq_false_of_ne h]
    · rw [List.lookup_cons, List.lookup_cons, ih]

/-- The element with an attribute set. -/
def set (e : Element) (key value : String) : Element :=
  { e with attributes := setIn key value e.attributes }

@[simp] theorem get?_set_self (e : Element) (key value : String) :
    (e.set key value).get? key = some value := lookup_setIn_self key value e.attributes

theorem get?_set_of_ne (e : Element) {key key' : String} (h : key' ≠ key) (value : String) :
    (e.set key value).get? key' = e.get? key' := lookup_setIn_of_ne h value e.attributes

/-- The element with attributes set one after another. -/
def setAll (e : Element) (entries : List (String × String)) : Element :=
  entries.foldl (fun e (key, value) => e.set key value) e

/-- The element with one more child at the end. -/
def append (e : Element) (child : Node) : Element := { e with children := e.children ++ [child] }

/-- Whether a child is an element. -/
def isElement : Node → Bool
  | .element .. => true
  | .text _ => false

/-- How many of the children are elements. -/
def elementCount (e : Element) : Nat := e.children.countP isElement

end Element

end VectorGraphics.Markup
