import VectorGraphics.Graphic.Attributes
import VectorGraphics.Path.Command

/-!
# Graphics

A `Graphic` is the root of a tree of elements. Every element carries a `Label`, its identifier and
the attributes that are passed on as they are; containers have children and shapes have a path.
The order of children is the order in which they are painted.
-/

namespace VectorGraphics

/-- The two formats a graphic is read from and written to. -/
inductive Format
  /-- Scalable Vector Graphics. -/
  | svg
  /-- The vector drawables of Android. -/
  | vectorDrawable
  deriving DecidableEq, Repr

namespace Format

/-- The attributes that make up the transform of a group. -/
def transformKeys : Format → List String
  | .svg => ["transform"]
  | .vectorDrawable =>
    ["android:rotation", "android:pivotX", "android:pivotY", "android:scaleX", "android:scaleY",
      "android:translateX", "android:translateY"]

/-- The attribute that holds path data. -/
def pathDataKey : Format → String
  | .svg => "d"
  | .vectorDrawable => "android:pathData"

/-- The attribute that holds the width of a stroke. -/
def strokeWidthKey : Format → String
  | .svg => "stroke-width"
  | .vectorDrawable => "android:strokeWidth"

/-- The name of the format. -/
def name : Format → String
  | .svg => "SVG"
  | .vectorDrawable => "VectorDrawable"

end Format

/-- What an element is known by. -/
structure Label where
  /-- The identifier. -/
  id : Option String := none
  /-- The attributes that are passed on as they are. -/
  foreign : Attributes := ∅
  deriving DecidableEq, Inhabited

/-- The attribute that holds the identifier under the name `key`, if there is an identifier. -/
def Label.idEntry (l : Label) (key : String) : List (String × String) :=
  (l.id.map fun id => (key, id)).toList

/-- What a container is. -/
inductive Role
  /-- A group, drawn through its transform. -/
  | group (transform : Matrix)
  /-- The shapes of a clip path. -/
  | clipGroup
  /-- Any other element, kept under its name. -/
  | extra (name : String)

/-- What a path is for. -/
inductive Use
  /-- The path is painted. -/
  | painted
  /-- The path clips what follows it in its group. -/
  | clipping
  deriving DecidableEq, Repr

/-- A node of a graphic. -/
inductive Element
  | container (role : Role) (label : Label) (children : List Element)
  | shape (use : Use) (label : Label) (commands : List Path.Command)
  /-- Character data. -/
  | text (content : String)

instance : Inhabited Element := ⟨.text ""⟩

/-- The root of a graphic. -/
structure Graphic where
  format : Format
  label : Label
  children : List Element

namespace Element

/-- A group. -/
abbrev group (transform : Matrix) (label : Label) (children : List Element) : Element :=
  .container (.group transform) label children

/-- A group with a transform and nothing else. -/
def wrap (transform : Matrix) (children : List Element) : Element := .group transform {} children

/-- The label of an element. -/
def label? : Element → Option Label
  | .container _ l _ => some l
  | .shape _ l _ => some l
  | .text _ => none

/-- The identifier of an element. -/
def id? (e : Element) : Option String := e.label?.bind Label.id

/-- The children of a container. -/
def children? : Element → Option (List Element)
  | .container _ _ es => some es
  | _ => none

/-- Whether the element is a path, painted or clipping. -/
def isShape : Element → Bool
  | .shape .. => true
  | _ => false

/-- Whether a group has anything besides its children; `none` for everything else. -/
def hasAttributes? : Element → Option Bool
  | .container (.group m) l _ => some (l.id.isSome || !l.foreign.isEmpty || !m.isIdentity)
  | _ => none

/-- The element and all elements inside it, parents first. -/
def descendants : Element → List Element
  | .container r l es => .container r l es :: descendantsOfAll es
  | e => [e]
where
  /-- The elements of a list and all elements inside them, parents first. -/
  descendantsOfAll : List Element → List Element
    | [] => []
    | e :: es => e.descendants ++ descendantsOfAll es

theorem descendantsOfAll_eq_flatMap (es : List Element) :
    descendants.descendantsOfAll es = es.flatMap descendants := by
  induction es with
  | nil => rfl
  | cons e es ih => rw [descendants.descendantsOfAll, ih, List.flatMap_cons]

end Element

/-- All elements of a graphic, parents first. -/
def Graphic.elements (g : Graphic) : List Element := Element.descendants.descendantsOfAll g.children

end VectorGraphics
