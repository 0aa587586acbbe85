import VectorGraphics.Graphic.Attributes
import VectorGraphics.Text.Search

/-!
# Presentation properties

A property of an element is set by its `style`, by an attribute, or by inheritance from the
elements around it.

* `declarations` splits a `style` into properties and values, `joinDeclarations` puts them
  together again.
* A `Scope` holds the inherited values at a place in the tree; `Scope.enter` goes one element
  inwards, and `Scope.resolve` finds the value of a property.
-/

namespace VectorGraphics

/-! ## Declarations -/

/-- The property and value of one declaration, without the blanks around them. -/
def declaration? (cs : List Char) : Option (String × String) :=
  (Text.cutAt? ':' cs).bind fun (property, value) =>
    let property := Text.trimList property
    if property.isEmpty then none else some (.ofList property, .ofList (Text.trimList value))

/-- The properties and values of a `style`. -/
def declarations (style : String) : List (String × String) :=
  (Text.splitOn (· = ';') style.toList).filterMap declaration?

/-- The text of a list of declarations. -/
def joinDeclarations (ds : List (String × String)) : String :=
  ";".intercalate (ds.map fun (property, value) => property ++ ":" ++ value)

/-! ## Inheritance -/

/-- The properties that an element inherits. -/
def inheritedProperties : List String :=
  ["clip-rule", "color", "fill", "fill-opacity", "fill-rule", "stroke", "stroke-dasharray",
    "stroke-dashoffset", "stroke-linecap", "stroke-linejoin", "stroke-miterlimit",
    "stroke-opacity", "stroke-width", "visibility"]

/-- The inherited values at a place in the tree. -/
structure Scope where
  inherited : Attributes := ∅

namespace Scope

/-- What an element sets by itself: its attributes, then its style. -/
def specified (foreign : Attributes) : List (String × String) :=
  foreign.toList ++ ((foreign.get? "style").map declarations).getD []

/-- Records one property of an element for what is inside it. -/
def record (inherited : Attributes) (entry : String × String) : Attributes :=
  if inheritedProperties.contains entry.1 && entry.2 != "inherit" then
    inherited.insert entry.1 entry.2
  else inherited

/-- The scope inside an element with the given attributes. -/
def enter (scope : Scope) (foreign : Attributes) : Scope :=
  ⟨(specified foreign).foldl record scope.inherited⟩

/-- An element without attributes changes nothing for what is inside it. -/
@[simp] theorem enter_empty (scope : Scope) : scope.enter ∅ = scope := rfl

/-- The inherited value of a property. -/
def get? (scope : Scope) (key : String) : Option String := scope.inherited.get? key

/-- The last value that a style sets a property to. -/
def styled? (foreign : Attributes) (key : String) : Option String :=
  (foreign.get? "style").bind fun style =>
    (((declarations style).filter fun entry => entry.1 = key).getLast?).map Prod.snd

/-- The value of a property on an element with the given attributes: its last declaration in the
style, else its attribute, else the inherited value. -/
def resolve (scope : Scope) (foreign : Attributes) (key : String) : Option String :=
  (styled? foreign key).or ((foreign.get? key).or (scope.get? key))

end Scope

end VectorGraphics
