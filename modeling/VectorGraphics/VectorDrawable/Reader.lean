import VectorGraphics.Graphic.Reading
import VectorGraphics.Text.Search

/-!
# Reading vector drawables

`graphicOf` builds a graphic from the root element of a vector drawable. The transform attributes
of a group are folded into a matrix: it scales and rotates about the pivot, then translates. If
one of them is no number, such as a reference to a resource, all of them stay attributes. A path
with child elements, or with path data that refers to a resource, is kept as it is.
-/

namespace VectorGraphics.VectorDrawable

/-- The attribute that holds an identifier. -/
def nameKey : String := "android:name"

/-- The label of an element. -/
def labelOf (attributes : List (String × String)) : Label := .ofAttributes nameKey attributes

/-! ## Transforms -/

/-- What the transform of a group is made of. -/
structure GroupTransform where
  rotation : Single
  pivot : Point
  scaleX : Single
  scaleY : Single
  shift : Point

/-- The matrix of a group transform. -/
def GroupTransform.matrix (t : GroupTransform) : Matrix :=
  .shift (t.shift.x + t.pivot.x) (t.shift.y + t.pivot.y) * .rotation t.rotation
    * .scaling t.scaleX t.scaleY * .shift (-t.pivot.x) (-t.pivot.y)

/-- The number that an attribute holds, `default` if it is missing; the text of the attribute if
it is no number. -/
def numberOr (foreign : Attributes) (key : String) (default : Single) :
    Except (String × String) Single :=
  match foreign.get? key with
  | none => .ok default
  | some raw =>
    match Single.ofLiteral? (Text.trimList raw.toList) with
    | some x => .ok x
    | none => .error (key, raw)

/-- The transform that the attributes of a group describe, or the first of them that is no
number. -/
def groupTransform (foreign : Attributes) : Except (String × String) GroupTransform := do
  let rotation ← numberOr foreign "android:rotation" 0
  let pivotX ← numberOr foreign "android:pivotX" 0
  let pivotY ← numberOr foreign "android:pivotY" 0
  let scaleX ← numberOr foreign "android:scaleX" 1
  let scaleY ← numberOr foreign "android:scaleY" 1
  let shiftX ← numberOr foreign "android:translateX" 0
  let shiftY ← numberOr foreign "android:translateY" 0
  return ⟨rotation, ⟨pivotX, pivotY⟩, scaleX, scaleY, ⟨shiftX, shiftY⟩⟩

/-- The transform of a group, and its label without it. -/
def takeTransform (label : Label) : Reading (Matrix × Label) :=
  match groupTransform label.foreign with
  | .ok t =>
    pure (t.matrix,
      { label with foreign := label.foreign.eraseAll Format.vectorDrawable.transformKeys })
  | .error (key, raw) => do
    Reading.note (.keptTransformKey key raw)
    pure (.identity, label)

/-! ## Elements -/

/-- Whether the path data refers to a resource, `@…` or `?…`. -/
def refersToResource (foreign : Attributes) : Bool :=
  match foreign.get? Format.vectorDrawable.pathDataKey with
  | none => false
  | some d =>
    match d.toList.dropWhile Text.isBlank with
    | c :: _ => c = '@' || c = '?'
    | [] => false

/-- What a path element is for. -/
def useOf? (name : String) : Option Use :=
  if name = "path" then some .painted
  else if name = "clip-path" then some .clipping
  else none

mutual

/-- The element of a graphic that a node stands for. -/
def readNode : Markup.Node → Reading Element
  | .text content => pure (.text content)
  | .element name attributes children => do
    let label := labelOf attributes
    if name = "group" then
      let (transform, label) ← takeTransform label
      return .group transform label (← readNodes children)
    else
      match useOf? name with
      | some use =>
        if children.any Markup.Element.isElement || refersToResource label.foreign then
          return .container (.extra name) label (← readNodes children)
        else
          let commands ← Reading.commands (label.foreign.get? Format.vectorDrawable.pathDataKey)
          return .shape use
            { label with foreign := label.foreign.erase Format.vectorDrawable.pathDataKey } commands
      | none => return .container (.extra name) label (← readNodes children)

/-- The elements that some nodes stand for. -/
def readNodes : List Markup.Node → Reading (List Element)
  | [] => pure []
  | node :: nodes => do
    let e ← readNode node
    return e :: (← readNodes nodes)

end

/-- The graphic with the given root element. -/
def graphicOf (root : Markup.Element) : Reading Graphic := do
  if root.name = "vector" then
    return ⟨.vectorDrawable, labelOf root.attributes, ← readNodes root.children⟩
  else throw (.unsupported "vector" root.name)

end VectorGraphics.VectorDrawable
