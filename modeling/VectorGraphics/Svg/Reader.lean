import VectorGraphics.Graphic.Reading
import VectorGraphics.Svg.Transform

/-!
# Reading SVG

`graphicOf` builds a graphic from the root element of an SVG document. A `g` becomes a group, a
`path` without child elements a painted path, a `clipPath` a clip group, and every other element
is kept as it is. A transform that is no list of literal calls stays an attribute.
-/

namespace VectorGraphics.Svg

/-- The name of an element without its namespace. -/
def localName (name : String) : String := .ofList (Text.afterLast ':' name.toList)

/-- The label of an element. -/
def labelOf (attributes : List (String × String)) : Label := .ofAttributes "id" attributes

/-- The transform of a group, and its label without it. -/
def takeTransform (label : Label) : Reading (Matrix × Label) :=
  match label.foreign.get? "transform" with
  | none => pure (.identity, label)
  | some value =>
    match parseTransform? value with
    | some m => pure (m, { label with foreign := label.foreign.erase "transform" })
    | none => do
      Reading.note (.keptTransform value)
      pure (.identity, label)

mutual

/-- The element of a graphic that a node stands for. -/
def readNode : Markup.Node → Reading Element
  | .text content => pure (.text content)
  | .element name attributes children => do
    let label := labelOf attributes
    if localName name = "g" then
      let (transform, label) ← takeTransform label
      return .group transform label (← readNodes children)
    else if localName name = "path" ∧ !children.any Markup.Element.isElement then
      let commands ← Reading.commands (label.foreign.get? Format.svg.pathDataKey)
      return .shape .painted
        { label with foreign := label.foreign.erase Format.svg.pathDataKey } commands
    else if localName name = "clipPath" then
      return .container .clipGroup label (← readNodes children)
    else
      return .container (.extra name) label (← readNodes children)

/-- The elements that some nodes stand for. -/
def readNodes : List Markup.Node → Reading (List Element)
  | [] => pure []
  | node :: nodes => do
    let e ← readNode node
    return e :: (← readNodes nodes)

end

/-- The graphic with the given root element. -/
def graphicOf (root : Markup.Element) : Reading Graphic := do
  if localName root.name = "svg" then
    return ⟨.svg, labelOf root.attributes, ← readNodes root.children⟩
  else throw (.unsupported "svg" root.name)

end VectorGraphics.Svg
