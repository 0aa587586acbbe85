import VectorGraphics.Graphic.Element
import VectorGraphics.Markup.Writer
import VectorGraphics.Path.Printer
import VectorGraphics.Svg.Transform

/-!
# Writing SVG

`elementOf` is the root element of a graphic. Its namespaces come first, then its identifier, then
the other attributes; everywhere else the identifier comes first, and on a path the path data
second. A transform is left out where it is the identity.
-/

namespace VectorGraphics.Svg

/-- An element with a label, whose identifier comes first. -/
def labelled (name : String) (label : Label) : Markup.Element :=
  ({ name } : Markup.Element).setAll (label.idEntry "id" ++ label.foreign.toList)

/-- The tag of a container. -/
def containerTag (places : UInt8) (role : Role) (label : Label) : Markup.Element :=
  match role with
  | .group transform =>
    let e := labelled "g" label
    if transform.isIdentity then e else e.set "transform" (transformText transform places)
  | .clipGroup => labelled "clipPath" label
  | .extra name => labelled name label

/-- The tag of a path. -/
def pathTag (places : UInt8) (label : Label) (commands : List Path.Command) : Markup.Element :=
  let data :=
    if commands.isEmpty then [] else [(Format.svg.pathDataKey, Path.print commands places)]
  ({ name := "path" } : Markup.Element).setAll
    (label.idEntry "id" ++ data ++ label.foreign.toList)

mutual

/-- The node of an element. -/
def nodeOf (places : UInt8) : Element → Markup.Node
  | .text content => .text content
  | .shape _ label commands => (pathTag places label commands).toNode
  | .container role label children =>
    { containerTag places role label with children := nodesOf places children }.toNode

/-- The nodes of some elements. -/
def nodesOf (places : UInt8) : List Element → List Markup.Node
  | [] => []
  | e :: es => nodeOf places e :: nodesOf places es

end

theorem nodesOf_eq_map (places : UInt8) (es : List Element) :
    nodesOf places es = es.map (nodeOf places) := by
  induction es with
  | nil => rfl
  | cons e es ih => rw [nodesOf, ih, List.map_cons]

/-- Whether an attribute declares a namespace. -/
def isNamespace (key : String) : Bool := key = "xmlns" || Text.startsWith "xmlns:" key

/-- The root element of a graphic. -/
def elementOf (g : Graphic) (places : UInt8) : Markup.Element :=
  let (namespaces, others) := g.label.foreign.toList.partition fun entry => isNamespace entry.1
  let root := ({ name := "svg" } : Markup.Element).setAll
    (namespaces ++ g.label.idEntry "id" ++ others)
  { root with children := nodesOf places g.children }

end VectorGraphics.Svg
