import VectorGraphics.Graphic.Element
import VectorGraphics.Markup.Writer
import VectorGraphics.Path.Printer
import VectorGraphics.VectorDrawable.Reader

/-!
# Writing vector drawables

`elementOf` is the root element of a graphic. The transform of a group is written as a rotation, a
scale and a shift, without those that change nothing. A transform with skew has no such
form: it is split, and the group is written as two, one inside the other.
-/

namespace VectorGraphics.VectorDrawable

/-- An attribute that is written only under a condition. -/
def entryIf (condition : Bool) (key value : String) : List (String × String) :=
  if condition then [(key, value)] else []

/-- The attributes of a transform without skew. -/
def transformEntries (places : UInt8) (m : Matrix) : List (String × String) :=
  match m.decompose with
  | none => []
  | some d =>
    let fine := finerPlaces places
    entryIf (decide (d.rotation.abs > 1e-5)) "android:rotation" (d.rotation.text fine)
      ++ entryIf (decide ((d.scaleX - 1).abs > 1e-5)) "android:scaleX" (d.scaleX.text fine)
      ++ entryIf (decide ((d.scaleY - 1).abs > 1e-5)) "android:scaleY" (d.scaleY.text fine)
      ++ entryIf (d.shift.x != 0) "android:translateX" (d.shift.x.text places)
      ++ entryIf (d.shift.y != 0) "android:translateY" (d.shift.y.text places)

/-- An element with a label, whose identifier comes first and other attributes after it. -/
def labelled (name : String) (label : Label) (entries : List (String × String)) :
    Markup.Element :=
  ({ name } : Markup.Element).setAll (label.idEntry nameKey ++ entries ++ label.foreign.toList)

/-- The element of a group with the given children. -/
def groupElement (places : UInt8) (m : Matrix) (label : Label) (children : List Markup.Node) :
    Markup.Element :=
  let around (entries : List (String × String)) (children : List Markup.Node) : Markup.Element :=
    { labelled "group" label entries with children }
  if m.isIdentity then around [] children
  else
    match m.decompose with
    | some _ => around (transformEntries places m) children
    | none =>
      let (outer, inner) := m.splitSkew
      let nested := ({ name := "group", children } : Markup.Element).setAll
        (transformEntries places inner)
      around (transformEntries places outer) [nested.toNode]

/-- The name of the element of a path. -/
def useName : Use → String
  | .painted => "path"
  | .clipping => "clip-path"

/-- The tag of a path. -/
def pathTag (places : UInt8) (use : Use) (label : Label) (commands : List Path.Command) :
    Markup.Element :=
  let data :=
    if commands.isEmpty then []
    else [(Format.vectorDrawable.pathDataKey, Path.print commands places)]
  labelled (useName use) label data

mutual

/-- The node of an element. A clip group has no form of its own and is written as a group. -/
def nodeOf (places : UInt8) : Element → Markup.Node
  | .text content => .text content
  | .shape use label commands => (pathTag places use label commands).toNode
  | .container (.group m) label children =>
    (groupElement places m label (nodesOf places children)).toNode
  | .container .clipGroup label children =>
    { labelled "group" label [] with children := nodesOf places children }.toNode
  | .container (.extra name) label children =>
    { labelled name label [] with children := nodesOf places children }.toNode

/-- The nodes of some elements. -/
def nodesOf (places : UInt8) : List Element → List Markup.Node
  | [] => []
  | e :: es => nodeOf places e :: nodesOf places es

end

theorem nodesOf_eq_map (places : UInt8) (es : List Element) :
    nodesOf places es = es.map (nodeOf places) := by
  induction es with
  | nil => rfl
  | cons e es ih => rw [nodesOf, ih, List.map_cons]

/-- Whether an attribute declares a namespace. -/
def isNamespace (key : String) : Bool := Text.startsWith "xmlns:" key

/-- The root element of a graphic. -/
def elementOf (g : Graphic) (places : UInt8) : Markup.Element :=
  let (namespaces, others) := g.label.foreign.toList.partition fun entry => isNamespace entry.1
  let root := ({ name := "vector" } : Markup.Element).setAll
    (namespaces ++ g.label.idEntry nameKey ++ others)
  { root with children := nodesOf places g.children }

end VectorGraphics.VectorDrawable
