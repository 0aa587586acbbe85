import VectorGraphics.Svg.Reader
import VectorGraphics.Svg.Writer
import VectorGraphics.VectorDrawable.Writer

/-!
# Documents

`read` reads a graphic from a document of either format, which its root element tells, and `write`
writes a graphic in its own format. Each step from a document to a graphic and back has one function
for both formats, `Format.readNode`, `Format.nodeOf` and so on, so that what is true of both is said
once.
-/

namespace VectorGraphics

namespace Format

/-! ## Both formats at once -/

/-- The attribute that holds the identifier of an element. -/
def idKey : Format → String
  | .svg => "id"
  | .vectorDrawable => VectorDrawable.nameKey

/-- The name that the root element of a document is written under. -/
def rootName : Format → String
  | .svg => "svg"
  | .vectorDrawable => "vector"

/-- The element of a graphic that a node stands for. -/
def readNode : Format → Markup.Node → Reading Element
  | .svg => Svg.readNode
  | .vectorDrawable => VectorDrawable.readNode

/-- The elements that some nodes stand for. -/
def readNodes : Format → List Markup.Node → Reading (List Element)
  | .svg => Svg.readNodes
  | .vectorDrawable => VectorDrawable.readNodes

/-- The graphic with the given root element. -/
def graphicOf : Format → Markup.Element → Reading Graphic
  | .svg => Svg.graphicOf
  | .vectorDrawable => VectorDrawable.graphicOf

/-- The node of an element. -/
def nodeOf : Format → UInt8 → Element → Markup.Node
  | .svg => Svg.nodeOf
  | .vectorDrawable => VectorDrawable.nodeOf

/-- The nodes of some elements. -/
def nodesOf : Format → UInt8 → List Element → List Markup.Node
  | .svg => Svg.nodesOf
  | .vectorDrawable => VectorDrawable.nodesOf

/-- The root element of a graphic. -/
def elementOf : Format → Graphic → UInt8 → Markup.Element
  | .svg => Svg.elementOf
  | .vectorDrawable => VectorDrawable.elementOf

variable (format : Format)

@[simp] theorem readNode_text (content : String) :
    format.readNode (.text content) = pure (.text content) := by
  cases format <;> rfl

@[simp] theorem readNodes_nil : format.readNodes [] = pure [] := by
  cases format <;> rfl

theorem readNodes_cons (node : Markup.Node) (nodes : List Markup.Node) :
    format.readNodes (node :: nodes)
      = do return (← format.readNode node) :: (← format.readNodes nodes) := by
  cases format <;> rfl

@[simp] theorem nodeOf_text (places : UInt8) (content : String) :
    format.nodeOf places (.text content) = .text content := by
  cases format <;> rfl

theorem nodesOf_eq_map (places : UInt8) (es : List Element) :
    format.nodesOf places es = es.map (format.nodeOf places) := by
  cases format with
  | svg => exact Svg.nodesOf_eq_map places es
  | vectorDrawable => exact VectorDrawable.nodesOf_eq_map places es

@[simp] theorem nodesOf_nil (places : UInt8) : format.nodesOf places [] = [] := by
  cases format <;> rfl

@[simp] theorem nodesOf_cons (places : UInt8) (e : Element) (es : List Element) :
    format.nodesOf places (e :: es) = format.nodeOf places e :: format.nodesOf places es := by
  cases format <;> rfl

end Format

/-! ## Reading and writing -/

/-- Reads a document of a given format. -/
def readAs (format : Format) (s : String) : Reading Graphic := do
  format.graphicOf (← Reading.document s)

/-- Reads a document. It is a vector drawable if its root is called `vector`, and SVG otherwise. -/
def read (s : String) : Reading Graphic := do
  let root ← Reading.document s
  if root.name = "vector" then VectorDrawable.graphicOf root else Svg.graphicOf root

/-- Writes a graphic in a given format, whatever its own is. -/
def writeAs (format : Format) (g : Graphic) (places : UInt8) : String :=
  (format.elementOf g places).text

/-- Writes a graphic in its own format. -/
def write (g : Graphic) (places : UInt8) : String := writeAs g.format g places

end VectorGraphics
