import VectorGraphics.Markup.Element
import VectorGraphics.Markup.Reference

/-!
# Writing documents

An element without children is written as one tag. Nothing is written between the children of an
element, and values stand between double quotes.
-/

namespace VectorGraphics.Markup

/-- An attribute, with the space before it. -/
def writeAttribute (key value : String) : List Char :=
  ' ' :: key.toList ++ ['=', '"'] ++ encodeValue value ++ ['"']

/-- A tag up to its end. -/
def writeTag (name : String) (attributes : List (String × String)) : List Char :=
  '<' :: name.toList ++ attributes.flatMap fun (key, value) => writeAttribute key value

/-- A node and everything inside it. -/
def Node.chars : Node → List Char
  | .text content => encodeText content
  | .element name attributes [] => writeTag name attributes ++ ['/', '>']
  | .element name attributes (child :: children) =>
    writeTag name attributes ++ '>' :: (childChars (child :: children)
      ++ ['<', '/'] ++ name.toList ++ ['>'])
where
  /-- Nodes one after another. -/
  childChars : List Node → List Char
    | [] => []
    | node :: nodes => node.chars ++ childChars nodes

/-- The text of an element. -/
def Element.text (e : Element) : String := .ofList e.toNode.chars

end VectorGraphics.Markup
