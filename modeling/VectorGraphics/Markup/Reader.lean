import VectorGraphics.Markup.Element
import VectorGraphics.Markup.Token
import VectorGraphics.Text.Search

/-!
# Reading documents

`parse` reads the root element of a document. What stands before the root is passed over, and
what stands after it is not looked at. Character data that is blank throughout is dropped, except
where it is quoted verbatim.

The program's own part is the tree: what is passed over, what becomes a child, which blanks are
dropped, and the errors `noRoot` and `unclosedElement`. That end tags fit the open elements is seen
to by the XML reader below it, quick-xml, and the messages of all other errors are those of that
reader, behind a word of the program on where they come from.
-/

namespace VectorGraphics.Markup

/-- Why a text is no document. -/
inductive Error
  | malformed (reason : Malformation)
  | reference (error : ReferenceError)
  | attribute (error : AttributeError)
  /-- An end tag for another element than the innermost open one. -/
  | mismatched (expected found : String)
  /-- An end tag where no element is open. -/
  | unopened (found : String)
  /-- The end of the text inside an element. -/
  | unclosedElement
  /-- No element at all. -/
  | noRoot
  deriving DecidableEq, Repr

/-- The error in words. -/
def Error.message : Error → String
  | .malformed reason => s!"XML parsing error: {reason.message}"
  | .reference e => s!"XML parsing error: {e.message}"
  | .attribute e => s!"XML attribute error: {e.message}"
  | .mismatched expected found =>
    s!"XML parsing error: ill-formed document: expected `</{expected}>`, but `</{found}>` was found"
  | .unopened found =>
    s!"XML parsing error: ill-formed document: close tag `</{found}>` does not match any open tag"
  | .unclosedElement => "Invalid graphic: Unexpected end of file"
  | .noRoot => "Invalid graphic: No root element found"

/-- The element whose tag has the given content. -/
def ofTag (content : List Char) : Except Error Element :=
  let name := content.takeWhile (!isSpace ·)
  match readAttributes (byteLength content) [] (content.dropWhile (!isSpace ·)) with
  | .ok attributes => .ok { name := .ofList name, attributes }
  | .error (.attribute e) => .error (.attribute e)
  | .error (.reference e) => .error (.reference e)

/-- Reads up to the end tag of `current`, which lies inside the elements `outer`, the innermost
first. -/
def readContent (current : Element) (outer : List Element) : List Token → Except Error Element
  | [] => .error .unclosedElement
  | .malformed reason :: _ => .error (.malformed reason)
  | .skipped :: ts => readContent current outer ts
  | .verbatim content :: ts => readContent (current.append (.text (.ofList content))) outer ts
  | .text content :: ts =>
    match decode content with
    | .error e => .error (.reference e)
    | .ok cs =>
      if cs.all Text.isBlank then readContent current outer ts
      else readContent (current.append (.text (.ofList cs))) outer ts
  | .empty content :: ts =>
    match ofTag content with
    | .error e => .error e
    | .ok e => readContent (current.append e.toNode) outer ts
  | .start content :: ts =>
    match ofTag content with
    | .error e => .error e
    | .ok e => readContent e (current :: outer) ts
  | .stop name :: ts =>
    if current.name = .ofList name then
      match outer with
      | [] => .ok current
      | parent :: outer => readContent (parent.append current.toNode) outer ts
    else .error (.mismatched current.name (.ofList name))

/-- Reads the first element of a list of tokens. -/
def readRoot : List Token → Except Error Element
  | [] => .error .noRoot
  | .malformed reason :: _ => .error (.malformed reason)
  | .stop name :: _ => .error (.unopened (.ofList name))
  | .empty content :: _ => ofTag content
  | .start content :: ts =>
    match ofTag content with
    | .error e => .error e
    | .ok e => readContent e [] ts
  | _ :: ts => readRoot ts

/-- A text without a byte order mark in front. -/
def dropMark : List Char → List Char
  | '\ufeff' :: cs => cs
  | cs => cs

/-- Reads the root element of a document. -/
def parse (s : String) : Except Error Element := readRoot (tokens (dropMark s.toList))

end VectorGraphics.Markup
