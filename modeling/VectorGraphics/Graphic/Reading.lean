import VectorGraphics.Graphic.Notice
import VectorGraphics.Markup.Reader
import VectorGraphics.Path.Reader
import VectorGraphics.Graphic.Element

/-!
# Reading graphics

`Reading` is a computation that reads a graphic: it makes notices and may end in a `ReadError`.
-/

namespace VectorGraphics

/-- Why a text is no graphic. -/
inductive ReadError
  /-- The text is no document. -/
  | markup (error : Markup.Error)
  /-- The root of the document is of another kind. -/
  | unsupported (expected found : String)
  /-- A path cannot be read. -/
  | path (error : Path.DataError)
  deriving DecidableEq, Repr

/-- The error in words. -/
def ReadError.message : ReadError → String
  | .markup e => e.message
  | .unsupported expected found =>
    s!"Unsupported document: root element is <{found}>, expected <{expected}>"
  | .path e => s!"Invalid path data: {e.message}"

/-- A computation that reads a graphic. -/
abbrev Reading := ExceptT ReadError Logged

namespace Reading

/-- Makes a notice. -/
def note (n : Notice) : Reading Unit := ExceptT.lift (Logged.note n)

/-- The root element of a document. -/
def document (s : String) : Reading Markup.Element :=
  match Markup.parse s with
  | .ok e => pure e
  | .error e => throw (.markup e)

/-- The commands of path data, none if there is no path data. -/
def commands : Option String → Reading (List Path.Command)
  | none => pure []
  | some d =>
    match Path.parse d with
    | .ok cs => pure cs
    | .error e => throw (.path e)

end Reading

/-- The attributes of an element, split into the value of `key` as its identifier and the rest. -/
def Label.ofAttributes (key : String) (attributes : List (String × String)) : Label where
  id := (attributes.filter fun entry => entry.1 = key).getLast?.map Prod.snd
  foreign := .ofList (attributes.filter fun entry => entry.1 ≠ key)

end VectorGraphics
