import VectorGraphics.Graphic.Element
import VectorGraphics.Graphic.Notice
import VectorGraphics.Path.Mapping
import VectorGraphics.Svg.Transform

/-!
# Clip paths of SVG

In SVG a clip path is defined at one place and referred to by its identifier at others.
`clipOf` finds the shapes that a reference stands for, mapped into the coordinates of the element
with the reference.
-/

namespace VectorGraphics.Conversion

/-- The clip paths of some elements, with their identifiers and in document order. -/
def clipDefinitions (elements : List Element) : List (String × List Element) :=
  (Element.descendants.descendantsOfAll elements).filterMap fun
    | .container .clipGroup ⟨some id, _⟩ children => some (id, children)
    | _ => none

/-- The contents of the clip path with an identifier, the last one of that identifier. -/
def findClip? (definitions : List (String × List Element)) (id : String) :
    Option (List Element) :=
  (definitions.filter fun entry => entry.1 = id).getLast?.map Prod.snd

/-- The identifier in a reference `url(#…)`. -/
def referenceId? (value : String) : Option String :=
  ((Text.stripFront? "url(#".toList (Text.trimList value.toList)).bind
    (Text.stripBack? [')'])).map String.ofList

/-- The transform that a path has of its own. -/
def ownTransform (foreign : Attributes) : Matrix :=
  ((foreign.get? "transform").bind Svg.parseTransform?).getD .identity

mutual

/-- The clip paths that an element inside a clip path becomes, mapped by `m`. -/
def clipShapes (m : Matrix) : Element → Logged (List Element)
  | .shape _ label commands =>
    pure [.shape .clipping {} (Path.mapPath (m * ownTransform label.foreign) commands)]
  | .container (.group t) _ children => clipShapesOf (m * t) children
  | _ => do
    Logged.note .ignoredClipContent
    return []

/-- The clip paths that the elements inside a clip path become, mapped by `m`. -/
def clipShapesOf (m : Matrix) : List Element → Logged (List Element)
  | [] => pure []
  | e :: es => do
    let front ← clipShapes m e
    return front ++ (← clipShapesOf m es)

end

/-- The clip paths that an element with the given attributes refers to; `none` if it refers to
none. -/
def clipOf (definitions : List (String × List Element)) (foreign : Attributes) :
    Logged (Option (List Element)) :=
  match (foreign.get? "clip-path").bind referenceId? with
  | none => pure none
  | some id =>
    match findClip? definitions id with
    | some contents => do
      return some (← clipShapesOf .identity contents)
    | none => do
      Logged.note (.unknownClip id)
      return none

end VectorGraphics.Conversion
