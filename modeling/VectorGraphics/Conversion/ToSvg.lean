import VectorGraphics.Color
import VectorGraphics.Graphic.Element
import VectorGraphics.Graphic.Notice
import VectorGraphics.Graphic.Scope
import VectorGraphics.Number.Places

/-!
# From vector drawables to SVG

Geometry and group transforms carry over as they are, and the alpha of a color becomes an opacity.
A clip path, which clips what follows it in its group, becomes a clip path with a generated
identifier, and what follows it goes into a group that refers to it. What has no counterpart is
dropped with a notice.
-/

namespace VectorGraphics.Conversion

/-! ## Values of both formats

Lengths and other numbers of one format are written in the other with three decimal places at
most.
-/

/-- A text without the unit `px` or `dp` at its end. -/
def withoutUnit (cs : List Char) : List Char :=
  ((Text.stripBack? ['p', 'x'] cs).or (Text.stripBack? ['d', 'p'] cs)).getD cs

/-- The number that a text is, apart from a unit and from blanks around number and unit. -/
def number? (value : String) : Option Single :=
  Single.ofLiteral? (Text.trimList (withoutUnit (Text.trimList value.toList)))

/-- The text of a number, with three decimal places at most. -/
def numberText (x : Single) : String := x.text 3

/-- Notes every attribute of an element that has no counterpart in the other format. -/
def noteDropped (kind : String) (isHandled : String → Bool) (foreign : Attributes) :
    Logged Unit :=
  .noteAll ((foreign.toList.filter fun entry => !isHandled entry.1).map fun entry =>
    .droppedAttribute kind entry.1 entry.2)

/-- The values of some properties under their names in the other format, without blanks around
them. Properties without a value are left out. -/
def renamed (get? : String → Option String) (names : List (String × String)) :
    List (String × String) :=
  names.filterMap fun (source, target) => (get? source).map fun value => (target, Text.trim value)

/-! ## Paint -/

/-- The attributes whose meaning is carried over. -/
def vectorDrawablePaintKeys : List String :=
  ["android:fillAlpha", "android:fillColor", "android:fillType", "android:strokeAlpha",
    "android:strokeColor", "android:strokeLineCap", "android:strokeLineJoin",
    "android:strokeMiterLimit", "android:strokeWidth"]

/-- A color without its alpha, in its shortest form. -/
def solidText (c : Color) : String :=
  let solid := { c with alpha := 0xff }
  solid.svgText?.getD solid.argbText

/-- The SVG color and the opacity of a color under a further alpha. -/
def svgColor (value : String) (alpha : Single) : Logged (Option (String × Single)) :=
  match Color.ofArgbText? value with
  | some c => pure (some (solidText c, alpha * Float32.ofNat c.alpha.toNat / 255))
  | none => do
    Logged.note (.unsupportedColor value)
    return none

/-- The SVG color and the opacity of a color attribute, if there is one, and its alpha. -/
def svgPaintOf (foreign : Attributes) (colorKey alphaKey : String) :
    Logged (Option (String × Single)) :=
  match foreign.get? colorKey with
  | none => pure none
  | some value => svgColor value (((foreign.get? alphaKey).bind number?).getD 1)

/-- An opacity, written only where it is less than one. -/
def opacityEntry (key : String) (opacity : Single) : List (String × String) :=
  if opacity < 1 then [(key, numberText opacity)] else []

/-- The fill of a path. Without a color nothing is filled, which SVG has to be told. -/
def svgFill : Option (String × Single) → List (String × String)
  | some (color, opacity) => ("fill", color) :: opacityEntry "fill-opacity" opacity
  | none => [("fill", "none")]

/-- The stroke of a path. -/
def svgStroke (foreign : Attributes) : Option (String × Single) → List (String × String)
  | some (color, opacity) =>
    [("stroke", color),
      ("stroke-width",
        numberText (((foreign.get? "android:strokeWidth").bind number?).getD 0))]
      ++ opacityEntry "stroke-opacity" opacity
      ++ renamed foreign.get?
          [("android:strokeLineCap", "stroke-linecap"),
            ("android:strokeLineJoin", "stroke-linejoin"),
            ("android:strokeMiterLimit", "stroke-miterlimit")]
  | none => []

/-- The paint of a path with the given attributes. -/
def svgPaint (foreign : Attributes) : Logged Attributes := do
  let fill ← svgPaintOf foreign "android:fillColor" "android:fillAlpha"
  let stroke ← svgPaintOf foreign "android:strokeColor" "android:strokeAlpha"
  let fillRule :=
    if (foreign.get? "android:fillType").map Text.trim = some "evenOdd" then
      [("fill-rule", "evenodd")]
    else []
  return .ofList (svgFill fill ++ fillRule ++ svgStroke foreign stroke)

/-! ## Elements -/

/-- The identifier of the `n`-th clip path. -/
def clipId (n : Nat) : String := s!"clip{n}"

/-- The definition of a clip path. -/
def clipDefinition (id : String) (commands : List Path.Command) : Element :=
  .container .clipGroup { id := some id } [.shape .painted {} commands]

/-- What is clipped by the clip path of the given identifier. -/
def clippedBy (id : String) (children : List Element) : Element :=
  .group .identity
    { foreign := Attributes.ofList [("clip-path", "url(#" ++ id ++ ")")] } children

mutual

/-- What siblings become, after `n` clip paths before them; with the number of clip paths up to
their end. -/
def svgElements (n : Nat) : List Element → Logged (List Element × Nat)
  | [] => pure ([], n)
  | .shape .clipping _ commands :: es => do
    let id := clipId (n + 1)
    let (rest, n) ← svgElements (n + 1) es
    return ([clipDefinition id commands, clippedBy id rest], n)
  | e :: es => do
    let (front, n) ← svgElement n e
    let (rest, n) ← svgElements n es
    return (front ++ rest, n)

/-- What an element that is no clip path becomes, after `n` clip paths before it. -/
def svgElement (n : Nat) : Element → Logged (List Element × Nat)
  | .container (.group m) label children => do
    noteDropped "group" (fun _ => false) label.foreign
    let (children, n) ← svgElements n children
    return ([.group m { id := label.id } children], n)
  | .shape _ label commands => do
    noteDropped "path" vectorDrawablePaintKeys.contains label.foreign
    let foreign ← svgPaint label.foreign
    return ([.shape .painted { label with foreign } commands], n)
  | .container .clipGroup label children => pure ([.container .clipGroup label children], n)
  | .container (.extra name) _ _ => do
    Logged.note (.droppedElement name)
    return ([], n)
  | .text _ => pure ([], n)

end

/-! ## The root -/

/-- The namespace of SVG. -/
def svgNamespace : String := "http://www.w3.org/2000/svg"

/-- The number that a root attribute holds. -/
def sizeOf? (foreign : Attributes) (key : String) : Option Single :=
  (foreign.get? key).bind number?

/-- The view box, if both sides of the viewport are known. -/
def viewBoxEntry (foreign : Attributes) : List (String × String) :=
  match sizeOf? foreign "android:viewportWidth", sizeOf? foreign "android:viewportHeight" with
  | some width, some height =>
    [("viewBox", "0 0 " ++ numberText width ++ " " ++ numberText height)]
  | _, _ => []

/-- A side of the drawing, if it is known. -/
def sizeEntry (foreign : Attributes) (source target : String) : List (String × String) :=
  match sizeOf? foreign source with
  | some x => [(target, numberText x)]
  | none => []

/-- The attributes of the root. -/
def svgRoot (foreign : Attributes) : Attributes :=
  .ofList (("xmlns", svgNamespace) :: viewBoxEntry foreign
    ++ sizeEntry foreign "android:width" "width"
    ++ sizeEntry foreign "android:height" "height"
    ++ ((sizeOf? foreign "android:alpha").map (opacityEntry "opacity")).getD [])

/-- Whether a root attribute is carried over or has no meaning elsewhere. -/
def isVectorDrawableRootKey (key : String) : Bool :=
  Text.startsWith "xmlns:" key
    || ["android:viewportWidth", "android:viewportHeight", "android:width", "android:height",
      "android:alpha"].contains key

/-- A vector drawable as an SVG graphic. -/
def vectorDrawableToSvg (g : Graphic) : Logged Graphic := do
  noteDropped "root" isVectorDrawableRootKey g.label.foreign
  let (children, _) ← svgElements 0 g.children
  return {
    format := .svg
    label := { g.label with foreign := svgRoot g.label.foreign }
    children }

end VectorGraphics.Conversion
