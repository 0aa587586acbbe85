import VectorGraphics.Color
import VectorGraphics.Conversion.ClipPaths
import VectorGraphics.Conversion.ToSvg

/-!
# From SVG to vector drawables

Geometry and group transforms carry over as they are. Paint is resolved through style, attributes
and inheritance and stated on every path, and the opacity of a group goes into the alpha of the
paths inside. A reference to a clip path is replaced by the clip path itself, ahead of what it
clips. What has no counterpart is dropped with a notice.

`convert` brings a graphic into a format, in this direction or the other one. A graphic that is in
it already stays as it is.
-/

namespace VectorGraphics.Conversion

/-! ## Paint -/

/-- The attributes whose meaning is carried over. -/
def svgPaintKeys : List String :=
  ["clip-path", "clip-rule", "color", "fill", "fill-opacity", "fill-rule", "opacity", "stroke",
    "stroke-linecap", "stroke-linejoin", "stroke-miterlimit", "stroke-opacity", "stroke-width",
    "style", "transform"]

/-- The opacity of an element as a whole. -/
def ownOpacity (foreign : Attributes) : Single :=
  ((Scope.resolve {} foreign "opacity").bind number?).getD 1

/-- The color of a paint; `none` if nothing is painted. -/
def paintColor (value : String) (currentColor : Option String) : Logged (Option Color) :=
  let value := Text.trim value
  if value = "none" then pure none
  else if value = "currentColor" then pure (currentColor.bind Color.ofSvgText?)
  else
    match Color.ofSvgText? value with
    | some c => pure (some c)
    | none => do
      Logged.note (.unsupportedPaint value)
      return none

/-- An alpha value, written only where it is less than one. -/
def alphaEntry (key : String) (alpha : Single) : List (String × String) :=
  if alpha < 1 then [(key, numberText alpha)] else []

/-- The fill of a path that is painted with a color. -/
def fillEntries (get? : String → Option String) (alpha : Single) :
    Option Color → List (String × String)
  | none => []
  | some c =>
    ("android:fillColor", c.argbText)
      :: alphaEntry "android:fillAlpha"
          (alpha * ((get? "fill-opacity").bind number?).getD 1)

/-- The stroke of a path that is stroked with a color. -/
def strokeEntries (get? : String → Option String) (alpha : Single) :
    Option Color → List (String × String)
  | none => []
  | some c =>
    [("android:strokeColor", c.argbText),
      ("android:strokeWidth", numberText (((get? "stroke-width").bind number?).getD 1))]
      ++ alphaEntry "android:strokeAlpha"
          (alpha * ((get? "stroke-opacity").bind number?).getD 1)
      ++ renamed get?
          [("stroke-linecap", "android:strokeLineCap"),
            ("stroke-linejoin", "android:strokeLineJoin"),
            ("stroke-miterlimit", "android:strokeMiterLimit")]

/-- The paint of a path with the given attributes, inside elements with the opacity `alpha`. -/
def vectorDrawablePaint (scope : Scope) (alpha : Single) (foreign : Attributes) :
    Logged Attributes := do
  let get? := scope.resolve foreign
  let alpha := alpha * ownOpacity foreign
  let fill ← paintColor ((get? "fill").getD "black") (get? "color")
  let stroke ← paintColor ((get? "stroke").getD "none") (get? "color")
  let fillType :=
    if (get? "fill-rule").map Text.trim = some "evenodd" then [("android:fillType", "evenOdd")]
    else []
  return .ofList (fillEntries get? alpha fill ++ fillType ++ strokeEntries get? alpha stroke)

/-! ## Elements -/

/-- A path behind the clip paths it refers to. -/
def clipped (clip : Option (List Element)) (path : Element) : Element :=
  match clip with
  | some shapes => .wrap .identity (shapes ++ [path])
  | none => path

/-- A path under the transform it has of its own. -/
def transformed (foreign : Attributes) (path : Element) : Logged Element :=
  match foreign.get? "transform" with
  | none => pure path
  | some value =>
    match Svg.parseTransform? value with
    | some m => pure (.wrap m [path])
    | none => do
      Logged.note (.droppedPathTransform value)
      return path

/-- The elements that are dropped as a matter of course: what they hold is not drawn where it
stands. -/
def undrawn : List String := ["defs", "title", "desc", "metadata"]

mutual

/-- What an element becomes, inside elements with the opacity `alpha`. -/
def vectorDrawableElement (clips : List (String × List Element)) (scope : Scope)
    (alpha : Single) : Element → Logged (List Element)
  | .container (.group m) label children => do
    noteDropped "group" svgPaintKeys.contains label.foreign
    if label.foreign.contains "transform" then
      Logged.note .droppedGroupTransform
    let clip ← clipOf clips label.foreign
    let children ← vectorDrawableElements clips (scope.enter label.foreign)
      (alpha * ownOpacity label.foreign) children
    return [.group m { id := label.id } (clip.getD [] ++ children)]
  | .shape .painted label commands => do
    noteDropped "path" svgPaintKeys.contains label.foreign
    let foreign ← vectorDrawablePaint scope alpha label.foreign
    let clip ← clipOf clips label.foreign
    let path := clipped clip (.shape .painted { label with foreign } commands)
    return [← transformed label.foreign path]
  | .shape .clipping _ commands => pure [.shape .clipping {} commands]
  | .container (.extra name) _ _ => do
    Logged.note (if undrawn.contains name then .omitted name else .droppedElement name)
    return []
  | .container .clipGroup _ _ => pure []
  | .text _ => pure []

/-- What siblings become, inside elements with the opacity `alpha`. -/
def vectorDrawableElements (clips : List (String × List Element)) (scope : Scope)
    (alpha : Single) : List Element → Logged (List Element)
  | [] => pure []
  | e :: es => do
    let front ← vectorDrawableElement clips scope alpha e
    return front ++ (← vectorDrawableElements clips scope alpha es)

end

/-! ## The root -/

/-- The namespace of the attributes of a vector drawable. -/
def androidNamespace : String := "http://schemas.android.com/apk/res/android"

/-- The origin and the size of a `viewBox`. -/
def viewBox? (value : String) : Option (Point × Point) :=
  match Svg.numbers? value.toList with
  | some [x, y, width, height] => some (⟨x, y⟩, ⟨width, height⟩)
  | _ => none

/-- The number that an attribute holds. -/
def lengthOf? (foreign : Attributes) (key : String) : Option Single :=
  (foreign.get? key).bind number?

/-- The origin and the size of the area that is drawn. Without a `viewBox` it is as large as the
drawing. -/
def viewport (foreign : Attributes) : Point × Point :=
  ((foreign.get? "viewBox").bind viewBox?).getD
    (.origin, ⟨(lengthOf? foreign "width").getD 0, (lengthOf? foreign "height").getD 0⟩)

/-- The attributes of the root. -/
def vectorDrawableRoot (foreign : Attributes) : Attributes :=
  let size := (viewport foreign).2
  .ofList
    [("xmlns:android", androidNamespace),
      ("android:width", numberText ((lengthOf? foreign "width").getD size.x) ++ "dp"),
      ("android:height", numberText ((lengthOf? foreign "height").getD size.y) ++ "dp"),
      ("android:viewportWidth", numberText size.x),
      ("android:viewportHeight", numberText size.y)]

/-- Whether a root attribute is carried over or has no meaning elsewhere. -/
def isSvgRootKey (key : String) : Bool :=
  ["viewBox", "width", "height", "version", "baseProfile", "xmlns"].contains key
    || Text.startsWith "xmlns:" key || svgPaintKeys.contains key

/-- An SVG graphic as a vector drawable. The area that is drawn starts at the origin there, so
that another origin becomes a shift. -/
def svgToVectorDrawable (g : Graphic) : Logged Graphic := do
  let foreign := g.label.foreign
  noteDropped "root" isSvgRootKey foreign
  let children ← vectorDrawableElements (clipDefinitions g.children) (Scope.enter {} foreign)
    (ownOpacity foreign) g.children
  let origin := (viewport foreign).1
  return {
    format := .vectorDrawable
    label := { g.label with foreign := vectorDrawableRoot foreign }
    children :=
      if origin == .origin then children
      else [.wrap (.shift (-origin.x) (-origin.y)) children] }

/-! ## Either way -/

/-- A graphic in the given format. -/
def convert (target : Format) (g : Graphic) : Logged Graphic :=
  match g.format, target with
  | .svg, .vectorDrawable => svgToVectorDrawable g
  | .vectorDrawable, .svg => vectorDrawableToSvg g
  | .svg, .svg | .vectorDrawable, .vectorDrawable => pure g

end VectorGraphics.Conversion
