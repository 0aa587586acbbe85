import VectorGraphics.Color
import VectorGraphics.Graphic.Element
import VectorGraphics.Graphic.Scope
import VectorGraphics.Number.Decimal

/-!
# Shorter attributes

`removeDefaults` removes the attributes and style declarations of an element that set a property
to its default. What would let another value through stays: a default under an inherited value
that differs, and a declaration above an attribute that differs.

`minifyColors` writes the colors of an element in their shortest form, where that is shorter than
what is written. A style is put together again without superfluous blanks in any case.
-/

namespace VectorGraphics.Optimizer

/-! ## Default values -/

/-- Whether two values are the same, as numbers if both are numbers and as text otherwise. Blanks
at the ends do not count. -/
def sameValue (a b : String) : Bool :=
  let a := Text.trimList a.toList
  let b := Text.trimList b.toList
  match Single.ofLiteral? a, Single.ofLiteral? b with
  | some x, some y => x == y
  | _, _ => a == b

/-- The properties of a format with their default values. -/
def defaults : Format → List (String × String)
  | .svg =>
    [("fill-opacity", "1"), ("stroke-opacity", "1"), ("opacity", "1"), ("stroke-width", "1"),
      ("stroke-linecap", "butt"), ("stroke-linejoin", "miter"), ("stroke-miterlimit", "4"),
      ("stroke-dashoffset", "0"), ("stroke-dasharray", "none"), ("fill-rule", "nonzero"),
      ("clip-rule", "nonzero"), ("visibility", "visible"), ("display", "inline"),
      ("version", "1.1"), ("baseProfile", "full"), ("preserveAspectRatio", "xMidYMid meet")]
  | .vectorDrawable =>
    [("android:alpha", "1"), ("android:fillAlpha", "1"), ("android:strokeAlpha", "1"),
      ("android:strokeWidth", "0"), ("android:strokeLineCap", "butt"),
      ("android:strokeLineJoin", "miter"), ("android:strokeMiterLimit", "4"),
      ("android:trimPathStart", "0"), ("android:trimPathEnd", "1"),
      ("android:trimPathOffset", "0"), ("android:fillType", "nonZero"),
      ("android:autoMirrored", "false")]

/-- Whether a value is the default of a property. -/
def isDefault (format : Format) (key value : String) : Bool :=
  (defaults format).any fun (name, default) => name = key && sameValue value default

/-- Whether a property may be left unset: the value is its default, and no other value is
inherited. -/
def isRedundant (format : Format) (scope : Scope) (key value : String) : Bool :=
  isDefault format key value && (scope.get? key).all fun inherited => sameValue inherited value

/-- Whether a declaration overrides an attribute that has another value. -/
def overrides (foreign : Attributes) (property value : String) : Bool :=
  (foreign.get? property).any fun other => !sameValue other value

/-- Removes the redundant declarations from a style. -/
def keptDeclarations (format : Format) (scope : Scope) (foreign : Attributes) (style : String) :
    List (String × String) :=
  (declarations style).filter fun (property, value) =>
    !isRedundant format scope property value || overrides foreign property value

/-- Removes the redundant declarations of the style of an element, and the style if nothing
remains of it. -/
def removeFromStyle (format : Format) (scope : Scope) (foreign : Attributes) : Attributes :=
  match foreign.get? "style" with
  | none => foreign
  | some style =>
    match keptDeclarations format scope foreign style with
    | [] => foreign.erase "style"
    | kept => foreign.insert "style" (joinDeclarations kept)

/-- Removes what sets a property to its default. -/
def removeDefaults (format : Format) (scope : Scope) (foreign : Attributes) : Attributes :=
  let foreign :=
    match format with
    | .svg => removeFromStyle format scope foreign
    | .vectorDrawable => foreign
  foreign.filter fun key value => !isRedundant format scope key value

/-! ## Short colors -/

/-- The properties of a format that are colors. -/
def colorKeys : Format → List String
  | .svg => ["fill", "stroke", "stop-color", "flood-color", "lighting-color", "color"]
  | .vectorDrawable =>
    ["android:fillColor", "android:strokeColor", "android:tint", "android:color",
      "android:startColor", "android:centerColor", "android:endColor"]

/-- The shortest form of a color that a text of the given format denotes. -/
def shortestColor? (format : Format) (value : String) : Option String :=
  match format with
  | .svg => (Color.ofSvgText? value).bind Color.svgText?
  | .vectorDrawable => (Color.ofArgbText? value).map Color.argbText

/-- A color in its shortest form if that is shorter, and as it is otherwise. -/
def minifyColor (format : Format) (value : String) : String :=
  match shortestColor? format value with
  | some shorter => if shorter.length < (Text.trim value).length then shorter else value
  | none => value

/-- The value of a property with its color in the shortest form, if the property is a color. -/
def minifyProperty (format : Format) (key value : String) : String :=
  if (colorKeys format).contains key then minifyColor format value else value

/-- A style with its colors in their shortest form. -/
def minifyStyle (style : String) : String :=
  joinDeclarations ((declarations style).map fun (property, value) =>
    (property, minifyProperty .svg property value))

/-- Writes the colors of an element in their shortest form. -/
def minifyColors (format : Format) (foreign : Attributes) : Attributes :=
  foreign.mapValues fun key value =>
    if format = .svg ∧ key = "style" then minifyStyle value else minifyProperty format key value

end VectorGraphics.Optimizer
