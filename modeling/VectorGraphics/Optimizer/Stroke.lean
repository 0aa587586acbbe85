import VectorGraphics.Graphic.Element
import VectorGraphics.Graphic.Scope
import VectorGraphics.Number.Decimal

/-!
# Strokes

Whether a path is stroked, and how wide. SVG inherits both and has strokes one unit wide by
default; a vector drawable states both on the path, and its strokes have no width by default.
-/

namespace VectorGraphics.Optimizer

/-- Whether a path with the given attributes is stroked. -/
def isStroked (format : Format) (scope : Scope) (foreign : Attributes) : Bool :=
  match format with
  | .svg => (scope.resolve foreign "stroke").any fun stroke => Text.trim stroke != "none"
  | .vectorDrawable => foreign.contains "android:strokeColor"

/-- The number that a text is, apart from blanks at its ends. -/
def number? (value : String) : Option Single := Single.ofLiteral? (Text.trimList value.toList)

/-- The text of the width of a stroke. -/
def strokeWidth (format : Format) (scope : Scope) (foreign : Attributes) : String :=
  match format with
  | .svg => (scope.resolve foreign format.strokeWidthKey).getD "1"
  | .vectorDrawable => (foreign.get? format.strokeWidthKey).getD "0"

/-- How far the stroke of a path reaches from its outline. A width that is no number, such as a
percentage, may reach anywhere. -/
def strokeMargin (format : Format) (scope : Scope) (foreign : Attributes) : Single :=
  if isStroked format scope foreign then
    match number? (strokeWidth format scope foreign) with
    | some width => Float32.abs width / 2
    | none => Single.infinity
  else 0

end VectorGraphics.Optimizer
