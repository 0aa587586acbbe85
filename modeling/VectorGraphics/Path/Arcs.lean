import VectorGraphics.Path.Curves

/-!
# Circular arcs

`convertToArcs` replaces a curve that follows a circle within the tolerance by an arc of that
circle, where the arc is printed no longer than the curve.
-/

namespace VectorGraphics.Path

/-- The distance from 1 to the next single, below which a determinant counts as zero. -/
def unitSpacing : Single := 1.1920929e-7

/-- The cubic curve that draws the same as a quadratic one. -/
def elevate (start : Point) (g : QuadraticGroup) : CubicGroup where
  control1 := start.lerp g.control (2 / 3)
  control2 := g.stop.lerp g.control (2 / 3)
  stop := g.stop

/-- The point of a cubic curve at the parameter `t`. -/
def CubicGroup.pointAt (start : Point) (g : CubicGroup) (t : Single) : Point :=
  let u : Single := 1 - t
  start * (u * u * u) + g.control1 * (3 * u * u * t) + g.control2 * (3 * u * t * t)
    + g.stop * (t * t * t)

/-- Whether the diagonals of the control polygon cross well inside both of them. -/
def CubicGroup.isConvex (start : Point) (g : CubicGroup) : Bool :=
  let first := g.control2 - start
  let second := g.stop - g.control1
  let denominator := first.cross second
  if denominator.abs ≤ unitSpacing then false
  else
    let offset := g.control1 - start
    let t := offset.cross second / denominator
    let u := offset.cross first / denominator
    let margin : Single := 1e-4
    t > margin && t < 1 - margin && u > margin && u < 1 - margin

/-- The center of the circle through three points. -/
def circumcenter? (a b c : Point) : Option Point :=
  let b := b - a
  let c := c - a
  let d := 2 * b.cross c
  if d.abs ≤ unitSpacing then none
  else
    let bb := b.dot b
    let cc := c.dot c
    some ⟨a.x + (c.y * bb - b.y * cc) / d, a.y + (b.x * cc - c.x * bb) / d⟩

/-- The arc of a circle that a cubic curve follows, if the curve stays within `tolerance` of the
circle through its ends and its middle at the quarter points too. -/
def fitArc? (tolerance : Single) (start : Point) (g : CubicGroup) : Option ArcGroup :=
  if g.isConvex start then
    let middle := g.pointAt start 0.5
    (circumcenter? start middle g.stop).bind fun center =>
      let radius := center.distance start
      let onCircle (t : Single) : Bool :=
        ((g.pointAt start t).distance center - radius).abs ≤ tolerance
      if !radius.isFinite || radius ≤ tolerance then none
      else if onCircle 0.25 && onCircle 0.75 then
        let chord := g.stop - start
        some
          { radiusX := radius
            radiusY := radius
            angle := 0
            -- The center lies on the curve's side of the chord exactly for the larger arc.
            large := chord.cross (middle - start) * chord.cross (center - start) > 0
            clockwise := (middle - start).cross (g.stop - middle) > 0
            stop := g.stop }
      else none
  else none

/-- The arc that may stand for a single curve that no smooth curve continues. -/
def arcCandidates (tolerance : Single) (pen : Point) (next : Option Command) :
    Command → List Command
  | .draw .cubic mode [g] =>
    if next.any (·.isKind .smoothCubic) then []
    else arc mode (Kind.cubic.absolute mode pen g) g.stop
  | .draw .quadratic mode [g] =>
    if next.any (·.isKind .smoothQuadratic) then []
    else arc mode (elevate pen (Kind.quadratic.absolute mode pen g)) g.stop
  | _ => []
where
  /-- The arc for an absolute curve, ending at `stop` in its own mode. -/
  arc (mode : Mode) (g : CubicGroup) (stop : Point) : List Command :=
    match fitArc? tolerance pen g with
    | some a => [.draw .arc mode [{ a with stop }]]
    | none => []

/-- Replaces single curves by arcs where that is not longer. -/
def convertToArcs (tolerance : Single) (places : UInt8) (commands : List Command) :
    List Command :=
  go {} commands
where
  /-- The rest of the commands, with the pen before them. -/
  go : Pen → List Command → List Command :=
    rewrite (fun pen next c => shortestOf places c (arcCandidates tolerance pen.point next c))
      fun pen _ d => pen.advance d

end VectorGraphics.Path
