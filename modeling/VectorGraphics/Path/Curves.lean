import VectorGraphics.Path.Pen
import VectorGraphics.Path.Printer

/-!
# Simpler curves

`simplifyCurves` replaces a curve that is straight by a line, and a curve whose first control
point is the one a smooth curve would have by that smooth curve. A replacement is made only where
it is printed no longer than the curve.
-/

namespace VectorGraphics.Path

/-- The first of the candidates that are printed shortest, or `c` itself if all are longer. -/
def shortestOf (places : UInt8) (c : Command) (candidates : List Command) : Command :=
  let best := candidates.foldl
    (fun (best : Option Command × Nat) d =>
      let length := d.printedLength places
      if length ≤ best.2 && (best.1.isNone || length < best.2) then (some d, length) else best)
    (none, c.printedLength places)
  best.1.getD c

/-- A group as an absolute one. -/
def Kind.absolute (k : Kind) (mode : Mode) (pen : Point) (g : k.Group) : k.Group :=
  match mode with
  | .absolute => g
  | .relative => k.shift pen g

/-- Whether all control points lie within `tolerance` of the chord from `start` to `stop`, without
reaching past its ends. -/
def isStraight (tolerance : Single) (start : Point) (controls : List Point) (stop : Point) :
    Bool :=
  let chord := stop - start
  let length := chord.length
  if length ≤ tolerance then controls.all fun c => c.distance start ≤ tolerance
  else
    let slack := tolerance / length
    controls.all fun c =>
      let offset := c - start
      let distance := (chord.cross offset).abs / length
      let along := chord.dot offset / (length * length)
      distance ≤ tolerance && along ≥ -slack && along ≤ 1 + slack

/-- A command that is there only if `condition` holds. -/
def candidate (condition : Bool) (c : Command) : List Command := if condition then [c] else []

/-- What may stand for a single curve: a line if the curve is straight and no smooth curve that
continues it comes next, and a smooth curve if its first control point is the implied one. -/
def curveCandidates (tolerance : Single) (pen : Point) (r : Reflection) (next : Option Command) :
    Command → List Command
  | .draw .cubic mode [g] =>
    let a := Kind.cubic.absolute mode pen g
    let nextIsSmooth := next.any (·.isKind .smoothCubic)
    candidate (!nextIsSmooth && isStraight tolerance pen [a.control1, a.control2] a.stop)
        (.draw .line mode [g.stop])
      ++ candidate (a.control1.distance (r.cubicAt pen) ≤ tolerance)
        (.draw .smoothCubic mode [⟨g.control2, g.stop⟩])
  | .draw .quadratic mode [g] =>
    let a := Kind.quadratic.absolute mode pen g
    let nextIsSmooth := next.any (·.isKind .smoothQuadratic)
    candidate (!nextIsSmooth && isStraight tolerance pen [a.control] a.stop)
        (.draw .line mode [g.stop])
      ++ candidate (a.control.distance (r.quadraticAt pen) ≤ tolerance)
        (.draw .smoothQuadratic mode [g.stop])
  | _ => []

/-- Replaces single curves by lines and smooth curves where that is not longer. -/
def simplifyCurves (tolerance : Single) (places : UInt8) (commands : List Command) :
    List Command :=
  go {} {} commands
where
  /-- The rest of the commands, with the pen and the last control points before them. -/
  go (pen : Pen) (r : Reflection) : List Command → List Command :=
    rewrite
      (fun (pen, r) next c =>
        shortestOf places c (curveCandidates tolerance pen.point r next c))
      (fun (pen, r) _ d => (pen.advance d, r.update pen.point (d.inMode .absolute pen.point)))
      (pen, r)

end VectorGraphics.Path
