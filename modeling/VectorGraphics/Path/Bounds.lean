import VectorGraphics.Path.Pen

/-!
# Bounding boxes

`Bounds.ofPath?` is a box that contains the outline of a path: it is spanned by the ends and the
control points of its segments, among which every curve lies, and by points as far from the start
of an arc as its ellipse can reach.
-/

namespace VectorGraphics.Path

/-- A box with sides parallel to the axes. -/
structure Bounds where
  /-- The corner with the smallest coordinates. -/
  low : Point
  /-- The corner with the largest coordinates. -/
  high : Point

namespace Bounds

/-- The box of one point. -/
def ofPoint (p : Point) : Bounds := ⟨p, p⟩

/-- The box extended to a point. -/
def insert (b : Bounds) (p : Point) : Bounds :=
  ⟨⟨b.low.x.min p.x, b.low.y.min p.y⟩, ⟨b.high.x.max p.x, b.high.y.max p.y⟩⟩

/-- The box around two boxes. -/
def union (b c : Bounds) : Bounds := (b.insert c.low).insert c.high

/-- The box with its sides moved outwards. -/
def expand (b : Bounds) (margin : Single) : Bounds :=
  ⟨b.low - ⟨margin, margin⟩, b.high + ⟨margin, margin⟩⟩

/-- Whether two boxes have a point in common; touching is enough. -/
def overlaps (b c : Bounds) : Bool :=
  b.low.x ≤ c.high.x && c.low.x ≤ b.high.x && b.low.y ≤ c.high.y && c.low.y ≤ b.high.y

/-- The box of some points, if there are any. -/
def ofPoints? : List Point → Option Bounds
  | [] => none
  | p :: ps => some (ps.foldl insert (ofPoint p))

end Bounds

/-! ## Points that span a path -/

/-- The points that span smooth cubic curves, of which the first has the control point
`implied`. -/
def smoothCubicHull (implied : Point) : List SmoothCubicGroup → List Point
  | [] => []
  | g :: gs =>
    implied :: g.control2 :: g.stop :: smoothCubicHull (g.stop * (2 : Single) - g.control2) gs

/-- The points that span smooth quadratic curves, of which the first has the control point
`control`. -/
def smoothQuadraticHull (control : Point) : List Point → List Point
  | [] => []
  | p :: ps => control :: p :: smoothQuadraticHull (p * (2 : Single) - control) ps

/-- The points that span absolute arcs. The whole ellipse passes through the start of its arc, so
that it reaches no farther than its longer axis, or the end if that is farther. -/
def arcHull (start : Point) : List ArcGroup → List Point
  | [] => []
  | g :: gs =>
    let reach := Single.max (2 * Single.max g.radiusX.abs g.radiusY.abs) (start.distance g.stop)
    (start - ⟨reach, reach⟩) :: (start + ⟨reach, reach⟩) :: g.stop :: arcHull g.stop gs

/-- The points that span an absolute command drawn from `pen`. -/
def hull (pen : Point) (r : Reflection) : Command → List Point
  | .draw .move _ ps | .draw .line _ ps => ps
  | .draw .horizontal _ xs => xs.map fun x => ⟨x, pen.y⟩
  | .draw .vertical _ ys => ys.map fun y => ⟨pen.x, y⟩
  | .draw .cubic _ gs => gs.flatMap fun g => [g.control1, g.control2, g.stop]
  | .draw .smoothCubic _ gs => smoothCubicHull (r.cubicAt pen) gs
  | .draw .quadratic _ gs => gs.flatMap fun g => [g.control, g.stop]
  | .draw .smoothQuadratic _ ps => smoothQuadraticHull (r.quadraticAt pen) ps
  | .draw .arc _ gs => arcHull pen gs
  | .close => []

/-- The points that span the rest of a path, with the pen and the last control points before
it. -/
def hullFrom (pen : Pen) (r : Reflection) : List Command → List Point
  | [] => []
  | c :: cs =>
    let absolute := c.inMode .absolute pen.point
    hull pen.point r absolute ++ hullFrom (pen.advance c) (r.update pen.point absolute) cs

/-- A box that contains the outline of a path, if it has any point. -/
def Bounds.ofPath? (commands : List Command) : Option Bounds :=
  Bounds.ofPoints? (hullFrom {} {} commands)

end VectorGraphics.Path
