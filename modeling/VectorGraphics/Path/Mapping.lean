import VectorGraphics.Path.Arcs

/-!
# Paths under affine maps

`mapPath` is the image of a path. All its commands are absolute, and its horizontal and vertical
lines have become plain lines. The image of an elliptical arc lies on another ellipse, whose radii
and angle are found from the singular values of the matrix that maps the unit circle onto it.
-/

namespace VectorGraphics.Path

/-- Radii large enough to reach from the start of an arc to its end; `delta` leads there, and the
ellipse lies at the angle with the given sine and cosine. -/
def reachingRadii (radiusX radiusY : Single) (delta : Point) (sin cos : Single) :
    Single × Single :=
  if radiusX > 0 && radiusY > 0 then
    let along := delta.x * cos + delta.y * sin
    let across := delta.y * cos - delta.x * sin
    let excess := along * along / (4 * radiusX * radiusX)
      + across * across / (4 * radiusY * radiusY)
    if excess > 1 then (radiusX * Float32.sqrt excess, radiusY * Float32.sqrt excess)
    else (radiusX, radiusY)
  else (radiusX, radiusY)

/-- The radii and the angle in degrees of the ellipse that a linear map makes of the unit
circle. -/
def imageOfCircle (m : Matrix) : Single × Single × Single :=
  let lastColumn := m.c * m.c + m.d * m.d
  let squareSum := m.a * m.a + m.b * m.b + lastColumn
  let root := Single.hypot (m.a - m.d) (m.b + m.c) * Single.hypot (m.a + m.d) (m.b - m.c)
  if root ≤ unitSpacing * squareSum then
    let radius := Float32.sqrt (squareSum / 2)
    (radius, radius, 0)
  else
    let majorSquared := (squareSum + root) / 2
    let minorSquared := Single.max ((squareSum - root) / 2) 0
    let major := decide ((majorSquared - lastColumn).abs > 1e-6)
    let sub := (if major then majorSquared else minorSquared) - lastColumn
    let rows := m.a * m.c + m.b * m.d
    let term₁ := m.a * sub + m.c * rows
    let term₂ := m.b * sub + m.d * rows
    let norm := Single.hypot term₁ term₂
    let angle : Single :=
      if norm > 0 then
        let cosine := Single.clamp ((if major then term₁ else term₂) / norm) (-1) 1
        let negative := if major then decide (term₂ < 0) else decide (term₁ > 0)
        let degrees := Single.toDegrees (Single.arccos cosine)
        if negative then -degrees else degrees
      else 0
    (Float32.sqrt majorSquared, Float32.sqrt minorSquared, angle)

/-- The image of an absolute arc from `start`. A reflection turns its direction around. -/
def mapArc (m : Matrix) (start : Point) (g : ArcGroup) : ArcGroup :=
  let angle := g.angle.toRadians
  let sin := Single.sin angle
  let cos := Single.cos angle
  let (radiusX, radiusY) :=
    reachingRadii g.radiusX.abs g.radiusY.abs (g.stop - start) sin cos
  let ellipse := Matrix.affine (radiusX * cos) (radiusX * sin) (-radiusY * sin) (radiusY * cos) 0 0
  let (newX, newY, newAngle) := imageOfCircle (Matrix.affine m.a m.b m.c m.d 0 0 * ellipse)
  { radiusX := newX
    radiusY := newY
    angle := newAngle
    large := g.large
    clockwise := if m.determinant < 0 then !g.clockwise else g.clockwise
    stop := m.apply g.stop }

/-- The images of absolute arcs drawn one after another. -/
def mapArcs (m : Matrix) : (start : Point) → List ArcGroup → List ArcGroup
  | _, [] => []
  | start, g :: gs => mapArc m start g :: mapArcs m g.stop gs

/-- The image of an absolute command drawn from `pen`. -/
def mapCommand (m : Matrix) (pen : Point) : Command → Command
  | .draw .horizontal _ xs => .draw .line .absolute (xs.map fun x => m.apply ⟨x, pen.y⟩)
  | .draw .vertical _ ys => .draw .line .absolute (ys.map fun y => m.apply ⟨pen.x, y⟩)
  | .draw .arc _ gs => .draw .arc .absolute (mapArcs m pen gs)
  | .draw k _ gs => .draw k .absolute (gs.map (k.mapPoints m.apply))
  | .close => .close

/-- The image of a path. -/
def mapPath (m : Matrix) (commands : List Command) : List Command :=
  go {} commands
where
  /-- The image of the rest of the commands, with the pen before them. -/
  go : Pen → List Command → List Command :=
    rewrite (fun pen _ c => mapCommand m pen.point (c.inMode .absolute pen.point))
      fun pen c _ => pen.advance c

@[simp] theorem length_mapArcs (m : Matrix) (start : Point) (gs : List ArcGroup) :
    (mapArcs m start gs).length = gs.length := by
  induction gs generalizing start with
  | nil => rfl
  | cons g gs ih => simp [mapArcs, ih]

@[simp] theorem length_mapPath (m : Matrix) (commands : List Command) :
    (mapPath m commands).length = commands.length := length_rewrite ..

end VectorGraphics.Path
