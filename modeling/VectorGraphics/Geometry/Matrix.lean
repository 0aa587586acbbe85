import VectorGraphics.Geometry.Point
import VectorGraphics.Number.Trigonometry

/-!
# Affine maps as matrices

A `Matrix` holds three rows of three numbers. For an affine map the last row is `0 0 1`, and a
point `(x, y)` goes to `(a x + c y + e, b x + d y + f)`.

* `Matrix.affine` and `Matrix.coefficients` convert from and to the six affine numbers.
* `shift`, `scaling`, `rotation`, `rotationAround`, `skewX` and `skewY` are the elementary
  maps, with angles in degrees.
* `decompose` splits a map without skew into scale, rotation and shift; `splitSkew` writes
  any map as such a map after a rotation.
-/

namespace VectorGraphics

/-- A matrix with rows `a c e`, `b d f` and `u v w`. -/
structure Matrix where
  (a c e : Single)
  (b d f : Single)
  (u v w : Single)

/-- A map without skew: it scales, then rotates, then translates. -/
structure Decomposition where
  /-- The displacement. -/
  shift : Point
  /-- The rotation, in degrees. -/
  rotation : Single
  /-- The scale along the x axis. -/
  scaleX : Single
  /-- The scale along the y axis. -/
  scaleY : Single

namespace Matrix

/-- The tolerance within which a map counts as the identity, or as free of skew. -/
def epsilon : Single := 1e-5

/-! ## Elementary maps -/

/-- The affine map with the given numbers, in the order of the SVG `matrix` function. -/
def affine (a b c d e f : Single) : Matrix := ⟨a, c, e, b, d, f, 0, 0, 1⟩

/-- The six affine numbers, in the order of the SVG `matrix` function. -/
def coefficients (m : Matrix) : List Single := [m.a, m.b, m.c, m.d, m.e, m.f]

/-- All nine numbers, row by row. -/
def entries (m : Matrix) : List Single := [m.a, m.c, m.e, m.b, m.d, m.f, m.u, m.v, m.w]

/-- The map that moves nothing. -/
def identity : Matrix := affine 1 0 0 1 0 0

instance : Inhabited Matrix := ⟨identity⟩

/-- Moves every point by `(x, y)`. -/
def shift (x y : Single) : Matrix := affine 1 0 0 1 x y

/-- Scales the axes about the origin. -/
def scaling (x y : Single) : Matrix := affine x 0 0 y 0 0

/-- The product of two matrices: the map `m` after the map `n`. -/
def mul (m n : Matrix) : Matrix where
  a := m.a * n.a + m.c * n.b + m.e * n.u
  c := m.a * n.c + m.c * n.d + m.e * n.v
  e := m.a * n.e + m.c * n.f + m.e * n.w
  b := m.b * n.a + m.d * n.b + m.f * n.u
  d := m.b * n.c + m.d * n.d + m.f * n.v
  f := m.b * n.e + m.d * n.f + m.f * n.w
  u := m.u * n.a + m.v * n.b + m.w * n.u
  v := m.u * n.c + m.v * n.d + m.w * n.v
  w := m.u * n.e + m.v * n.f + m.w * n.w

instance : Mul Matrix := ⟨mul⟩

/-- The matrix applied to a column of three numbers. -/
def applyColumn (m : Matrix) (x y z : Single) : Single × Single × Single :=
  (m.a * x + m.c * y + m.e * z, m.b * x + m.d * y + m.f * z, m.u * x + m.v * y + m.w * z)

/-- The image of a point. -/
def apply (m : Matrix) (p : Point) : Point :=
  let (x, y, _) := m.applyColumn p.x p.y 1
  ⟨x, y⟩

/-- The rotation about the origin by an angle in degrees. -/
def rotation (degrees : Single) : Matrix :=
  let angle := degrees.toRadians
  affine angle.cos angle.sin (-angle.sin) angle.cos 0 0

/-- The rotation about a point by an angle in degrees. -/
def rotationAround (degrees : Single) (pivot : Point) : Matrix :=
  shift pivot.x pivot.y * rotation degrees * shift (-pivot.x) (-pivot.y)

/-- Leans the y axis by an angle in degrees. -/
def skewX (degrees : Single) : Matrix := affine 1 0 degrees.toRadians.tan 1 0 0

/-- Leans the x axis by an angle in degrees. -/
def skewY (degrees : Single) : Matrix := affine 1 degrees.toRadians.tan 0 1 0 0

/-! ## Tests and measures -/

/-- The determinant, expanded along the first row. -/
def determinant (m : Matrix) : Single :=
  m.a * (m.d * m.w - m.f * m.v) - m.c * (m.b * m.w - m.f * m.u) + m.e * (m.b * m.v - m.d * m.u)

/-- Whether all nine numbers agree within `epsilon`. -/
def near (m n : Matrix) : Bool :=
  (m.entries.zip n.entries).all fun (x, y) => (x - y).abs ≤ epsilon

/-- Whether the matrix is the identity within `epsilon`. -/
def isIdentity (m : Matrix) : Bool := m.near identity

/-- Whether the linear part is the identity within `epsilon`. -/
def isShift (m : Matrix) : Bool :=
  (m.a - 1).abs ≤ epsilon && (m.d - 1).abs ≤ epsilon && m.b.abs ≤ epsilon && m.c.abs ≤ epsilon

/-- The factor by which all lengths are scaled, if it is the same in all directions. -/
def uniformScale? (m : Matrix) : Option Single :=
  let lengthX := Single.hypot m.a m.b
  let lengthY := Single.hypot m.c m.d
  let slack := epsilon * lengthX.max 1
  if (m.a * m.c + m.b * m.d).abs ≤ slack ∧ (lengthX - lengthY).abs ≤ slack then some lengthX
  else none

/-! ## Decompositions -/

/-- The scale, rotation and shift of a map without skew. -/
def decompose (m : Matrix) : Option Decomposition :=
  let scaleX := Single.hypot m.a m.b
  if scaleX ≤ epsilon then none
  else
    let angle := Single.arctan2 m.b m.a
    let scaleY := (m.a * m.d - m.b * m.c) / scaleX
    let tolerance := epsilon * (Single.max scaleY.abs 1) * 10
    if (m.c + angle.sin * scaleY).abs > tolerance ∨ (m.d - angle.cos * scaleY).abs > tolerance then
      none
    else some ⟨⟨m.e, m.f⟩, angle.toDegrees, scaleX, scaleY⟩

/-- The map as a product of a map without skew and a rotation, by the singular values of its
linear part. -/
def splitSkew (m : Matrix) : Matrix × Matrix :=
  let p := (m.a + m.d) / 2
  let q := (m.a - m.d) / 2
  let r := (m.b + m.c) / 2
  let s := (m.b - m.c) / 2
  let major := Single.hypot p s
  let minor := Single.hypot q r
  let alpha := Single.arctan2 r q
  let beta := Single.arctan2 s p
  let inner := (beta - alpha) / 2
  let outer := (beta + alpha) / 2
  (shift m.e m.f * rotation (Single.toDegrees outer)
      * scaling (major + minor) (major - minor),
    rotation (Single.toDegrees inner))

end Matrix

end VectorGraphics
