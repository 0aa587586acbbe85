import VectorGraphics.Number.Binary

/-!
# Points of the plane

A `Point` is a position or a displacement with single-precision coordinates. The operations are
the ordinary ones, each rounded where it is written.
-/

namespace VectorGraphics

/-- A position or displacement. -/
structure Point where
  /-- The horizontal coordinate, growing to the right. -/
  x : Single
  /-- The vertical coordinate, growing downwards. -/
  y : Single

namespace Point

/-- The point `(0, 0)`. -/
def origin : Point := ⟨0, 0⟩

instance : Inhabited Point := ⟨origin⟩

instance : Add Point := ⟨fun p q => ⟨p.x + q.x, p.y + q.y⟩⟩

instance : Sub Point := ⟨fun p q => ⟨p.x - q.x, p.y - q.y⟩⟩

instance : Neg Point := ⟨fun p => ⟨-p.x, -p.y⟩⟩

instance : HMul Point Single Point := ⟨fun p t => ⟨p.x * t, p.y * t⟩⟩

/-- Equality of coordinates as numbers: a NaN differs from itself, and the zeros are equal. -/
instance : BEq Point := ⟨fun p q => p.x == q.x && p.y == q.y⟩

theorem ext' {p q : Point} (hx : p.x = q.x) (hy : p.y = q.y) : p = q := by
  cases p; cases q; simp_all

@[simp] theorem add_x (p q : Point) : (p + q).x = p.x + q.x := rfl

@[simp] theorem add_y (p q : Point) : (p + q).y = p.y + q.y := rfl

@[simp] theorem sub_x (p q : Point) : (p - q).x = p.x - q.x := rfl

@[simp] theorem sub_y (p q : Point) : (p - q).y = p.y - q.y := rfl

@[simp] theorem neg_x (p : Point) : (-p).x = -p.x := rfl

@[simp] theorem neg_y (p : Point) : (-p).y = -p.y := rfl

@[simp] theorem mul_x (p : Point) (t : Single) : (p * t).x = p.x * t := rfl

@[simp] theorem mul_y (p : Point) (t : Single) : (p * t).y = p.y * t := rfl

/-- The distance from the origin. -/
def length (p : Point) : Single := Single.hypot p.x p.y

/-- The distance between two points. -/
def distance (p q : Point) : Single := (p - q).length

/-- The scalar product of two displacements. -/
def dot (p q : Point) : Single := p.x * q.x + p.y * q.y

/-- The vertical component of the vector product; positive when `q` lies clockwise from `p`. -/
def cross (p q : Point) : Single := p.x * q.y - p.y * q.x

/-- Whether each coordinate is within `tolerance` of the other point's. -/
def near (p q : Point) (tolerance : Single) : Bool :=
  (p.x - q.x).abs ≤ tolerance && (p.y - q.y).abs ≤ tolerance

/-- The point a fraction `t` of the way from `p` to `q`. -/
def lerp (p q : Point) (t : Single) : Point := p + (q - p) * t

end Point

end VectorGraphics
