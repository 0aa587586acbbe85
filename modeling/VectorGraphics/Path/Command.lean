import VectorGraphics.Geometry.Matrix

/-!
# Path commands

A path is a list of commands. A drawing command has a kind, a mode (absolute or relative) and a
list of parameter groups, each of which draws one segment; a closing command has none.

* `Kind.Group` is the type of the parameter groups of a kind.
* `Kind.numbers` and `Kind.ofNumbers?` convert between a group and its numbers in the order in
  which they are written.
* `Kind.land` moves the pen over one group, `Kind.shift` displaces a group, `Kind.mapPoints` maps
  its points.
* `Command.inMode` is a command as it reads in a given mode.
-/

namespace VectorGraphics.Path

/-- Whether coordinates are positions or displacements from the current point. -/
inductive Mode
  | absolute
  | relative
  deriving DecidableEq, Repr

/-- The other mode. -/
def Mode.opposite : Mode → Mode
  | .absolute => .relative
  | .relative => .absolute

/-- The kinds of drawing command. -/
inductive Kind
  | move
  | line
  | horizontal
  | vertical
  | cubic
  | smoothCubic
  | quadratic
  | smoothQuadratic
  | arc
  deriving DecidableEq, Repr

/-! ## Parameter groups -/

/-- A cubic curve: two control points and the end. -/
structure CubicGroup where
  control1 : Point
  control2 : Point
  stop : Point

/-- A cubic curve whose first control point is implied by the curve before it. -/
structure SmoothCubicGroup where
  control2 : Point
  stop : Point

/-- A quadratic curve: one control point and the end. -/
structure QuadraticGroup where
  control : Point
  stop : Point

/-- An elliptical arc. -/
structure ArcGroup where
  radiusX : Single
  radiusY : Single
  /-- The angle of the ellipse's first axis to the x axis, in degrees. -/
  angle : Single
  /-- Whether the arc is the larger of the two parts of the ellipse. -/
  large : Bool
  /-- Whether the arc runs clockwise, in the direction of growing angles. -/
  clockwise : Bool
  stop : Point

/-- What one segment of a kind is given by. -/
@[reducible] def Kind.Group : Kind → Type
  | .move | .line | .smoothQuadratic => Point
  | .horizontal | .vertical => Single
  | .cubic => CubicGroup
  | .smoothCubic => SmoothCubicGroup
  | .quadratic => QuadraticGroup
  | .arc => ArcGroup

namespace Kind

/-- What a written parameter is: a number, or the digit 0 or 1. -/
inductive Slot
  | number
  | flag
  deriving DecidableEq, Repr

/-- The parameters of one group, in the order in which they are written. -/
def slots : Kind → List Slot
  | .horizontal | .vertical => [.number]
  | .move | .line | .smoothQuadratic => [.number, .number]
  | .smoothCubic | .quadratic => [.number, .number, .number, .number]
  | .cubic => [.number, .number, .number, .number, .number, .number]
  | .arc => [.number, .number, .number, .flag, .flag, .number, .number]

/-- How many parameters a group has. -/
def arity (k : Kind) : Nat := k.slots.length

/-- The number that stands for a flag. -/
def ofFlag (b : Bool) : Single := if b then 1 else 0

/-- The parameters of a group as numbers. -/
def numbers : (k : Kind) → k.Group → List Single
  | .move, p | .line, p | .smoothQuadratic, p => [p.x, p.y]
  | .horizontal, v | .vertical, v => [v]
  | .cubic, g => [g.control1.x, g.control1.y, g.control2.x, g.control2.y, g.stop.x, g.stop.y]
  | .smoothCubic, g => [g.control2.x, g.control2.y, g.stop.x, g.stop.y]
  | .quadratic, g => [g.control.x, g.control.y, g.stop.x, g.stop.y]
  | .arc, g => [g.radiusX, g.radiusY, g.angle, ofFlag g.large, ofFlag g.clockwise, g.stop.x,
      g.stop.y]

/-- The group with the given parameters, if their number is right. -/
def ofNumbers? : (k : Kind) → List Single → Option k.Group
  | .move, [x, y] | .line, [x, y] | .smoothQuadratic, [x, y] => some ⟨x, y⟩
  | .horizontal, [v] | .vertical, [v] => some v
  | .cubic, [x₁, y₁, x₂, y₂, x, y] => some ⟨⟨x₁, y₁⟩, ⟨x₂, y₂⟩, ⟨x, y⟩⟩
  | .smoothCubic, [x₂, y₂, x, y] => some ⟨⟨x₂, y₂⟩, ⟨x, y⟩⟩
  | .quadratic, [x₁, y₁, x, y] => some ⟨⟨x₁, y₁⟩, ⟨x, y⟩⟩
  | .arc, [rx, ry, angle, large, sweep, x, y] =>
    some ⟨rx, ry, angle, large == 1, sweep == 1, ⟨x, y⟩⟩
  | _, _ => none

/-- Where the pen stands after one group, having started from `pen`. -/
def land : (k : Kind) → Mode → (pen : Point) → k.Group → Point
  | .horizontal, .absolute, pen, x => ⟨x, pen.y⟩
  | .horizontal, .relative, pen, x => ⟨pen.x + x, pen.y⟩
  | .vertical, .absolute, pen, y => ⟨pen.x, y⟩
  | .vertical, .relative, pen, y => ⟨pen.x, pen.y + y⟩
  | .move, .absolute, _, p | .line, .absolute, _, p | .smoothQuadratic, .absolute, _, p => p
  | .move, .relative, pen, p | .line, .relative, pen, p | .smoothQuadratic, .relative, pen, p =>
    pen + p
  | .cubic, .absolute, _, g => g.stop
  | .cubic, .relative, pen, g => pen + g.stop
  | .smoothCubic, .absolute, _, g => g.stop
  | .smoothCubic, .relative, pen, g => pen + g.stop
  | .quadratic, .absolute, _, g => g.stop
  | .quadratic, .relative, pen, g => pen + g.stop
  | .arc, .absolute, _, g => g.stop
  | .arc, .relative, pen, g => pen + g.stop

/-- Maps every point of a group. A lone coordinate is not a point and stays. -/
def mapPoints (f : Point → Point) : (k : Kind) → k.Group → k.Group
  | .move, p | .line, p | .smoothQuadratic, p => f p
  | .horizontal, v | .vertical, v => v
  | .cubic, g => ⟨f g.control1, f g.control2, f g.stop⟩
  | .smoothCubic, g => ⟨f g.control2, f g.stop⟩
  | .quadratic, g => ⟨f g.control, f g.stop⟩
  | .arc, g => { g with stop := f g.stop }

/-- Displaces a group. -/
def shift (offset : Point) : (k : Kind) → k.Group → k.Group
  | .horizontal, x => x + offset.x
  | .vertical, y => y + offset.y
  | k, g => k.mapPoints (· + offset) g

/-- A group as it reads in another mode, with the pen at `pen`. -/
def convert (k : Kind) (target : Mode) (pen : Point) (g : k.Group) : k.Group :=
  match target with
  | .absolute => k.shift pen g
  | .relative => k.shift (-pen) g

/-- A list of groups as it reads in the mode `target`, with the pen at `pen` before the first; the
groups are given in the other mode. -/
def convertAll (k : Kind) (target : Mode) : (pen : Point) → List k.Group → List k.Group
  | _, [] => []
  | pen, g :: gs =>
    let g' := k.convert target pen g
    let pen' :=
      match target with
      | .absolute => k.land .absolute pen g'
      | .relative => k.land .absolute pen g
    g' :: convertAll k target pen' gs

@[simp] theorem length_convertAll (k : Kind) (target : Mode) (pen : Point) (gs : List k.Group) :
    (k.convertAll target pen gs).length = gs.length := by
  induction gs generalizing pen with
  | nil => rfl
  | cons g gs ih => simp [convertAll, ih]

end Kind

/-! ## Commands -/

/-- A path command. -/
inductive Command
  /-- Draws one segment for every group; after a move, the groups past the first draw lines. -/
  | draw (kind : Kind) (mode : Mode) (groups : List kind.Group)
  /-- Returns to the start of the subpath. -/
  | close

namespace Command

/-- The kind of a drawing command. -/
def kind? : Command → Option Kind
  | .draw k _ _ => some k
  | .close => none

/-- The mode of a drawing command. -/
def mode? : Command → Option Mode
  | .draw _ m _ => some m
  | .close => none

/-- Whether the command has the given kind. -/
def isKind (c : Command) (k : Kind) : Bool := c.kind? == some k

/-- Whether the command is drawn by displacements. -/
def isRelative (c : Command) : Bool := c.mode? == some .relative

/-- How many parameter groups the command has. -/
def groupCount : Command → Nat
  | .draw _ _ gs => gs.length
  | .close => 0

/-- The parameters of all groups. -/
def numbers : Command → List (List Single)
  | .draw k _ gs => gs.map k.numbers
  | .close => []

/-- Equality of kind, mode and parameters, these compared as numbers: a NaN differs from itself,
and the zeros are equal. -/
instance : BEq Command :=
  ⟨fun c d => c.kind? == d.kind? && c.mode? == d.mode? && c.numbers == d.numbers⟩

/-- The command in the mode `target`, with the pen at `pen` before it. -/
def inMode (c : Command) (target : Mode) (pen : Point) : Command :=
  match c with
  | .draw k mode groups =>
    if mode = target then c else .draw k target (k.convertAll target pen groups)
  | .close => .close

@[simp] theorem inMode_close (target : Mode) (pen : Point) :
    Command.close.inMode target pen = .close := rfl

/-- A command stays as it is in its own mode. -/
theorem inMode_of_mode?_eq {c : Command} {mode : Mode} (h : c.mode? = some mode) (pen : Point) :
    c.inMode mode pen = c := by
  cases c with
  | draw k m gs =>
    simp only [mode?, Option.some.injEq] at h
    simp [inMode, h]
  | close => rfl

@[simp] theorem kind?_inMode (c : Command) (target : Mode) (pen : Point) :
    (c.inMode target pen).kind? = c.kind? := by
  cases c with
  | draw k m gs =>
    rw [inMode]
    split <;> rfl
  | close => rfl

/-- A drawing command gets the mode that is asked for. -/
@[simp] theorem mode?_inMode (c : Command) (target : Mode) (pen : Point) :
    (c.inMode target pen).mode? = c.mode?.map fun _ => target := by
  cases c with
  | draw k m gs =>
    rw [inMode]
    split
    · next h => simp [mode?, h]
    · rfl
  | close => rfl

@[simp] theorem groupCount_inMode (c : Command) (target : Mode) (pen : Point) :
    (c.inMode target pen).groupCount = c.groupCount := by
  cases c with
  | draw k m gs =>
    rw [inMode]
    split
    · rfl
    · exact Kind.length_convertAll k target pen gs
  | close => rfl

end Command

end VectorGraphics.Path
