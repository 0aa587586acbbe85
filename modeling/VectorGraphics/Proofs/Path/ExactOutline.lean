import VectorGraphics.Proofs.Geometry.Beziers
import VectorGraphics.Proofs.Path.Hulls
import VectorGraphics.Proofs.Path.Strokes

/-!
# Outlines in any arithmetic

What a path draws, and the box around it, are computed with sums, products, extremes and lengths.
Here both are computed with numbers of any kind that has these operations (`Arithmetic`), group by
group. With singles this is the outline of the path and its box (`pieces_single`, `box?_single`);
with reals it is what they would be if nothing were rounded.
-/

namespace VectorGraphics.Path

/-! ## Arithmetic -/

/-- The operations by which outlines and their boxes are computed, besides sums, differences and
products. -/
class Arithmetic (α : Type) [Add α] [Sub α] [Mul α] where
  /-- The number that a coordinate stands for. -/
  ofSingle : Single → α
  min : α → α → α
  max : α → α → α
  abs : α → α
  /-- The length of the vector with the given coordinates. -/
  hypot : α → α → α

instance : Arithmetic Single where
  ofSingle := id
  min := Single.min
  max := Single.max
  abs := Float32.abs
  hypot := Single.hypot

noncomputable instance : Arithmetic ℝ where
  ofSingle x := x.value
  min := Min.min
  max := Max.max
  abs x := |x|
  hypot x y := √(x ^ 2 + y ^ 2)

/-- A point with coordinates of any kind. -/
abbrev Spot (α : Type) := α × α

section

variable {α : Type} [Add α] [Sub α] [Mul α] [Arithmetic α]

/-- The spot that a written point is. -/
def Spot.of (p : Point) : Spot α := (Arithmetic.ofSingle p.x, Arithmetic.ofSingle p.y)

/-- The reflection of a control point about the pen, or the pen if there is none. -/
def Spot.reflect (control? : Option (Spot α)) (pen : Spot α) : Spot α :=
  match control? with
  | some c => (pen.1 * Arithmetic.ofSingle 2 - c.1, pen.2 * Arithmetic.ofSingle 2 - c.2)
  | none => pen

/-- A coordinate as a position, with that of the pen before it. -/
def Mode.position (m : Mode) (pen : α) (x : Single) : α :=
  match m with
  | .absolute => Arithmetic.ofSingle x
  | .relative => Arithmetic.ofSingle x + pen

/-- A point as a position, with the pen before it. -/
def Mode.spot (m : Mode) (pen : Spot α) (p : Point) : Spot α :=
  (m.position pen.1 p.x, m.position pen.2 p.y)

end

/-! ## What is drawn -/

/-- The ellipse of an arc with its flags. -/
structure ArcShape (α : Type) where
  radiusX : α
  radiusY : α
  /-- The angle of the first axis to the x axis, in degrees. -/
  angle : α
  large : Bool
  clockwise : Bool

/-- What one group draws. -/
inductive Piece (α : Type)
  | move (stop : Spot α)
  /-- A Bézier curve with the points after its start; with one point it is a line. -/
  | curve (start : Spot α) (points : List (Spot α))
  | arc (start : Spot α) (shape : ArcShape α) (stop : Spot α)
  /-- The way back to the start of the subpath. -/
  | close (start stop : Spot α)

/-- One group of a path by itself, a command without groups, or a close. -/
inductive Action
  | draw (kind : Kind) (mode : Mode) (group : kind.Group)
  | skip (kind : Kind)
  | close

/-- The groups of a command one by one. Points after the first of a move are lines. -/
def Command.actions : Command → List Action
  | .draw k _ [] => [.skip k]
  | .draw .move m (p :: ps) => .draw .move m p :: ps.map (.draw .line m)
  | .draw k m gs => gs.map (.draw k m)
  | .close => [.close]

/-! ## Walking -/

/-- The state between two groups: the pen, the start of the subpath and the last control points. -/
structure Walker (α : Type) where
  point : Spot α
  start? : Option (Spot α) := none
  cubic? : Option (Spot α) := none
  quadratic? : Option (Spot α) := none

section

variable {α : Type} [Add α] [Sub α] [Mul α] [Arithmetic α]

/-- What is drawn by one group. -/
def Walker.draw (w : Walker α) (m : Mode) : (k : Kind) → k.Group → Piece α
  | .move, p => .move (m.spot w.point p)
  | .line, p => .curve w.point [m.spot w.point p]
  | .horizontal, x => .curve w.point [(m.position w.point.1 x, w.point.2)]
  | .vertical, y => .curve w.point [(w.point.1, m.position w.point.2 y)]
  | .cubic, g =>
    .curve w.point [m.spot w.point g.control1, m.spot w.point g.control2, m.spot w.point g.stop]
  | .smoothCubic, g =>
    .curve w.point
      [.reflect w.cubic? w.point, m.spot w.point g.control2, m.spot w.point g.stop]
  | .quadratic, g => .curve w.point [m.spot w.point g.control, m.spot w.point g.stop]
  | .smoothQuadratic, p => .curve w.point [.reflect w.quadratic? w.point, m.spot w.point p]
  | .arc, g =>
    .arc w.point
      ⟨Arithmetic.ofSingle g.radiusX, Arithmetic.ofSingle g.radiusY, Arithmetic.ofSingle g.angle,
        g.large, g.clockwise⟩
      (m.spot w.point g.stop)

/-- The state after one group. -/
def Walker.pass (w : Walker α) (m : Mode) : (k : Kind) → k.Group → Walker α
  | .move, p => { point := m.spot w.point p, start? := some (m.spot w.point p) }
  | .line, p => { point := m.spot w.point p, start? := w.start? }
  | .horizontal, x => { point := (m.position w.point.1 x, w.point.2), start? := w.start? }
  | .vertical, y => { point := (w.point.1, m.position w.point.2 y), start? := w.start? }
  | .cubic, g =>
    { point := m.spot w.point g.stop, start? := w.start?
      cubic? := some (m.spot w.point g.control2) }
  | .smoothCubic, g =>
    { point := m.spot w.point g.stop, start? := w.start?
      cubic? := some (m.spot w.point g.control2) }
  | .quadratic, g =>
    { point := m.spot w.point g.stop, start? := w.start?
      quadratic? := some (m.spot w.point g.control) }
  | .smoothQuadratic, p =>
    { point := m.spot w.point p, start? := w.start?
      quadratic? := some (.reflect w.quadratic? w.point) }
  | .arc, g => { point := m.spot w.point g.stop, start? := w.start? }

/-- What a path draws from some state on. -/
def Walker.walk (w : Walker α) : List Action → List (Piece α)
  | [] => []
  | .draw k m g :: as => w.draw m k g :: (w.pass m k g).walk as
  | .skip k :: as =>
    Walker.walk
      { point := w.point, start? := w.start?
        quadratic? := if k = .smoothQuadratic then w.quadratic? else none } as
  | .close :: as =>
    .close w.point (w.start?.getD w.point)
      :: Walker.walk { point := w.start?.getD w.point, start? := w.start? } as

variable (α) in
/-- What a path draws. -/
def pieces (cs : List Command) : List (Piece α) :=
  Walker.walk { point := .of .origin } (cs.flatMap Command.actions)

/-! ## Boxes -/

/-- How far the box of an arc reaches from the start of the arc. -/
def ArcShape.reach (e : ArcShape α) (start stop : Spot α) : α :=
  Arithmetic.max
    (Arithmetic.ofSingle 2 * Arithmetic.max (Arithmetic.abs e.radiusX) (Arithmetic.abs e.radiusY))
    (Arithmetic.hypot (start.1 - stop.1) (start.2 - stop.2))

/-- The points that span a piece, apart from its start. -/
def Piece.hull : Piece α → List (Spot α)
  | .move p => [p]
  | .curve _ ps => ps
  | .arc a e z =>
    [(a.1 - e.reach a z, a.2 - e.reach a z), (a.1 + e.reach a z, a.2 + e.reach a z), z]
  | .close .. => []

/-- A box given by the corners with the smallest and with the largest coordinates. -/
structure Box (α : Type) where
  low : Spot α
  high : Spot α

/-- The box extended to a point. -/
def Box.insert (b : Box α) (p : Spot α) : Box α :=
  ⟨(Arithmetic.min b.low.1 p.1, Arithmetic.min b.low.2 p.2),
    (Arithmetic.max b.high.1 p.1, Arithmetic.max b.high.2 p.2)⟩

/-- The box of some points, if there are any. -/
def Box.of? : List (Spot α) → Option (Box α)
  | [] => none
  | p :: ps => some (ps.foldl insert ⟨p, p⟩)

variable (α) in
/-- The box around what a path draws. -/
def box? (cs : List Command) : Option (Box α) :=
  Box.of? ((pieces α cs).flatMap Piece.hull)

end

/-! ## Singles -/

/-- The coordinates of a point. -/
def spot (p : Point) : Spot Single := (p.x, p.y)

/-- A segment as a piece. -/
def Segment.piece : Segment → Piece Single
  | .move p => .move (spot p)
  | .line a z => .curve (spot a) [spot z]
  | .cubic a c d z => .curve (spot a) [spot c, spot d, spot z]
  | .quadratic a c z => .curve (spot a) [spot c, spot z]
  | .arc a g => .arc (spot a) ⟨g.radiusX, g.radiusY, g.angle, g.large, g.clockwise⟩ (spot g.stop)
  | .close a z => .close (spot a) (spot z)

/-- The state of a walk with a pen and the last control points. -/
def Walker.of (pen : Pen) (r : Reflection) : Walker Single where
  point := spot pen.point
  start? := pen.starts.head?.map spot
  cubic? := r.cubic.map spot
  quadratic? := r.quadratic.map spot

theorem reflect_map (c? : Option Point) (pen : Point) :
    Spot.reflect (c?.map spot) (spot pen) = spot (Reflection.reflect c? pen) := by
  cases c? <;> rfl

namespace Walker

theorem draw_of (pen : Pen) (r : Reflection) (m : Mode) (k : Kind) (g : k.Group) :
    (Walker.of pen r).draw m k g = (k.segment r pen.point (k.absolute m pen.point g)).piece := by
  cases k with
  | smoothCubic =>
    have himplied := reflect_map r.cubic pen.point
    cases m <;> exact congrArg (fun c => Piece.curve _ [c, _, _]) himplied
  | smoothQuadratic =>
    have himplied := reflect_map r.quadratic pen.point
    cases m <;> exact congrArg (fun c => Piece.curve _ [c, _]) himplied
  | _ => cases m <;> rfl

theorem pass_of {k : Kind} (hk : k ≠ .move) (pen : Pen) (r : Reflection) (m : Mode) (g : k.Group) :
    (Walker.of pen r).pass m k g = .of { pen with point := k.land m pen.point g }
      (r.update pen.point (.draw k .absolute [k.absolute m pen.point g])) := by
  rw [← Kind.land_absolute]
  cases k with
  | move => exact absurd rfl hk
  | smoothQuadratic =>
    have himplied := reflect_map r.quadratic pen.point
    cases m <;> exact congrArg (fun c => Walker.mk _ _ none (some c)) himplied
  | _ => cases m <;> rfl

theorem pass_move (pen : Pen) (r : Reflection) (m : Mode) (p : Point) :
    (Walker.of pen r).pass m .move p = .of ⟨Kind.move.land m pen.point p,
      Kind.move.land m pen.point p :: pen.starts⟩ {} := by
  rw [← Kind.land_absolute]
  cases m <;> rfl

/-- Groups of one kind draw their strokes, and lead to where the whole command leads. -/
theorem walk_groups {k : Kind} (hk : k ≠ .move) (m : Mode) (pen : Pen) (r : Reflection)
    (g : k.Group) (gs : List k.Group) (as : List Action) :
    (Walker.of pen r).walk ((g :: gs).map (.draw k m) ++ as)
      = (k.strokes r pen.point (k.absolutes m pen.point (g :: gs))).map (·.segment.piece)
        ++ (Walker.of { pen with point := (g :: gs).foldl (k.land m) pen.point }
            (r.update pen.point
              (.draw k .absolute (k.absolutes m pen.point (g :: gs))))).walk as := by
  induction gs generalizing pen r g with
  | nil =>
    rw [Kind.absolutes_cons, Kind.absolutes_nil]
    simp only [List.map_cons, List.map_nil, List.cons_append, List.nil_append, walk, Kind.strokes,
      List.foldl_cons, List.foldl_nil, draw_of, pass_of hk]
  | cons h gs ih =>
    rw [List.map_cons, List.cons_append, walk, draw_of, pass_of hk, ih, Kind.absolutes_cons,
      Kind.absolutes_cons k m pen.point, Kind.absolutes_cons, Reflection.update_cons_cons,
      Kind.land_absolute]
    simp only [Kind.strokes, List.map_cons, List.cons_append, List.foldl_cons, Kind.land_absolute]

/-- A command without groups draws nothing and forgets control points. -/
theorem walk_skip (k : Kind) (m : Mode) (pen : Pen) (r : Reflection) (as : List Action) :
    (Walker.of pen r).walk (.skip k :: as)
      = (Walker.of pen (r.update pen.point (.draw k m []))).walk as := by
  cases k <;> rfl

theorem walk_move (m : Mode) (pen : Pen) (r : Reflection) (p : Point) (ps : List Point)
    (as : List Action) : (Walker.of pen r).walk ((Command.draw .move m (p :: ps)).actions ++ as)
      = ((Command.draw .move .absolute (Kind.move.absolutes m pen.point (p :: ps))).strokes
          pen r).map (·.segment.piece)
        ++ (Walker.of (pen.advance (.draw .move m (p :: ps))) {}).walk as := by
  rw [Command.actions, List.cons_append, walk, draw_of, pass_move, Kind.absolutes_cons,
    absolutes_move]
  cases ps with
  | nil =>
    rw [Kind.absolutes_nil]
    rfl
  | cons q qs =>
    have hland : Kind.move.absolute m pen.point p = Kind.move.land m pen.point p :=
      Kind.move.land_absolute m pen.point p
    rw [walk_groups (k := .line) (by decide) m _ _ q qs as, Command.strokes, List.map_cons,
      List.cons_append, hland, Pen.advance]
    cases m <;> rfl

/-- A command draws the segments of its absolute form, and leads to where it leads. -/
theorem walk_actions (c : Command) (pen : Pen) (r : Reflection) (as : List Action) :
    (Walker.of pen r).walk (c.actions ++ as)
      = ((c.inMode .absolute pen.point).segments pen r).map Segment.piece
        ++ (Walker.of (pen.advance c)
            (r.update pen.point (c.inMode .absolute pen.point))).walk as := by
  rw [← Command.map_segment_strokes, List.map_map]
  cases c with
  | close =>
    obtain ⟨point, starts⟩ := pen
    cases starts <;> rfl
  | draw k m gs =>
    rw [Command.inMode_absolute]
    cases gs with
    | nil =>
      rw [Kind.absolutes_nil]
      cases k <;> exact walk_skip _ m pen r as
    | cons g gs =>
      by_cases hk : k = .move
      · subst hk
        exact walk_move m pen r g gs as
      · rw [Command.strokes_draw hk, Pen.advance_draw hk]
        have hactions : (Command.draw k m (g :: gs)).actions = (g :: gs).map (.draw k m) := by
          cases k <;> first | rfl | exact absurd rfl hk
        rw [hactions]
        exact walk_groups hk m pen r g gs as

end Walker

theorem walk_flatMap_actions (cs : List Command) (pen : Pen) (r : Reflection) :
    (Walker.of pen r).walk (cs.flatMap Command.actions)
      = (outlineFrom pen r cs).map Segment.piece := by
  induction cs generalizing pen r with
  | nil => rfl
  | cons c cs ih =>
    rw [List.flatMap_cons, Walker.walk_actions, ih, outlineFrom, List.map_append]

/-- With singles, what a path draws is its outline. -/
theorem pieces_single (cs : List Command) : pieces Single cs = (outline cs).map Segment.piece :=
  walk_flatMap_actions cs {} {}

theorem hull_piece (s : Segment) : s.piece.hull = s.hull.map spot := by
  cases s <;> rfl

/-- A box of singles as a box. -/
def Bounds.box (b : Bounds) : Box Single := ⟨spot b.low, spot b.high⟩

theorem of?_map_spot (ps : List Point) :
    Box.of? (ps.map spot) = (Bounds.ofPoints? ps).map Bounds.box := by
  have hfoldl (b : Bounds) (ps : List Point) :
      (ps.map spot).foldl Box.insert b.box = (ps.foldl Bounds.insert b).box := by
    induction ps generalizing b with
    | nil => rfl
    | cons p ps ih => exact ih (b.insert p)
  cases ps with
  | nil => rfl
  | cons p ps => exact congrArg some (hfoldl (.ofPoint p) ps)

/-- With singles, the box is that of the path. -/
theorem box?_single (cs : List Command) : box? Single cs = (Bounds.ofPath? cs).map Bounds.box := by
  rw [box?, pieces_single, Bounds.ofPath?_eq, ← of?_map_spot, List.flatMap_map, List.map_flatMap]
  exact congrArg Box.of? (List.flatMap_congr fun s _ => hull_piece s)

end VectorGraphics.Path
