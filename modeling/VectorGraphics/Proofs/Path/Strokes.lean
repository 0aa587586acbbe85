import VectorGraphics.Proofs.Path.Outline

/-!
# The strokes of a path

`strokes` lists what a path draws group by group: the kind of each group, the point at which it
starts and its segment, with the control points that are written or implied. Points after the first
of a move are lines. The walk keeps the pen and the last control points as `Pen.advance` and
`Reflection.update` say, and the segments that it passes are those of the outline
(`map_segment_strokes`).
-/

namespace VectorGraphics.Path

/-- What one group draws. -/
structure Stroke where
  /-- The kind of the group; a close has none. -/
  kind? : Option Kind
  /-- Where the pen stands before. -/
  start : Point
  segment : Segment

/-! ## Walking -/

/-- What an absolute group draws from `start`, after the last control points `r`. -/
def Kind.segment (r : Reflection) (start : Point) : (k : Kind) → k.Group → Segment
  | .move, p => .move p
  | .line, p => .line start p
  | .horizontal, x => .line start ⟨x, start.y⟩
  | .vertical, y => .line start ⟨start.x, y⟩
  | .cubic, g => .cubic start g.control1 g.control2 g.stop
  | .smoothCubic, g => .cubic start (r.cubicAt start) g.control2 g.stop
  | .quadratic, g => .quadratic start g.control g.stop
  | .smoothQuadratic, p => .quadratic start (r.quadraticAt start) p
  | .arc, g => .arc start g

/-- The strokes of absolute groups, each of which starts where the one before ends. -/
def Kind.strokes (k : Kind) : Reflection → (start : Point) → List k.Group → List Stroke
  | _, _, [] => []
  | r, start, g :: gs =>
    ⟨some k, start, k.segment r start g⟩
      :: k.strokes (r.update start (.draw k .absolute [g])) (k.land .absolute start g) gs

/-- The strokes of an absolute command. -/
def Command.strokes (pen : Pen) (r : Reflection) : Command → List Stroke
  | .draw .move _ [] => []
  | .draw .move _ (p :: ps) => ⟨some .move, pen.point, .move p⟩ :: Kind.line.strokes {} p ps
  | .draw k _ gs => k.strokes r pen.point gs
  | .close => [⟨none, pen.point, .close pen.point (pen.advance .close).point⟩]

/-- The strokes of the rest of a path, with the pen and the last control points before it. -/
def strokesFrom (pen : Pen) (r : Reflection) : List Command → List Stroke
  | [] => []
  | c :: cs =>
    let absolute := c.inMode .absolute pen.point
    absolute.strokes pen r ++ strokesFrom (pen.advance c) (r.update pen.point absolute) cs

/-- The strokes of a path. -/
def strokes (cs : List Command) : List Stroke := strokesFrom {} {} cs

/-- Groups other than those of a move are drawn one by one. -/
theorem Command.strokes_draw {k : Kind} (hk : k ≠ .move) (m : Mode) (gs : List k.Group) (pen : Pen)
    (r : Reflection) : (Command.draw k m gs).strokes pen r = k.strokes r pen.point gs := by
  cases k <;> first | rfl | exact absurd rfl hk

theorem strokesFrom_append (pen : Pen) (r : Reflection) (cs ds : List Command) :
    strokesFrom pen r (cs ++ ds)
      = strokesFrom pen r cs ++ strokesFrom (pen.advanceAll cs) (r.updateAll pen cs) ds := by
  induction cs generalizing pen r with
  | nil => rfl
  | cons c cs ih =>
    rw [List.cons_append, strokesFrom, ih, strokesFrom, List.append_assoc]
    rfl

/-! ## Where strokes start -/

/-- The points at which absolute groups start. -/
def Kind.starts (k : Kind) : Point → List k.Group → List Point
  | _, [] => []
  | start, g :: gs => start :: k.starts (k.land .absolute start g) gs

theorem Kind.map_start_strokes (k : Kind) (r : Reflection) (start : Point) (gs : List k.Group) :
    (k.strokes r start gs).map Stroke.start = k.starts start gs := by
  induction gs generalizing r start with
  | nil => rfl
  | cons g gs ih => exact congrArg (start :: ·) (ih _ _)

/-- The groups of a command start where the pen is led by those before. -/
theorem Command.map_start_strokes (k : Kind) (m : Mode) (gs : List k.Group) (pen : Pen)
    (r : Reflection) :
    ((Command.draw k m gs).strokes pen r).map Stroke.start = k.starts pen.point gs := by
  by_cases hk : k = .move
  · subst hk
    cases gs with
    | nil => rfl
    | cons p ps =>
      have hmove : Kind.line.starts p ps = Kind.move.starts p ps := by
        induction ps generalizing p with
        | nil => rfl
        | cons q qs ih => exact congrArg (p :: ·) (ih q)
      exact congrArg (pen.point :: ·) ((Kind.line.map_start_strokes {} p ps).trans hmove)
  · rw [Command.strokes_draw hk, Kind.map_start_strokes]

/-! ## The outline -/

namespace Kind

/-- Groups that imply no control point are chained. -/
theorem map_segment_strokes (k : Kind) {draw : Point → k.Group → Segment}
    (h : ∀ r start g, k.segment r start g = draw start g) (r : Reflection) (start : Point)
    (gs : List k.Group) : (k.strokes r start gs).map Stroke.segment = k.chain draw start gs := by
  induction gs generalizing r start with
  | nil => rfl
  | cons g gs ih => rw [strokes, List.map_cons, ih, chain, h]

theorem map_segment_strokes_smoothCubic (r : Reflection) (start : Point)
    (gs : List SmoothCubicGroup) : (smoothCubic.strokes r start gs).map Stroke.segment
      = smoothCubics (r.cubicAt start) start gs := by
  induction gs generalizing r start with
  | nil => rfl
  | cons g gs ih => exact congrArg (_ :: ·) (ih _ g.stop)

theorem map_segment_strokes_smoothQuadratic (r : Reflection) (start : Point) (ps : List Point) :
    (smoothQuadratic.strokes r start ps).map Stroke.segment
      = smoothQuadratics (r.quadraticAt start) start ps := by
  induction ps generalizing r start with
  | nil => rfl
  | cons p ps ih => exact congrArg (_ :: ·) (ih _ p)

end Kind

theorem Command.map_segment_strokes (c : Command) (pen : Pen) (r : Reflection) :
    (c.strokes pen r).map Stroke.segment = c.segments pen r := by
  cases c with
  | close => rfl
  | draw k m gs =>
    cases k with
    | move =>
      cases gs with
      | nil => rfl
      | cons p ps =>
        exact congrArg (_ :: ·) (Kind.line.map_segment_strokes (fun _ _ _ => rfl) {} p ps)
    | smoothCubic => exact Kind.map_segment_strokes_smoothCubic r pen.point gs
    | smoothQuadratic => exact Kind.map_segment_strokes_smoothQuadratic r pen.point gs
    | _ => exact Kind.map_segment_strokes _ (fun _ _ _ => rfl) r pen.point gs

theorem map_segment_strokesFrom (pen : Pen) (r : Reflection) (cs : List Command) :
    (strokesFrom pen r cs).map Stroke.segment = outlineFrom pen r cs := by
  induction cs generalizing pen r with
  | nil => rfl
  | cons c cs ih =>
    rw [strokesFrom, List.map_append, Command.map_segment_strokes, ih, outlineFrom]

/-- The segments of the strokes are the outline. -/
theorem map_segment_strokes (cs : List Command) :
    (strokes cs).map Stroke.segment = outline cs :=
  map_segment_strokesFrom {} {} cs

end VectorGraphics.Path
