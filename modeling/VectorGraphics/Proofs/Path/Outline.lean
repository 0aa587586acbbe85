import VectorGraphics.Optimizer.Runs
import VectorGraphics.Proofs.Path.AbsoluteForms

/-!
# The outline of a path

`outlineFrom` walks a path with a pen and the last control points and lists all that is drawn, in
absolute coordinates: where the pen is moved to, each segment with its control points, whether
written or implied, and each close.

A path that begins with a move does not depend on what is walked before it. Appended to another
path, with the move at its front counted from the origin, it is drawn as it is by itself
(`outlineFrom_appendable`).
-/

namespace VectorGraphics.Path

/-- One step of the pen, in absolute coordinates. -/
inductive Segment
  | move (stop : Point)
  | line (start stop : Point)
  | cubic (start control1 control2 stop : Point)
  | quadratic (start control stop : Point)
  /-- An arc with its ellipse, flags and end. -/
  | arc (start : Point) (arc : ArcGroup)
  /-- The way back to the start of the subpath. -/
  | close (start stop : Point)

/-! ## Walking -/

/-- The segments of absolute groups, each of which starts where the one before ends. -/
def Kind.chain (k : Kind) (draw : (start : Point) → k.Group → Segment) :
    (start : Point) → List k.Group → List Segment
  | _, [] => []
  | start, g :: gs => draw start g :: k.chain draw (k.land .absolute start g) gs

/-- Smooth cubic curves, of which the first has the control point `implied`. -/
def smoothCubics (implied start : Point) : List SmoothCubicGroup → List Segment
  | [] => []
  | g :: gs =>
    .cubic start implied g.control2 g.stop
      :: smoothCubics (g.stop * (2 : Single) - g.control2) g.stop gs

/-- Smooth quadratic curves, of which the first has the control point `control`. -/
def smoothQuadratics (control start : Point) : List Point → List Segment
  | [] => []
  | p :: ps =>
    .quadratic start control p :: smoothQuadratics (p * (2 : Single) - control) p ps

/-- What an absolute command draws. Points after the first of a move are lines. -/
def Command.segments (pen : Pen) (r : Reflection) : Command → List Segment
  | .draw .move _ [] => []
  | .draw .move _ (p :: ps) => .move p :: Kind.line.chain .line p ps
  | .draw .line _ ps => Kind.line.chain .line pen.point ps
  | .draw .horizontal _ xs =>
    Kind.horizontal.chain (fun start x => .line start ⟨x, start.y⟩) pen.point xs
  | .draw .vertical _ ys =>
    Kind.vertical.chain (fun start y => .line start ⟨start.x, y⟩) pen.point ys
  | .draw .cubic _ gs =>
    Kind.cubic.chain (fun start g => .cubic start g.control1 g.control2 g.stop) pen.point gs
  | .draw .smoothCubic _ gs => smoothCubics (r.cubicAt pen.point) pen.point gs
  | .draw .quadratic _ gs =>
    Kind.quadratic.chain (fun start g => .quadratic start g.control g.stop) pen.point gs
  | .draw .smoothQuadratic _ ps => smoothQuadratics (r.quadraticAt pen.point) pen.point ps
  | .draw .arc _ gs => Kind.arc.chain .arc pen.point gs
  | .close => [.close pen.point (pen.advance .close).point]

/-- What the rest of a path draws, with the pen and the last control points before it. -/
def outlineFrom (pen : Pen) (r : Reflection) : List Command → List Segment
  | [] => []
  | c :: cs =>
    let absolute := c.inMode .absolute pen.point
    absolute.segments pen r ++ outlineFrom (pen.advance c) (r.update pen.point absolute) cs

/-- What a path draws. -/
def outline (commands : List Command) : List Segment := outlineFrom {} {} commands

/-- The last control points after some commands. -/
def Reflection.updateAll (r : Reflection) : Pen → List Command → Reflection
  | _, [] => r
  | pen, c :: cs =>
    (r.update pen.point (c.inMode .absolute pen.point)).updateAll (pen.advance c) cs

theorem outlineFrom_append (pen : Pen) (r : Reflection) (cs ds : List Command) :
    outlineFrom pen r (cs ++ ds)
      = outlineFrom pen r cs ++ outlineFrom (pen.advanceAll cs) (r.updateAll pen cs) ds := by
  induction cs generalizing pen r with
  | nil => rfl
  | cons c cs ih =>
    rw [List.cons_append, outlineFrom, ih, outlineFrom, List.append_assoc]
    rfl

namespace Reflection

/-- The last control points after several groups are those after the first, carried over the
rest. -/
theorem update_cons_cons (r : Reflection) (pen : Point) (k : Kind) (g h : k.Group)
    (gs : List k.Group) : r.update pen (.draw k .absolute (g :: h :: gs))
      = (r.update pen (.draw k .absolute [g])).update (k.land .absolute pen g)
          (.draw k .absolute (h :: gs)) := by
  cases k <;> rfl

theorem updateAll_append (r : Reflection) (pen : Pen) (cs ds : List Command) :
    r.updateAll pen (cs ++ ds) = (r.updateAll pen cs).updateAll (pen.advanceAll cs) ds := by
  induction cs generalizing r pen with
  | nil => rfl
  | cons c cs ih => exact ih _ _

/-- One command more. -/
theorem updateAll_take_succ (r : Reflection) (pen : Pen) {cs : List Command} {i : Nat}
    {c : Command} (h : cs[i]? = some c) : r.updateAll pen (cs.take (i + 1))
      = (r.updateAll pen (cs.take i)).update (pen.advanceAll (cs.take i)).point
          (c.inMode .absolute (pen.advanceAll (cs.take i)).point) := by
  rw [List.take_add_one, h, updateAll_append]
  rfl

end Reflection

/-! ## What a walk depends on -/

/-- Pens at the same point that a close takes to the same point. -/
structure Pen.Agrees (p q : Pen) : Prop where
  point : p.point = q.point
  start : p.starts.head? = q.starts.head?

namespace Pen.Agrees

variable {p q : Pen}

theorem advance (h : p.Agrees q) (c : Command) : (p.advance c).Agrees (q.advance c) := by
  obtain ⟨hpoint, hstart⟩ := h
  cases c with
  | close => exact ⟨by rw [Pen.advance, Pen.advance, hpoint, hstart], hstart⟩
  | draw k m gs =>
    cases k with
    | move =>
      cases gs with
      | nil => exact ⟨hpoint, hstart⟩
      | cons g gs =>
        constructor <;> simp only [Pen.advance, hpoint, List.head?_cons]
    | _ => exact ⟨by simp only [Pen.advance, hpoint], hstart⟩

theorem segments (h : p.Agrees q) (r : Reflection) (c : Command) :
    c.segments p r = c.segments q r := by
  cases c with
  | close => rw [Command.segments, Command.segments, h.point, (h.advance .close).point]
  | draw k m gs =>
    cases k with
    | move => cases gs <;> rfl
    | _ => simp only [Command.segments, h.point]

theorem outlineFrom (h : p.Agrees q) (r : Reflection) (cs : List Command) :
    Path.outlineFrom p r cs = Path.outlineFrom q r cs := by
  induction cs generalizing p q r with
  | nil => rfl
  | cons c cs ih =>
    rw [Path.outlineFrom, Path.outlineFrom, h.point, h.segments, ih (h.advance c)]

end Pen.Agrees

/-! ## Paths that begin with a move -/

/-- The path begins with a move to a point. -/
def BeginsWithMove (cs : List Command) : Prop :=
  ∃ m p ps rest, cs = .draw .move m (p :: ps) :: rest

/-- A move counted from the origin becomes absolute, and then leads to where it leads by itself,
wherever the pen is. -/
theorem exists_inMode_move (m : Mode) (p : Point) (ps : List Point) :
    ∃ q qs, (Command.draw .move m (p :: ps)).inMode .absolute .origin
        = .draw .move .absolute (q :: qs)
      ∧ ∀ pen : Pen, (pen.advance (.draw .move .absolute (q :: qs))).Agrees
          (Pen.advance {} (.draw .move m (p :: ps))) := by
  have hmode : (Command.draw .move m (p :: ps)).inMode .absolute .origin
      = .draw .move .absolute (Kind.move.absolute m .origin p
          :: Kind.move.absolutes m (Kind.move.land m .origin p) ps) := by
    rw [Command.inMode_absolute, Kind.absolutes_cons]
  refine ⟨_, _, hmode, fun pen => ?_⟩
  have hstart := Pen.advance_inMode_absolute {} (.draw .move m (p :: ps))
  rw [hmode] at hstart
  rw [← hstart]
  -- The first point of an absolute move overrides where the pen is.
  exact ⟨rfl, rfl⟩

/-- A path that begins with a move is drawn as it is by itself when it is appended to another
one. -/
theorem outlineFrom_appendable {cs : List Command} (h : BeginsWithMove cs) (pen : Pen)
    (r : Reflection) : outlineFrom pen r (Optimizer.Run.appendable cs) = outline cs := by
  obtain ⟨m, p, ps, rest, rfl⟩ := h
  obtain ⟨q, qs, hmode, hagrees⟩ := exists_inMode_move m p ps
  have hupdate (r : Reflection) (pen : Point) :
      r.update pen (.draw .move .absolute (q :: qs)) = {} := rfl
  rw [Optimizer.Run.appendable, hmode, outlineFrom, Command.inMode_of_mode?_eq rfl, outline,
    outlineFrom]
  dsimp only
  rw [hmode, hupdate, hupdate, (hagrees pen).outlineFrom]
  rfl

end VectorGraphics.Path
