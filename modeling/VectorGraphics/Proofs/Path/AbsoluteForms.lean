import VectorGraphics.Path.Curves
import VectorGraphics.Proofs.Number.Order
import VectorGraphics.Proofs.Path.Walks

/-!
# Commands in absolute form

A group drawn by displacements stands for an absolute one (`Kind.absolute`), and takes the pen to
the same point as that (`Kind.land_absolute`). Converting the groups of a command one after the
other follows the way of the pen over them (`Kind.convertAll_cons`), whichever the mode, so that a
command and its absolute form draw each of their groups from the same point.
-/

namespace VectorGraphics.Path

namespace Kind

/-- A group leads to where it leads in absolute coordinates. -/
@[simp] theorem land_absolute (k : Kind) (m : Mode) (pen : Point) (g : k.Group) :
    k.land .absolute pen (k.absolute m pen g) = k.land m pen g := by
  cases m with
  | absolute => rfl
  | relative =>
    cases k with
    | horizontal => exact Point.ext' (Single.add_comm g pen.x) rfl
    | vertical => exact Point.ext' rfl (Single.add_comm g pen.y)
    | _ => exact Point.add_comm _ pen

/-- The group after the first is converted where the pen is after the first. -/
theorem convertAll_cons (k : Kind) (target : Mode) (pen : Point) (g : k.Group)
    (gs : List k.Group) : k.convertAll target pen (g :: gs)
      = k.convert target pen g :: k.convertAll target (k.land target.opposite pen g) gs := by
  cases target with
  | absolute =>
    exact congrArg (_ :: k.convertAll .absolute · gs) (k.land_absolute .relative pen g)
  | relative => rfl

/-- Groups of either mode as absolute ones, with the pen at `pen` before the first. -/
def absolutes (k : Kind) : Mode → Point → List k.Group → List k.Group
  | .absolute, _, gs => gs
  | .relative, pen, gs => k.convertAll .absolute pen gs

@[simp] theorem absolutes_nil (k : Kind) (m : Mode) (pen : Point) : k.absolutes m pen [] = [] := by
  cases m <;> rfl

theorem absolutes_cons (k : Kind) (m : Mode) (pen : Point) (g : k.Group) (gs : List k.Group) :
    k.absolutes m pen (g :: gs) = k.absolute m pen g :: k.absolutes m (k.land m pen g) gs := by
  cases m with
  | absolute => rfl
  | relative => exact k.convertAll_cons .absolute pen g gs

/-- Groups of either mode take the pen to where their absolute forms do. -/
theorem foldl_land_absolutes (k : Kind) (m : Mode) (pen : Point) (gs : List k.Group) :
    (k.absolutes m pen gs).foldl (k.land .absolute) pen = gs.foldl (k.land m) pen := by
  induction gs generalizing pen with
  | nil => rw [absolutes_nil, List.foldl_nil, List.foldl_nil]
  | cons g gs ih => rw [absolutes_cons, List.foldl_cons, land_absolute, ih, List.foldl_cons]

end Kind

/-- The points of a move are those of a line in absolute form. -/
theorem absolutes_move (m : Mode) (pen : Point) (ps : List Point) :
    Kind.move.absolutes m pen ps = Kind.line.absolutes m pen ps := by
  induction ps generalizing pen with
  | nil => rw [Kind.absolutes_nil, Kind.absolutes_nil]
  | cons p ps ih =>
    rw [Kind.absolutes_cons, Kind.absolutes_cons, ih]
    cases m <;> rfl

theorem Command.inMode_absolute (k : Kind) (m : Mode) (gs : List k.Group) (pen : Point) :
    (Command.draw k m gs).inMode .absolute pen = .draw k .absolute (k.absolutes m pen gs) := by
  cases m <;> rfl

/-- A command moves the pen as its absolute form does. -/
theorem Pen.advance_inMode_absolute (pen : Pen) (c : Command) :
    pen.advance (c.inMode .absolute pen.point) = pen.advance c := by
  cases c with
  | close => rfl
  | draw k m gs =>
    rw [Command.inMode_absolute]
    by_cases hk : k = .move
    · subst hk
      cases gs with
      | nil => rw [Kind.absolutes_nil]; rfl
      | cons p ps =>
        have hland : Kind.move.land .absolute pen.point (Kind.move.absolute m pen.point p)
            = Kind.move.land m pen.point p := Kind.move.land_absolute m pen.point p
        rw [Kind.absolutes_cons, Pen.advance, Pen.advance, hland, Kind.foldl_land_absolutes]
    · rw [Pen.advance_draw hk, Pen.advance_draw hk, Kind.foldl_land_absolutes]

end VectorGraphics.Path
