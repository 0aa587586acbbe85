import Mathlib.Data.List.Forall2
import VectorGraphics.Path.Pen

/-!
# What a walk along a path meets

`events` lists the moves, lines and closes that a pen meets along a path, with the points they go
to. Events compare as numbers do, so that `List.eraseReps` collapses a run of equal events to one.
-/

namespace VectorGraphics.Path

/-- One stroke of the pen, with the point where it ends. -/
inductive Event
  | move (p : Point)
  | line (p : Point)
  | close (p : Point)

namespace Event

/-- The point where a stroke ends. -/
def point : Event → Point
  | move p | line p | close p => p

/-- Equality of the kinds of stroke and, as numbers, of the points. -/
instance : BEq Event where
  beq
    | move p, move q | line p, line q | close p, close q => p == q
    | _, _ => false

end Event

/-- Where the pen stands after each of a list of groups. -/
def Kind.landings (k : Kind) (mode : Mode) : Point → List k.Group → List Point
  | _, [] => []
  | pen, g :: gs => k.land mode pen g :: k.landings mode (k.land mode pen g) gs

/-- What the pen meets along one command; the points of a move after the first are lines. -/
def Command.events (pen : Pen) : Command → List Event
  | .draw .move _ [] => []
  | .draw .move mode (p :: ps) =>
    .move (Kind.move.land mode pen.point p)
      :: (Kind.move.landings mode (Kind.move.land mode pen.point p) ps).map .line
  | .draw k mode gs => (k.landings mode pen.point gs).map .line
  | .close => [.close (pen.advance .close).point]

/-- What the pen meets along a list of commands. -/
def events (pen : Pen) : List Command → List Event
  | [] => []
  | c :: cs => c.events pen ++ events (pen.advance c) cs

/-! ## Runs of equal events -/

section EraseReps

variable {α β : Type}

theorem eraseRepsBy_loop_eq (r : α → α → Bool) (a : α) (as acc : List α) :
    List.eraseRepsBy.loop r a as acc = acc.reverse ++ List.eraseRepsBy.loop r a as [] := by
  induction as generalizing a acc with
  | nil => simp [List.eraseRepsBy.loop]
  | cons b as ih =>
    simp only [List.eraseRepsBy.loop]
    split
    · exact ih a acc
    · rw [ih b (a :: acc), ih b [a], List.reverse_cons, List.append_assoc]
      rfl

theorem eraseReps_cons_cons [BEq α] (a b : α) (as : List α) :
    (a :: b :: as).eraseReps
      = if a == b then (a :: as).eraseReps else a :: (b :: as).eraseReps := by
  simp only [List.eraseReps, List.eraseRepsBy, List.eraseRepsBy.loop]
  split
  · next h => rw [h, if_pos rfl]
  · next h =>
    rw [h, eraseRepsBy_loop_eq]
    rfl

/-- Lists whose members correspond, and compare alike, collapse alike. -/
theorem forall₂_eraseReps [BEq α] [BEq β] {R : α → β → Prop}
    (hR : ∀ {a b c d}, R a c → R b d → (a == b) = (c == d)) {as : List α} {cs : List β}
    (h : List.Forall₂ R as cs) : List.Forall₂ R as.eraseReps cs.eraseReps := by
  cases h with
  | nil => exact .nil
  | @cons a c as cs hac h =>
    induction h generalizing a c with
    | nil => exact .cons hac .nil
    | @cons b d as cs hbd h ih =>
      rw [eraseReps_cons_cons, eraseReps_cons_cons, hR hac hbd]
      split
      · exact ih hac
      · exact .cons hac (ih hbd)

end EraseReps

end VectorGraphics.Path
