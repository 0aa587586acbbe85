import VectorGraphics.Path.Pen

/-!
# Walks of the pen

How the pen moves over one drawing command, over the beginnings of a path, and over an absolute
command that is drawn twice.
-/

namespace VectorGraphics.Path

/-! ## Beginnings of a path -/

namespace Pen

/-- A drawing command other than a move leaves the subpaths alone. -/
theorem advance_draw {k : Kind} (hk : k ≠ .move) (m : Mode) (gs : List k.Group) (pen : Pen) :
    pen.advance (.draw k m gs) = { pen with point := gs.foldl (k.land m) pen.point } := by
  cases k <;> first | rfl | exact absurd rfl hk

theorem advanceAll_append (pen : Pen) (cs ds : List Command) :
    pen.advanceAll (cs ++ ds) = (pen.advanceAll cs).advanceAll ds :=
  List.foldl_append

/-- One command more. -/
theorem advanceAll_take_succ (pen : Pen) {cs : List Command} {i : Nat} {c : Command}
    (h : cs[i]? = some c) :
    pen.advanceAll (cs.take (i + 1)) = (pen.advanceAll (cs.take i)).advance c := by
  rw [List.take_add_one, h, advanceAll_append]
  rfl

end Pen

/-! ## Absolute commands -/

/-- An absolute group overrides the one before it. -/
theorem Kind.land_absolute_land (k : Kind) (p : Point) (g h : k.Group) :
    k.land .absolute (k.land .absolute p g) h = k.land .absolute p h := by
  cases k <;> rfl

/-- Of absolute groups the last one decides. -/
theorem Kind.foldl_land_absolute (k : Kind) (p : Point) (gs : List k.Group) (g : k.Group) :
    (gs ++ [g]).foldl (k.land .absolute) p = k.land .absolute p g := by
  rw [List.foldl_append, List.foldl_cons, List.foldl_nil]
  induction gs generalizing p with
  | nil => rfl
  | cons h gs ih => rw [List.foldl_cons, ih, k.land_absolute_land]

/-- Absolute groups that are drawn twice end where they end the first time. -/
theorem Kind.foldl_land_absolute_twice (k : Kind) (p : Point) (gs : List k.Group) :
    gs.foldl (k.land .absolute) (gs.foldl (k.land .absolute) p)
      = gs.foldl (k.land .absolute) p := by
  obtain rfl | ⟨hs, g, rfl⟩ := gs.eq_nil_or_concat
  · rfl
  · rw [List.concat_eq_append, k.foldl_land_absolute, k.foldl_land_absolute, k.land_absolute_land]

end VectorGraphics.Path
