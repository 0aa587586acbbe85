import VectorGraphics.Proofs.Number.Order

/-!
# The value of a single

`Single.value` is the rational number that a finite single stands for; infinity and NaN get zero.
Whether a single is finite and has a given value can be computed.

A finite sum, difference, product or length comes from finite numbers (`Single.isFinite_of_add`
and so on), and so does a magnitude below a finite bound.
-/

namespace VectorGraphics

open Float.Model.UnpackedFloat
open Float.Model (UnpackedFloat)
open Packing

/-! ## Finite results -/

namespace Rounding

variable {f : Float.Model.Format} {u v : UnpackedFloat}

theorem isFinite_of_add (h : (add f u v).isFinite = true) :
    u.isFinite = true ∧ v.isFinite = true := by
  cases u with
  | notANumber => cases v <;> exact absurd h Bool.false_ne_true
  | infinity s =>
    cases v with
    | infinity t => cases s <;> cases t <;> exact absurd h Bool.false_ne_true
    | _ => exact absurd h Bool.false_ne_true
  | zero | finite =>
    cases v with
    | notANumber | infinity => exact absurd h Bool.false_ne_true
    | zero | finite => exact ⟨rfl, rfl⟩

theorem isFinite_of_sub (h : (sub f u v).isFinite = true) :
    u.isFinite = true ∧ v.isFinite = true := by
  cases u with
  | notANumber => cases v <;> exact absurd h Bool.false_ne_true
  | infinity s =>
    cases v with
    | infinity t => cases s <;> cases t <;> exact absurd h Bool.false_ne_true
    | _ => exact absurd h Bool.false_ne_true
  | zero | finite =>
    cases v with
    | notANumber | infinity => exact absurd h Bool.false_ne_true
    | zero | finite => exact ⟨rfl, rfl⟩

theorem isFinite_of_mul (h : (mul f u v).isFinite = true) :
    u.isFinite = true ∧ v.isFinite = true := by
  cases u with
  | notANumber | infinity => cases v <;> exact absurd h Bool.false_ne_true
  | zero | finite =>
    cases v with
    | notANumber | infinity => exact absurd h Bool.false_ne_true
    | zero | finite => exact ⟨rfl, rfl⟩

theorem isFinite_of_sqrt (h : (sqrt f u).isFinite = true) : u.isFinite = true := by
  cases u with
  | notANumber => exact absurd h Bool.false_ne_true
  | infinity s => cases s <;> exact absurd h Bool.false_ne_true
  | zero | finite => rfl

theorem isFinite_of_repack (h : (repack f u).isFinite = true) : u.isFinite = true := by
  cases u with
  | notANumber =>
    rw [repack, unpack_pack (u := .notANumber) trivial trivial] at h
    exact absurd h Bool.false_ne_true
  | infinity s =>
    rw [repack, unpack_pack (u := .infinity s) trivial trivial] at h
    exact absurd h Bool.false_ne_true
  | zero | finite => rfl

/-- A canonical number that does not become infinite is not changed by packing it. -/
theorem repack_eq (hc : Canonical f u) (h : (repack f u).isFinite = true) : repack f u = u := by
  refine unpack_pack hc ?_
  cases u with
  | finite s m e hm =>
    by_contra hfits
    rw [repack, unpack_pack_of_overflow hm (not_le.1 hfits)] at h
    exact Bool.false_ne_true h
  | _ => trivial

end Rounding

open Rounding

/-! ## The value of a single -/

namespace Single

/-- The rational number that a finite single is. -/
def value (x : Single) : ℚ := Rounding.value x.toModel.unpack

variable {x y : Single}

theorem is_iff {q : ℚ} : x.Is q ↔ x.isFinite = true ∧ x.value = q :=
  ⟨fun h => ⟨h.isFinite, h.value_eq⟩, fun h => ⟨h.1, x.canonical, h.2⟩⟩

instance (x : Single) (q : ℚ) : Decidable (x.Is q) := decidable_of_iff _ is_iff.symm

theorem is_value (h : x.isFinite = true) : x.Is x.value := is_iff.2 ⟨h, rfl⟩

theorem Is.value_eq {q : ℚ} (h : x.Is q) : x.value = q := (is_iff.1 h).2

theorem isFinite_of_add (h : (x + y).isFinite = true) : x.isFinite = true ∧ y.isFinite = true :=
  Rounding.isFinite_of_add (isFinite_of_repack h)

theorem isFinite_of_sub (h : (x - y).isFinite = true) : x.isFinite = true ∧ y.isFinite = true :=
  Rounding.isFinite_of_sub (isFinite_of_repack h)

theorem isFinite_of_mul (h : (x * y).isFinite = true) : x.isFinite = true ∧ y.isFinite = true :=
  Rounding.isFinite_of_mul (isFinite_of_repack h)

theorem isFinite_of_widen (h : x.widen.isFinite = true) : x.isFinite = true := by
  rw [widen] at h
  change x.toModel.unpack.isFinite = true
  split at h
  · next heq =>
    rw [heq]
    rfl
  · exact isFinite_of_repack h

end Single

/-! ## Magnitudes -/

namespace Single

variable {x y z : Single}

theorem unpack_abs (x : Single) : x.abs.toModel.unpack = x.toModel.unpack.abs := by
  have hfits : Fits .binary32 x.toModel.unpack := (canonical_unpack (by decide) _).2
  refine unpack_pack (canonical_abs x.canonical) ?_
  generalize x.toModel.unpack = u at hfits
  cases u <;> exact hfits

theorem isFinite_of_abs_le (h : x.abs ≤ y) (hy : y.isFinite = true) : x.isFinite = true := by
  obtain ⟨hx, hy'⟩ := isNaN_of_le h
  change x.abs.toModel.unpack.isNaN = false at hx
  rw [le_iff_rank hx hy', rank, rank, unpack_abs, rank_of_isFinite hy] at h
  rw [unpack_abs] at hx
  change x.toModel.unpack.isFinite = true
  cases hu : x.toModel.unpack with
  | zero | finite => rfl
  | notANumber =>
    rw [hu] at hx
    cases hx
  | infinity s =>
    rw [hu] at h
    exact absurd (WithBot.coe_le_coe.1 h) (not_le.2 (WithTop.coe_lt_top _))

theorem abs_value_le (h : x.abs ≤ y) (hy : y.isFinite = true) : |x.value| ≤ y.value :=
  ((is_value (isFinite_of_abs_le h hy)).abs.le_iff (is_value hy)).1 h

/-- A bound of a magnitude is finite, if something finite is not below it. -/
theorem isFinite_of_not_le (h : x.abs ≤ y) (hz : z.isFinite = true) (hzy : ¬z ≤ y) :
    y.isFinite = true := by
  obtain ⟨hx, hy⟩ := isNaN_of_le h
  have hz' : z.isNaN = false := by
    change z.toModel.unpack.isFinite = true at hz
    change z.toModel.unpack.isNaN = false
    generalize z.toModel.unpack = u at hz
    cases u <;> first | rfl | cases hz
  rw [le_iff_rank hx hy, rank, rank, unpack_abs] at h
  rw [le_iff_rank hz' hy, rank, rank, rank_of_isFinite hz] at hzy
  obtain hy | hy | hy := isFinite_or_infinity hy
  · exact hy
  · rw [hy] at h
    generalize x.toModel.unpack = u at h
    cases u <;> exact absurd (le_bot_iff.1 h) WithBot.coe_ne_bot
  · rw [hy] at hzy
    exact absurd (WithBot.coe_le_coe.2 le_top) hzy

end Single

/-! ## Doubles -/

namespace Double

variable {x y : Double}

theorem isFinite_of_add (h : (x + y).isFinite = true) : x.isFinite = true ∧ y.isFinite = true :=
  Rounding.isFinite_of_add (isFinite_of_repack h)

theorem isFinite_of_mul (h : (x * y).isFinite = true) : x.isFinite = true ∧ y.isFinite = true :=
  Rounding.isFinite_of_mul (isFinite_of_repack h)

theorem isFinite_of_sqrt (h : x.sqrt.isFinite = true) : x.isFinite = true :=
  Rounding.isFinite_of_sqrt (isFinite_of_repack h)

theorem isFinite_of_narrow (h : x.narrow.isFinite = true) : x.isFinite = true := by
  rw [narrow] at h
  change x.toModel.unpack.isFinite = true
  split at h
  · next heq =>
    rw [heq]
    rfl
  · exact isFinite_of_repack h

end Double

/-- A finite length is that of a finite vector. -/
theorem Single.isFinite_of_hypot {x y : Single} (h : (hypot x y).isFinite = true) :
    x.isFinite = true ∧ y.isFinite = true := by
  rw [hypot] at h
  split at h
  · exact absurd h (by decide)
  · obtain ⟨hx, hy⟩ :=
      Double.isFinite_of_add (Double.isFinite_of_sqrt (Double.isFinite_of_narrow h))
    exact ⟨isFinite_of_widen (Double.isFinite_of_mul hx).1,
      isFinite_of_widen (Double.isFinite_of_mul hy).1⟩

end VectorGraphics
