import Mathlib.Order.WithBot
import VectorGraphics.Geometry.Point
import VectorGraphics.Proofs.Number.Exact

/-!
# The order of numbers

Apart from NaN, numbers are ordered as the points of the extended rational line (`compare_rank`).
So the smaller of two numbers is below whatever one of the two is below, even if the other is NaN
(`min_le_of_left_le`, `min_le_of_right_le`), and the larger one above.

Addition is commutative, whatever is added (`add_comm`).
-/

namespace VectorGraphics

open Float.Model.UnpackedFloat
open Float.Model (UnpackedFloat)

namespace Rounding

/-- The place of a number on the extended rational line; that of NaN does not matter. -/
def rank : UnpackedFloat → WithBot (WithTop ℚ)
  | .infinity .negative => ⊥
  | .infinity .positive => ((⊤ : WithTop ℚ) : WithBot (WithTop ℚ))
  | u => ((value u : WithTop ℚ) : WithBot (WithTop ℚ))

theorem rank_of_isFinite {u : UnpackedFloat} (hu : u.isFinite = true) :
    rank u = ((value u : WithTop ℚ) : WithBot (WithTop ℚ)) := by
  cases u with
  | infinity | notANumber => cases hu
  | zero | finite => rfl

/-- A number is NaN, infinite or finite. -/
theorem isFinite_or_infinity {u : UnpackedFloat} (hu : u.isNaN = false) :
    u.isFinite = true ∨ u = .infinity .negative ∨ u = .infinity .positive := by
  cases u with
  | notANumber => cases hu
  | infinity s =>
    cases s with
    | negative => exact .inr (.inl rfl)
    | positive => exact .inr (.inr rfl)
  | zero | finite => exact .inl rfl

theorem compare_coe (p q : ℚ) :
    compare ((p : WithTop ℚ) : WithBot (WithTop ℚ)) ((q : WithTop ℚ) : WithBot (WithTop ℚ))
      = compare p q := by
  obtain h | rfl | h := lt_trichotomy p q
  · rw [compare_lt_iff_lt.2 h, compare_lt_iff_lt]
    exact_mod_cast h
  · rw [compare_eq_iff_eq.2 rfl, compare_eq_iff_eq.2 rfl]
  · rw [compare_gt_iff_gt.2 h, compare_gt_iff_gt]
    exact_mod_cast h

variable {f : Float.Model.Format}

/-- Numbers other than NaN compare as their places do. -/
theorem compare_rank {u v : UnpackedFloat} (hu : u.isNaN = false) (hv : v.isNaN = false)
    (hcu : Packing.Canonical f u) (hcv : Packing.Canonical f v) :
    u.compare v = some (compare (rank u) (rank v)) := by
  have hlow {w : UnpackedFloat} (hw : w.isFinite = true) : rank (.infinity .negative) < rank w := by
    rw [rank_of_isFinite hw]
    exact WithBot.bot_lt_coe _
  have hhigh {w : UnpackedFloat} (hw : w.isFinite = true) :
      rank w < rank (.infinity .positive) := by
    rw [rank_of_isFinite hw]
    exact WithBot.coe_lt_coe.2 (WithTop.coe_lt_top _)
  have hlowhigh : rank (.infinity .negative) < rank (.infinity .positive) := WithBot.bot_lt_coe _
  obtain hu | rfl | rfl := isFinite_or_infinity hu <;>
    obtain hv | rfl | rfl := isFinite_or_infinity hv
  · rw [Rounding.compare_eq hu hv hcu hcv, rank_of_isFinite hu, rank_of_isFinite hv, compare_coe]
  · rw [compare_gt_iff_gt.2 (hlow hu)]
    cases u <;> first | rfl | cases hu
  · rw [compare_lt_iff_lt.2 (hhigh hu)]
    cases u <;> first | rfl | cases hu
  · rw [compare_lt_iff_lt.2 (hlow hv)]
    cases v <;> first | rfl | cases hv
  · exact congrArg some (compare_eq_iff_eq.2 rfl).symm
  · exact congrArg some (compare_lt_iff_lt.2 hlowhigh).symm
  · rw [compare_gt_iff_gt.2 (hhigh hv)]
    cases v <;> first | rfl | cases hv
  · exact congrArg some (compare_gt_iff_gt.2 hlowhigh).symm
  · exact congrArg some (compare_eq_iff_eq.2 rfl).symm

/-- The sum does not depend on the order of what is added. -/
protected theorem add_comm (u v : UnpackedFloat) : add f u v = add f v u := by
  cases u with
  | notANumber => cases v <;> rfl
  | infinity s =>
    cases v with
    | infinity t => cases s <;> cases t <;> rfl
    | _ => rfl
  | zero s =>
    cases v with
    | zero t => cases s <;> cases t <;> rfl
    | _ => rfl
  | finite s m e hm =>
    cases v with
    | finite t n k hn => simp only [add, min_comm e k, Int.add_comm (s.apply _)]
    | _ => rfl

end Rounding

namespace Single

variable {a b c : Single}

protected theorem add_comm (a b : Single) : a + b = b + a :=
  congrArg pack (Rounding.add_comm a.toModel.unpack b.toModel.unpack)

/-- The place of a number on the extended rational line; that of NaN does not matter. -/
def rank (a : Single) : WithBot (WithTop ℚ) := Rounding.rank a.toModel.unpack

theorem compare_rank (ha : a.isNaN = false) (hb : b.isNaN = false) :
    a.toModel.unpack.compare b.toModel.unpack = some (compare a.rank b.rank) :=
  Rounding.compare_rank ha hb a.canonical b.canonical

theorem le_iff_rank (ha : a.isNaN = false) (hb : b.isNaN = false) : a ≤ b ↔ a.rank ≤ b.rank := by
  have h : a ≤ b ↔ a.toModel.unpack.le b.toModel.unpack = true := decide_eq_true_iff
  rw [h, UnpackedFloat.le, compare_rank ha hb, ← compare_le_iff_le]
  cases compare a.rank b.rank <;> simp

theorem lt_iff_rank (ha : a.isNaN = false) (hb : b.isNaN = false) : a < b ↔ a.rank < b.rank := by
  have h : a < b ↔ a.toModel.unpack.lt b.toModel.unpack = true := decide_eq_true_iff
  rw [h, UnpackedFloat.lt, compare_rank ha hb, ← compare_lt_iff_lt]
  simp

/-- NaN compares with no number. -/
theorem isNaN_of_compare {o : Ordering}
    (h : a.toModel.unpack.compare b.toModel.unpack = some o) :
    a.isNaN = false ∧ b.isNaN = false := by
  change a.toModel.unpack.isNaN = false ∧ b.toModel.unpack.isNaN = false
  generalize a.toModel.unpack = u at h
  generalize b.toModel.unpack = v at h
  cases u with
  | notANumber => cases h
  | _ =>
    cases v with
    | notANumber => cases h
    | _ => exact ⟨rfl, rfl⟩

theorem isNaN_of_le (h : a ≤ b) : a.isNaN = false ∧ b.isNaN = false := by
  obtain ⟨o, ho, -⟩ := (Option.any_eq_true _ _).1 (decide_eq_true_iff.1 h)
  exact isNaN_of_compare ho

theorem isNaN_of_lt (h : a < b) : a.isNaN = false ∧ b.isNaN = false :=
  isNaN_of_compare (beq_iff_eq.1 (decide_eq_true_iff.1 h))

protected theorem le_trans (hab : a ≤ b) (hbc : b ≤ c) : a ≤ c := by
  obtain ⟨ha, hb⟩ := isNaN_of_le hab
  obtain ⟨-, hc⟩ := isNaN_of_le hbc
  rw [le_iff_rank ha hb] at hab
  rw [le_iff_rank hb hc] at hbc
  exact (le_iff_rank ha hc).2 (hab.trans hbc)

protected theorem le_of_lt (h : a < b) : a ≤ b := by
  obtain ⟨ha, hb⟩ := isNaN_of_lt h
  exact (le_iff_rank ha hb).2 ((lt_iff_rank ha hb).1 h).le

protected theorem le_of_not_lt (ha : a.isNaN = false) (hb : b.isNaN = false) (h : ¬a < b) :
    b ≤ a := by
  rw [lt_iff_rank ha hb, not_lt] at h
  exact (le_iff_rank hb ha).2 h

theorem beq_iff_rank : (a == b) = true ↔ a.isNaN = false ∧ b.isNaN = false ∧ a.rank = b.rank := by
  have h : (a == b) = true ↔ a.toModel.unpack.compare b.toModel.unpack = some .eq := by
    change a.toModel.unpack.beq b.toModel.unpack = true ↔ _
    rw [UnpackedFloat.beq, beq_iff_eq]
  rw [h]
  constructor
  · intro hcompare
    obtain ⟨ha, hb⟩ := isNaN_of_compare hcompare
    rw [compare_rank ha hb] at hcompare
    exact ⟨ha, hb, compare_eq_iff_eq.1 (Option.some.inj hcompare)⟩
  · rintro ⟨ha, hb, hrank⟩
    rw [compare_rank ha hb, compare_eq_iff_eq.2 hrank]

theorem beq_symm (h : (a == b) = true) : (b == a) = true := by
  obtain ⟨ha, hb, hrank⟩ := beq_iff_rank.1 h
  exact beq_iff_rank.2 ⟨hb, ha, hrank.symm⟩

theorem beq_trans (hab : (a == b) = true) (hbc : (b == c) = true) : (a == c) = true := by
  obtain ⟨ha, -, hrank⟩ := beq_iff_rank.1 hab
  obtain ⟨-, hc, hrank'⟩ := beq_iff_rank.1 hbc
  exact beq_iff_rank.2 ⟨ha, hc, hrank.trans hrank'⟩

/-! ## The smaller and the larger of two numbers -/

protected theorem min_le_of_left_le (h : a ≤ c) : a.min b ≤ c := by
  rw [Single.min, (isNaN_of_le h).1, if_neg Bool.false_ne_true]
  split
  · next hlt => exact Single.le_trans (Single.le_of_lt hlt) h
  · exact h

protected theorem min_le_of_right_le (h : b ≤ c) : a.min b ≤ c := by
  rw [Single.min]
  split
  · exact h
  · next ha =>
    split
    · exact h
    · next hlt =>
      exact Single.le_trans (Single.le_of_not_lt (isNaN_of_le h).1 (Bool.eq_false_iff.2 ha) hlt) h

protected theorem le_max_of_le_left (h : c ≤ a) : c ≤ a.max b := by
  rw [Single.max, (isNaN_of_le h).2, if_neg Bool.false_ne_true]
  split
  · next hlt => exact Single.le_trans h (Single.le_of_lt hlt)
  · exact h

protected theorem le_max_of_le_right (h : c ≤ b) : c ≤ a.max b := by
  rw [Single.max]
  split
  · exact h
  · next ha =>
    split
    · exact h
    · next hlt =>
      exact Single.le_trans h (Single.le_of_not_lt (Bool.eq_false_iff.2 ha) (isNaN_of_le h).2 hlt)

end Single

theorem Point.add_comm (p q : Point) : p + q = q + p :=
  Point.ext' (Single.add_comm p.x q.x) (Single.add_comm p.y q.y)

end VectorGraphics
