import VectorGraphics.Number.Decimal
import VectorGraphics.Proofs.Number.Arithmetic

/-!
# The values of singles and doubles

`Is f u q` says that an unpacked number is finite, canonical and has the value `q`, and
`Single.Is` and `Double.Is` say the same of packed numbers. An operation gives the exact result
where the format has room for it (`Rounds.is_unpack_pack`), and otherwise a number that stays
within every bound the format has room for (`Rounds.exists_is_unpack_pack`). Comparisons are those
of the values, and `Single.widen` keeps the value.
-/

namespace VectorGraphics

open Float.Model.UnpackedFloat
open Float.Model (UnpackedFloat)
open Packing

/-! ## Results, packed and unpacked again -/

namespace Rounding

variable {f : Float.Model.Format} {u v : UnpackedFloat} {p q : ℚ}

/-- The format has room for the rational. -/
structure Available (f : Float.Model.Format) (q : ℚ) : Prop where
  representable : Representable f q
  abs_lt : |q| < overflow f

theorem Available.neg (h : Available f q) : Available f (-q) :=
  ⟨h.representable.neg, by rw [abs_neg]; exact h.abs_lt⟩

theorem Available.abs (h : Available f q) : Available f |q| :=
  ⟨representable_abs.2 h.representable, by rw [abs_abs]; exact h.abs_lt⟩

/-- The number is finite and canonical, and has the value `q`. -/
structure Is (f : Float.Model.Format) (u : UnpackedFloat) (q : ℚ) : Prop where
  isFinite : u.isFinite = true
  canonical : Canonical f u
  value_eq : value u = q

/-- The number that arithmetic makes of a rounded number. -/
def repack (f : Float.Model.Format) (u : UnpackedFloat) : UnpackedFloat := unpack f (pack f u)

theorem minExponent_le_maxExponent (hf : 0 < f.exponentBias) : f.minExponent ≤ maxExponent f := by
  rw [minExponent_eq, maxExponent_eq]
  omega

/-- A rounding of a rational the format has room for is that rational. -/
theorem Rounds.is_repack (hf : 0 < f.exponentBias) (h : Rounds f q u) (hq : Available f q) :
    Is f (repack f u) q := by
  have hvalue := h.value_eq hq.representable
  have hfits := fits_of_abs_lt h.canonical (minExponent_le_maxExponent hf) (hvalue ▸ hq.abs_lt)
  rw [repack, unpack_pack h.canonical hfits]
  exact ⟨h.isFinite, h.canonical, hvalue⟩

/-- A rounding between bounds the format has room for stays between them. -/
theorem Rounds.exists_is_repack (hf : 0 < f.exponentBias) (h : Rounds f q u) {a b : ℚ}
    (ha : Available f a) (hb : Available f b) (haq : a ≤ q) (hqb : q ≤ b) :
    ∃ r, Is f (repack f u) r ∧ a ≤ r ∧ r ≤ b := by
  have hlow := h.le_value ha.representable haq
  have hhigh := h.value_le hb.representable hqb
  have hlt : |value u| < overflow f := by
    rw [abs_lt]
    exact ⟨(neg_lt_of_abs_lt ha.abs_lt).trans_le hlow, hhigh.trans_lt (lt_of_abs_lt hb.abs_lt)⟩
  have hfits := fits_of_abs_lt h.canonical (minExponent_le_maxExponent hf) hlt
  rw [repack, unpack_pack h.canonical hfits]
  exact ⟨value u, ⟨h.isFinite, h.canonical, rfl⟩, hlow, hhigh⟩

/-- Whole numbers with no more bits than a mantissa are representable. -/
theorem representable_intCast {n : ℤ} (h : n.natAbs ≤ 2 ^ f.mantissaBits) :
    Representable f n := by
  have hmin := minExponent_nonpos f
  have habs : |(n : ℚ)| = n.natAbs := by rw [Nat.cast_natAbs, Int.cast_abs]
  rcases h.lt_or_eq with hlt | heq
  · exact ⟨n.natAbs, 0, hlt, hmin, by rw [habs, zpow_zero, mul_one]⟩
  · refine ⟨1, f.mantissaBits, Nat.one_lt_two_pow ?_, by omega, ?_⟩
    · rw [Float.Model.Format.mantissaBits]
      omega
    · rw [habs, heq, Nat.cast_one, one_mul, zpow_natCast]
      push_cast
      rfl

/-- Powers of two between the smallest exponent and the overflow are available. -/
theorem available_two_zpow {e : ℤ} (h₀ : f.minExponent ≤ e)
    (h₁ : e < f.mantissaBits + maxExponent f) : Available f (2 ^ e) := by
  have habs : |(2 : ℚ) ^ e| = 2 ^ e := abs_of_pos (two_zpow_pos e)
  refine ⟨⟨1, e, Nat.one_lt_two_pow ?_, h₀, ?_⟩, ?_⟩
  · rw [Float.Model.Format.mantissaBits]
    omega
  · rw [habs, Nat.cast_one, one_mul]
  · rw [habs, overflow]
    exact zpow_lt_zpow_right₀ one_lt_two h₁

theorem available_intCast (hf : 0 < maxExponent f) {n : ℤ} (h : n.natAbs ≤ 2 ^ f.mantissaBits) :
    Available f n := by
  refine ⟨representable_intCast h, ?_⟩
  have h : (n.natAbs : ℚ) ≤ 2 ^ f.mantissaBits := by exact_mod_cast h
  calc |(n : ℚ)| = n.natAbs := by rw [Nat.cast_natAbs, Int.cast_abs]
    _ ≤ 2 ^ (f.mantissaBits : ℤ) := by rwa [zpow_natCast]
    _ < overflow f := zpow_lt_zpow_right₀ one_lt_two (by omega)

namespace Is

theorem rounds_add (hu : Is f u p) (hv : Is f v q) : Rounds f (p + q) (add f u v) := by
  rw [← hu.value_eq, ← hv.value_eq]
  exact Rounding.rounds_add hu.isFinite hv.isFinite hu.canonical hv.canonical

theorem rounds_sub (hu : Is f u p) (hv : Is f v q) : Rounds f (p - q) (sub f u v) := by
  rw [← hu.value_eq, ← hv.value_eq]
  exact Rounding.rounds_sub hu.isFinite hv.isFinite hu.canonical hv.canonical

theorem rounds_mul (hu : Is f u p) (hv : Is f v q) : Rounds f (p * q) (mul f u v) := by
  rw [← hu.value_eq, ← hv.value_eq]
  exact Rounding.rounds_mul hu.isFinite hv.isFinite hu.canonical hv.canonical

theorem rounds_div (hu : Is f u p) (hv : Is f v q) (hq : q ≠ 0) :
    Rounds f (p / q) (div f u v) := by
  rw [← hu.value_eq, ← hv.value_eq]
  exact Rounding.rounds_div hu.isFinite hv.isFinite (hv.value_eq ▸ hq)

theorem rounds_neg (hu : Is f u p) : Rounds f (-p) u.neg := by
  rw [← hu.value_eq, ← value_neg]
  exact rounds_self (isFinite_neg hu.isFinite) (canonical_neg hu.canonical)

theorem rounds_abs (hu : Is f u p) : Rounds f |p| u.abs := by
  rw [← hu.value_eq, ← value_abs]
  exact rounds_self (isFinite_abs hu.isFinite) (canonical_abs hu.canonical)

theorem compare_eq (hu : Is f u p) (hv : Is f v q) : u.compare v = some (compare p q) := by
  rw [← hu.value_eq, ← hv.value_eq]
  exact Rounding.compare_eq hu.isFinite hv.isFinite hu.canonical hv.canonical

theorem lt_iff (hu : Is f u p) (hv : Is f v q) : u.lt v = true ↔ p < q := by
  rw [UnpackedFloat.lt, hu.compare_eq hv, ← compare_lt_iff_lt]
  simp

theorem le_iff (hu : Is f u p) (hv : Is f v q) : u.le v = true ↔ p ≤ q := by
  rw [UnpackedFloat.le, hu.compare_eq hv, ← compare_le_iff_le]
  cases compare p q <;> simp

theorem beq_iff (hu : Is f u p) (hv : Is f v q) : u.beq v = true ↔ p = q := by
  rw [UnpackedFloat.beq, hu.compare_eq hv, ← compare_eq_iff_eq]
  simp

/-- The value is one the format has room for. -/
theorem available (hu : Is f u q) (hf : Fits f u) : Available f q := by
  refine ⟨hu.value_eq ▸ representable_value hu.canonical, ?_⟩
  rw [← hu.value_eq]
  exact abs_value_lt_overflow hu.canonical hf

end Is

end Rounding

open Rounding

/-! ## Singles -/

namespace Single

/-- The single is finite and has the value `q`. -/
def Is (x : Single) (q : ℚ) : Prop := Rounding.Is .binary32 x.toModel.unpack q

theorem canonical (x : Single) : Canonical .binary32 x.toModel.unpack :=
  (canonical_unpack (by decide) _).1

/-- A finite single has a value. -/
theorem exists_is {x : Single} (hx : x.isFinite = true) :
    ∃ q, x.Is q ∧ Available .binary32 q := by
  have h : Rounding.Is .binary32 x.toModel.unpack _ := ⟨hx, x.canonical, rfl⟩
  exact ⟨_, h, h.available (canonical_unpack (by decide) _).2⟩

namespace Is

variable {x y : Single} {p q : ℚ}

theorem add (hx : x.Is p) (hy : y.Is q) (h : Available .binary32 (p + q)) :
    (x + y).Is (p + q) :=
  (hx.rounds_add hy).is_repack (by decide) h

theorem sub (hx : x.Is p) (hy : y.Is q) (h : Available .binary32 (p - q)) :
    (x - y).Is (p - q) :=
  (hx.rounds_sub hy).is_repack (by decide) h

theorem mul (hx : x.Is p) (hy : y.Is q) (h : Available .binary32 (p * q)) :
    (x * y).Is (p * q) :=
  (hx.rounds_mul hy).is_repack (by decide) h

theorem available (hx : x.Is q) : Available .binary32 q :=
  Rounding.Is.available hx (canonical_unpack (by decide) _).2

theorem neg (hx : x.Is q) : (-x).Is (-q) :=
  hx.rounds_neg.is_repack (by decide) hx.available.neg

theorem abs (hx : x.Is q) : Is x.abs |q| :=
  hx.rounds_abs.is_repack (by decide) hx.available.abs

theorem le_iff (hx : x.Is p) (hy : y.Is q) : x ≤ y ↔ p ≤ q :=
  decide_eq_true_iff.trans (Rounding.Is.le_iff hx hy)

theorem lt_iff (hx : x.Is p) (hy : y.Is q) : x < y ↔ p < q :=
  decide_eq_true_iff.trans (Rounding.Is.lt_iff hx hy)

theorem beq_iff (hx : x.Is p) (hy : y.Is q) : (x == y) = true ↔ p = q :=
  Rounding.Is.beq_iff hx hy

end Is

end Single

/-! ## Doubles -/

namespace Double

/-- The double is finite and has the value `q`. -/
def Is (x : Double) (q : ℚ) : Prop := Rounding.Is .binary64 x.toModel.unpack q

theorem canonical (x : Double) : Canonical .binary64 x.toModel.unpack :=
  (canonical_unpack (by decide) _).1

/-- A double made by rounding a rational that the format has room for. -/
theorem is_pack {u : UnpackedFloat} {q : ℚ} (h : Rounds .binary64 q u)
    (hq : Available .binary64 q) : (pack u).Is q :=
  h.is_repack (by decide) hq

namespace Is

variable {x y : Double} {p q : ℚ}

theorem available (hx : x.Is q) : Available .binary64 q :=
  Rounding.Is.available hx (canonical_unpack (by decide) _).2

theorem sub (hx : x.Is p) (hy : y.Is q) (h : Available .binary64 (p - q)) :
    (x - y).Is (p - q) :=
  (hx.rounds_sub hy).is_repack (by decide) h

theorem mul (hx : x.Is p) (hy : y.Is q) (h : Available .binary64 (p * q)) :
    (x * y).Is (p * q) :=
  (hx.rounds_mul hy).is_repack (by decide) h

theorem div (hx : x.Is p) (hy : y.Is q) (hq : q ≠ 0) (h : Available .binary64 (p / q)) :
    (x / y).Is (p / q) :=
  (hx.rounds_div hy hq).is_repack (by decide) h

/-- A product stays between bounds that the format has room for. -/
theorem exists_mul (hx : x.Is p) (hy : y.Is q) {a b : ℚ} (ha : Available .binary64 a)
    (hb : Available .binary64 b) (hlow : a ≤ p * q) (hhigh : p * q ≤ b) :
    ∃ r, (x * y).Is r ∧ a ≤ r ∧ r ≤ b :=
  (hx.rounds_mul hy).exists_is_repack (by decide) ha hb hlow hhigh

/-- A quotient stays between bounds that the format has room for. -/
theorem exists_div (hx : x.Is p) (hy : y.Is q) (hq : q ≠ 0) {a b : ℚ}
    (ha : Available .binary64 a) (hb : Available .binary64 b) (hlow : a ≤ p / q)
    (hhigh : p / q ≤ b) : ∃ r, (x / y).Is r ∧ a ≤ r ∧ r ≤ b :=
  (hx.rounds_div hy hq).exists_is_repack (by decide) ha hb hlow hhigh

theorem abs (hx : x.Is q) : Is x.abs |q| :=
  hx.rounds_abs.is_repack (by decide) hx.available.abs

theorem lt_iff (hx : x.Is p) (hy : y.Is q) : x < y ↔ p < q :=
  decide_eq_true_iff.trans (Rounding.Is.lt_iff hx hy)

end Is

end Double

/-! ## Between the two precisions -/

/-- A double has room for every single. -/
theorem Rounding.Available.widen {q : ℚ} (h : Available .binary32 q) : Available .binary64 q := by
  obtain ⟨⟨m, e, hm, he, hq⟩, hlt⟩ := h
  refine ⟨⟨m, e, hm.trans (by decide), le_trans (by decide) he, hq⟩, hlt.trans_le ?_⟩
  exact zpow_le_zpow_right₀ one_le_two (by decide)

/-- Widening keeps the value. -/
theorem Single.Is.widen {x : Single} {q : ℚ} (hx : x.Is q) : x.widen.Is q := by
  have havailable := hx.available.widen
  obtain ⟨hfinite, hc, rfl⟩ := hx
  rw [Single.widen]
  split
  · next s m e hm hu =>
    rw [hu] at havailable
    rw [hu]
    exact Double.is_pack (rounds_round s m e) havailable
  · next hu =>
    cases hcase : x.toModel.unpack with
    | finite s m e hm => exact absurd hcase (hu s m e hm)
    | infinity s | notANumber =>
      rw [hcase] at hfinite
      exact absurd hfinite Bool.false_ne_true
    | zero s =>
      rw [hcase] at havailable
      exact Double.is_pack (rounds_zero s) havailable

end VectorGraphics
