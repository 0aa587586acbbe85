import VectorGraphics.Proofs.Number.Precision
import VectorGraphics.Proofs.Number.Values

/-!
# Errors of single-precision arithmetic

A finite sum, difference or product of singles is off by one rounding (`roundoff`) from that of
the values. `hypot` computes in double precision, where squares are exact and a sum and its root
are off by much less, and is off by no more than two roundings (`Single.abs_value_hypot_sub_le`).
-/

namespace VectorGraphics

open Float.Model.UnpackedFloat hiding round
open Float.Model (UnpackedFloat)
open Rounding

/-- The most by which rounding to a single changes the real number `y`. -/
noncomputable def roundoff (y : ℝ) : ℝ := 2 ^ (-24 : ℤ) * |y| + 2 ^ (-150 : ℤ)

namespace Single

variable {x y : Single}

theorem abs_value_pack_sub_le {u : UnpackedFloat} {r : ℝ} (h : Nearest .binary32 r u)
    (hfinite : (pack u).isFinite = true) : |((pack u).value : ℝ) - r| ≤ roundoff r := by
  have hunpack : (pack u).toModel.unpack = u := repack_eq h.canonical hfinite
  rw [value, hunpack]
  exact h.abs_sub_le

theorem abs_value_add_sub_le (h : (x + y).isFinite = true) :
    |((x + y).value : ℝ) - (x.value + y.value)| ≤ roundoff (x.value + y.value) := by
  obtain ⟨hx, hy⟩ := isFinite_of_add h
  have hrounds := ((is_value hx).rounds_add (is_value hy)).nearest_real
  rw [Rat.cast_add] at hrounds
  exact abs_value_pack_sub_le hrounds h

theorem abs_value_sub_sub_le (h : (x - y).isFinite = true) :
    |((x - y).value : ℝ) - (x.value - y.value)| ≤ roundoff (x.value - y.value) := by
  obtain ⟨hx, hy⟩ := isFinite_of_sub h
  have hrounds := ((is_value hx).rounds_sub (is_value hy)).nearest_real
  rw [Rat.cast_sub] at hrounds
  exact abs_value_pack_sub_le hrounds h

theorem abs_value_mul_sub_le (h : (x * y).isFinite = true) :
    |((x * y).value : ℝ) - x.value * y.value| ≤ roundoff (x.value * y.value) := by
  obtain ⟨hx, hy⟩ := isFinite_of_mul h
  have hrounds := ((is_value hx).rounds_mul (is_value hy)).nearest_real
  rw [Rat.cast_mul] at hrounds
  exact abs_value_pack_sub_le hrounds h

end Single

/-! ## Lengths -/

/-- A double has room for the square of a single. -/
theorem Rounding.Available.mul_self {q : ℚ} (h : Available .binary32 q) :
    Available .binary64 (q * q) ∧ q * q ≤ 2 ^ (256 : ℤ) := by
  obtain ⟨⟨m, e, hm, he, hq⟩, hlt⟩ := h
  have hsq : |q * q| ≤ 2 ^ (256 : ℤ) := by
    have : |q| ≤ 2 ^ (128 : ℤ) := hlt.le
    calc |q * q| = |q| * |q| := abs_mul q q
      _ ≤ 2 ^ (128 : ℤ) * 2 ^ (128 : ℤ) := by gcongr
      _ = 2 ^ (256 : ℤ) := by rw [← zpow_add₀ two_ne_zero]; rfl
  refine ⟨⟨⟨m * m, e + e, ?_, ?_, ?_⟩, ?_⟩, (le_abs_self _).trans hsq⟩
  · calc m * m < 2 ^ 24 * 2 ^ 24 := Nat.mul_lt_mul'' hm hm
      _ ≤ 2 ^ Float.Model.Format.mantissaBits .binary64 := by decide
  · have : Float.Model.Format.minExponent .binary64 ≤ -149 + -149 := by decide
    have : (-149 : ℤ) ≤ e := he
    omega
  · rw [abs_mul, hq, zpow_add₀ two_ne_zero]
    push_cast
    ring
  · exact hsq.trans_lt (zpow_lt_zpow_right₀ one_lt_two (by decide))

/-- The square of a single, unless it is zero, is far above the smallest double. -/
theorem Rounding.Available.le_mul_self {q : ℚ} (h : Available .binary32 q) (hq : q ≠ 0) :
    2 ^ (-298 : ℤ) ≤ q * q := by
  obtain ⟨⟨m, e, -, he, habs⟩, -⟩ := h
  have hle : 2 ^ (-149 : ℤ) ≤ |q| := by
    have hm : (1 : ℚ) ≤ m := by
      rw [Nat.one_le_cast, Nat.one_le_iff_ne_zero]
      rintro rfl
      exact hq (abs_eq_zero.1 (by simpa using habs))
    rw [habs]
    calc (2 : ℚ) ^ (-149 : ℤ) ≤ 2 ^ e := zpow_le_zpow_right₀ one_le_two he
      _ ≤ m * 2 ^ e := le_mul_of_one_le_left (two_zpow_pos e).le hm
  calc (2 : ℚ) ^ (-298 : ℤ) = 2 ^ (-149 : ℤ) * 2 ^ (-149 : ℤ) := by
        rw [← zpow_add₀ two_ne_zero]
        rfl
    _ ≤ |q| * |q| := by gcongr
    _ = q * q := abs_mul_abs_self q

namespace Double

variable {x y : Double} {p q s : ℚ}

/-- A sum of squares of singles in double precision. -/
theorem Is.exists_add_squares (hx : x.Is (p * p)) (hy : y.Is (q * q))
    (hp : Available .binary32 p) (hq : Available .binary32 q) :
    ∃ s : ℚ, (x + y).Is s ∧ 0 ≤ s ∧ s ≤ 2 ^ (257 : ℤ)
      ∧ |(s : ℝ) - (p * p + q * q)| ≤ 2 ^ (-52 : ℤ) * (p * p + q * q) := by
  have hp₁ := hp.mul_self.2
  have hq₁ := hq.mul_self.2
  have hp₀ := mul_self_nonneg p
  have hq₀ := mul_self_nonneg q
  have hrounds := hx.rounds_add hy
  have hbound : |p * p + q * q| ≤ 2 ^ (257 : ℤ) := by
    rw [abs_of_nonneg (by linarith), show (257 : ℤ) = 256 + 1 from rfl,
      zpow_add_one₀ two_ne_zero]
    linarith
  have hcast : |((p * p + q * q : ℚ) : ℝ)| ≤ ((2 ^ (257 : ℤ) : ℚ) : ℝ) := by
    exact_mod_cast hbound
  have havailable : Available .binary64 (2 ^ (257 : ℤ)) :=
    available_two_zpow (by decide) (by decide)
  refine ⟨_, hrounds.nearest_real.is_repack (by decide) havailable hcast, ?_, ?_, ?_⟩
  · exact hrounds.le_value (representable_value (u := .zero .positive) trivial) (by
      linarith)
  · exact (le_abs_self _).trans (hrounds.nearest_real.abs_value_le havailable.representable hcast)
  · have hnonneg : (0 : ℝ) ≤ p * p + q * q := add_nonneg (mul_self_nonneg _) (mul_self_nonneg _)
    obtain hzero | hne := eq_or_ne (p * p + q * q) 0
    · have hvalue := hrounds.value_eq
        (hzero ▸ representable_value (u := .zero .positive) trivial)
      rw [hvalue]
      push_cast
      rw [sub_self, abs_zero]
      exact mul_nonneg (zpow_pos two_pos _).le hnonneg
    · -- the squares are too large for the smallest doubles to matter
      have hlarge : (2 : ℚ) ^ (-298 : ℤ) ≤ p * p + q * q := by
        obtain rfl | hp' := eq_or_ne p 0
        · have := hq.le_mul_self fun h => hne (by rw [h, mul_zero, add_zero])
          linarith
        · have := hp.le_mul_self hp'
          linarith
      have hlarge : (2 : ℝ) ^ (-298 : ℤ) ≤ p * p + q * q := by
        simpa only [Rat.cast_zpow, Rat.cast_ofNat, Rat.cast_add, Rat.cast_mul] using
          (Rat.cast_le (K := ℝ)).2 hlarge
      have herror : _ ≤ 2 ^ (-53 : ℤ) * |((p * p + q * q : ℚ) : ℝ)| + 2 ^ (-1075 : ℤ) :=
        hrounds.nearest_real.abs_sub_le
      push_cast at herror
      rw [abs_of_nonneg hnonneg] at herror
      have hsmall : (2 : ℝ) ^ (-1075 : ℤ) ≤ 2 ^ (-53 : ℤ) * (p * p + q * q) :=
        calc (2 : ℝ) ^ (-1075 : ℤ) ≤ 2 ^ (-53 + -298 : ℤ) :=
              zpow_le_zpow_right₀ one_le_two (by decide)
          _ = 2 ^ (-53 : ℤ) * 2 ^ (-298 : ℤ) := zpow_add₀ two_ne_zero _ _
          _ ≤ 2 ^ (-53 : ℤ) * (p * p + q * q) := by gcongr
      rw [show (-52 : ℤ) = -53 + 1 from rfl, zpow_add_one₀ two_ne_zero]
      linarith

/-- The root of a number that is far from the largest double. -/
theorem Is.exists_sqrt (hx : x.Is s) (h₀ : 0 ≤ s) (h₁ : s ≤ 2 ^ (257 : ℤ)) :
    ∃ r : ℚ, Is x.sqrt r ∧ |(r : ℝ) - √s| ≤ 2 ^ (-53 : ℤ) * √s + 2 ^ (-1075 : ℤ) := by
  have hnearest := nearest_sqrt (f := .binary64) hx.isFinite (hx.value_eq ▸ h₀)
  rw [hx.value_eq] at hnearest
  have hbound : |√(s : ℝ)| ≤ ((2 ^ (129 : ℤ) : ℚ) : ℝ) := by
    have h₁ : (s : ℝ) ≤ 2 ^ (257 : ℤ) := by exact_mod_cast h₁
    rw [abs_of_nonneg (Real.sqrt_nonneg _)]
    refine Real.sqrt_le_iff.2 ⟨by positivity, h₁.trans ?_⟩
    rw [Rat.cast_zpow, Rat.cast_ofNat, sq, ← zpow_add₀ two_ne_zero]
    exact zpow_le_zpow_right₀ one_le_two (by decide)
  have herror := hnearest.abs_sub_le
  rw [abs_of_nonneg (Real.sqrt_nonneg _)] at herror
  exact ⟨_, hnearest.is_repack (by decide) (available_two_zpow (by decide) (by decide)) hbound,
    herror⟩

/-- A double is rounded when it becomes a single. -/
theorem Is.exists_narrow (hx : x.Is s) :
    ∃ u, Rounds .binary32 s u ∧ x.narrow = Single.pack u := by
  obtain ⟨hfinite, -, rfl⟩ := hx
  rw [narrow]
  cases hu : x.toModel.unpack with
  | finite t m e hm => exact ⟨_, rounds_round t m e, rfl⟩
  | zero t => exact ⟨_, rounds_zero t, rfl⟩
  | infinity t | notANumber =>
    rw [hu] at hfinite
    exact absurd hfinite Bool.false_ne_true

end Double

/-- A root moves no more, in proportion, than what it is the root of. -/
theorem abs_sqrt_sub_sqrt_le {a b ε : ℝ} (ha : 0 ≤ a) (hε₀ : 0 ≤ ε) (hε₁ : ε ≤ 1)
    (h : |b - a| ≤ ε * a) : |√b - √a| ≤ ε * √a := by
  obtain ⟨hlow, hhigh⟩ := abs_le.1 h
  have hroot := Real.sqrt_nonneg a
  have hsq := Real.sq_sqrt ha
  have hupper : √b ≤ (1 + ε) * √a := by
    refine Real.sqrt_le_iff.2 ⟨by positivity, ?_⟩
    rw [mul_pow, hsq]
    nlinarith [mul_nonneg hε₀ ha, mul_nonneg (mul_nonneg hε₀ hε₀) ha]
  have hlower : (1 - ε) * √a ≤ √b := by
    refine Real.le_sqrt_of_sq_le ?_
    rw [mul_pow, hsq]
    nlinarith [mul_nonneg (mul_nonneg hε₀ (sub_nonneg.2 hε₁)) ha]
  exact abs_le.2 ⟨by linarith, by linarith⟩

/-- A length is off by no more than two roundings. -/
theorem Single.abs_value_hypot_sub_le {x y : Single} (h : (hypot x y).isFinite = true) :
    |((hypot x y).value : ℝ) - √(x.value * x.value + y.value * y.value)|
      ≤ 2 * roundoff √(x.value * x.value + y.value * y.value) := by
  obtain ⟨hx, hy⟩ := isFinite_of_hypot h
  have hx := is_value hx
  have hy := is_value hy
  obtain ⟨s, hs, hs₀, hs₁, hsum⟩ := Double.Is.exists_add_squares
    (hx.widen.mul hx.widen hx.available.mul_self.1) (hy.widen.mul hy.widen hy.available.mul_self.1)
    hx.available hy.available
  obtain ⟨r, hr, hroot⟩ := hs.exists_sqrt hs₀ hs₁
  obtain ⟨u, hu, hnarrow⟩ := hr.exists_narrow
  have hhypot : hypot x y = pack u := by
    rw [hypot] at h ⊢
    split at h
    · exact absurd h (by decide)
    · next hfinite => rw [if_neg hfinite, hnarrow]
  rw [hhypot] at h ⊢
  have hsingle := abs_value_pack_sub_le hu.nearest_real h
  have hsquares : (0 : ℝ) ≤ x.value * x.value + y.value * y.value :=
    add_nonneg (mul_self_nonneg _) (mul_self_nonneg _)
  have hsum := abs_sqrt_sub_sqrt_le hsquares (by norm_num) (by norm_num) hsum
  have hd := Real.sqrt_nonneg ((x.value : ℝ) * x.value + y.value * y.value)
  have htiny : (2 : ℝ) ^ (-1075 : ℤ) ≤ 2 ^ (-200 : ℤ) :=
    zpow_le_zpow_right₀ one_le_two (by decide)
  generalize √((x.value : ℝ) * x.value + y.value * y.value) = d at *
  generalize √(s : ℝ) = e at *
  generalize (2 : ℝ) ^ (-1075 : ℤ) = δ at hroot htiny
  have hr : |(r : ℝ)| ≤ |(r : ℝ) - e| + |e - d| + d := by
    have hsplit : (r : ℝ) = r - e + (e - d) + d := by ring
    calc |(r : ℝ)| = |r - e + (e - d) + d| := congrArg _ hsplit
      _ ≤ |(r : ℝ) - e| + |e - d| + |d| := abs_add_three _ _ _
      _ = |(r : ℝ) - e| + |e - d| + d := by rw [abs_of_nonneg hd]
  have hed : e ≤ |e - d| + d := by linarith [le_abs_self (e - d)]
  have htotal : |((pack u).value : ℝ) - d| ≤ |((pack u).value : ℝ) - r| + |r - e| + |e - d| := by
    have := abs_add_three (((pack u).value : ℝ) - r) (r - e) (e - d)
    rwa [sub_add_sub_cancel, sub_add_sub_cancel] at this
  rw [roundoff] at hsingle
  rw [roundoff, abs_of_nonneg hd]
  norm_num at hsingle hroot hsum htiny ⊢
  linarith

end VectorGraphics
