import VectorGraphics.Proofs.Number.Exact

/-!
# How precise rounding is

`Nearest f x u` says of a real number what `Rounds` says of a rational. The nearest number of a
format is off by at most half the distance between its neighbours (`Nearest.abs_sub_le`). A square
root is the nearest number to the root of the value (`nearest_sqrt`).
-/

namespace VectorGraphics.Rounding

open Float.Model.UnpackedFloat hiding round
open Float.Model (UnpackedFloat totalExponent)
open Packing

variable {f : Float.Model.Format} {u : UnpackedFloat} {x : ℝ}

/-- The number is canonical, and no representable rational is nearer to the real number `x`. -/
structure Nearest (f : Float.Model.Format) (x : ℝ) (u : UnpackedFloat) : Prop where
  isFinite : u.isFinite = true
  canonical : Canonical f u
  nearest : ∀ y, Representable f y → |(value u : ℝ) - x| ≤ |(y : ℝ) - x|

theorem Rounds.nearest_real {q : ℚ} (h : Rounds f q u) : Nearest f q u :=
  ⟨h.isFinite, h.canonical, fun y hy => by exact_mod_cast h.nearest y hy⟩

/-! ## The error of one rounding -/

theorem representable_intCast_mul {n e : ℤ} (hn : n.natAbs ≤ 2 ^ f.mantissaBits)
    (he : f.minExponent ≤ e) : Representable f (n * 2 ^ e) := by
  have habs : |(n : ℚ) * 2 ^ e| = n.natAbs * 2 ^ e := by
    rw [abs_mul, abs_of_pos (two_zpow_pos e), Nat.cast_natAbs, Int.cast_abs]
  obtain hlt | heq := hn.lt_or_eq
  · exact ⟨n.natAbs, e, hlt, he, habs⟩
  · refine ⟨1, f.mantissaBits + e, Nat.one_lt_two_pow ?_, by omega, ?_⟩
    · rw [Float.Model.Format.mantissaBits]
      omega
    · rw [habs, heq, Nat.cast_one, one_mul, zpow_add₀ two_ne_zero, zpow_natCast]
      push_cast
      rfl

/-- Neighbours in a format lie close to each other, compared to their size. -/
theorem exists_representable_near (f : Float.Model.Format) (x : ℝ) : ∃ y, Representable f y
    ∧ |(y : ℝ) - x| ≤ 2 ^ (-f.mantissaBits : ℤ) * |x| + 2 ^ (f.minExponent - 1) := by
  have hsmall : (0 : ℝ) < 2 ^ (f.minExponent - 1) := zpow_pos two_pos _
  obtain rfl | hx := eq_or_ne x 0
  · refine ⟨0, representable_value (u := .zero .positive) trivial, ?_⟩
    simpa using hsmall.le
  -- the exponent at which the mantissa of `x` is full
  obtain ⟨t, ht⟩ : ∃ t, t = max (Int.log 2 |x| + 1 - f.mantissaBits) f.minExponent := ⟨_, rfl⟩
  have hpos : (0 : ℝ) < 2 ^ t := zpow_pos two_pos t
  have hround := abs_sub_round (x / 2 ^ t)
  have hbound : |x / 2 ^ t| ≤ (2 ^ f.mantissaBits : ℕ) := by
    have hlog : |x| < (2 : ℝ) ^ (Int.log 2 |x| + 1) := by
      exact_mod_cast Int.lt_zpow_succ_log_self one_lt_two |x|
    rw [abs_div, abs_of_pos hpos, div_le_iff₀ hpos]
    calc |x| ≤ 2 ^ (Int.log 2 |x| + 1) := hlog.le
      _ ≤ 2 ^ (f.mantissaBits + t : ℤ) := zpow_le_zpow_right₀ one_le_two (by omega)
      _ = (2 ^ f.mantissaBits : ℕ) * 2 ^ t := by
        rw [zpow_add₀ two_ne_zero, zpow_natCast]
        push_cast
        rfl
  have hmantissa : (round (x / 2 ^ t)).natAbs ≤ 2 ^ f.mantissaBits := by
    have hlt : |((round (x / 2 ^ t) : ℤ) : ℝ)| < (2 ^ f.mantissaBits : ℕ) + 1 := by
      have := abs_sub_abs_le_abs_sub (round (x / 2 ^ t) : ℝ) (x / 2 ^ t)
      rw [abs_sub_comm] at this
      linarith
    rw [← Int.cast_abs, Int.abs_eq_natAbs] at hlt
    exact Nat.lt_succ_iff.1 (by exact_mod_cast hlt)
  refine ⟨_, representable_intCast_mul hmantissa (ht ▸ le_max_right _ _), ?_⟩
  have herror : |((round (x / 2 ^ t) * 2 ^ t : ℚ) : ℝ) - x| ≤ 2 ^ (t - 1) := by
    have hscale : ((round (x / 2 ^ t) * 2 ^ t : ℚ) : ℝ) - x
        = -(x / 2 ^ t - round (x / 2 ^ t)) * 2 ^ t := by
      push_cast
      field_simp
      ring
    rw [hscale, abs_mul, abs_neg, abs_of_pos hpos, zpow_sub_one₀ two_ne_zero]
    nlinarith
  refine herror.trans ?_
  obtain hmax | hmax := max_choice (Int.log 2 |x| + 1 - f.mantissaBits) f.minExponent
  · have hlog : (2 : ℝ) ^ Int.log 2 |x| ≤ |x| := by
      exact_mod_cast Int.zpow_log_le_self one_lt_two (abs_pos.2 hx)
    calc (2 : ℝ) ^ (t - 1) = 2 ^ (-f.mantissaBits : ℤ) * 2 ^ Int.log 2 |x| := by
          rw [← zpow_add₀ two_ne_zero]
          congr 1
          omega
      _ ≤ 2 ^ (-f.mantissaBits : ℤ) * |x| := by gcongr
      _ ≤ _ := by linarith
  · have : (0 : ℝ) ≤ 2 ^ (-f.mantissaBits : ℤ) * |x| := by positivity
    rw [ht, hmax]
    linarith

/-- Rounding changes a number by little, compared to its size. -/
theorem Nearest.abs_sub_le (h : Nearest f x u) : |(value u : ℝ) - x|
    ≤ 2 ^ (-f.mantissaBits : ℤ) * |x| + 2 ^ (f.minExponent - 1) := by
  obtain ⟨y, hy, hle⟩ := exists_representable_near f x
  exact (h.nearest y hy).trans hle

/-- Rounding does not pass a representable bound. -/
theorem Nearest.abs_value_le {b : ℚ} (h : Nearest f x u) (hb : Representable f b)
    (hx : |x| ≤ b) : |value u| ≤ b := by
  obtain ⟨hlow, hhigh⟩ := abs_le.1 hx
  by_contra hlt
  obtain hlt | hlt := lt_abs.1 (not_le.1 hlt)
  · have hlt : (b : ℝ) < value u := by exact_mod_cast hlt
    have := h.nearest b hb
    rw [abs_of_nonneg (by linarith), abs_of_nonneg (by linarith)] at this
    linarith
  · have hlt : (b : ℝ) < -value u := by exact_mod_cast hlt
    have := h.nearest (-b) hb.neg
    push_cast at this
    rw [abs_of_nonpos (by linarith), abs_of_nonpos (by linarith)] at this
    linarith

/-- A rounding below a bound the format has room for is packed as it is. -/
theorem Nearest.is_repack {b : ℚ} (hf : 0 < f.exponentBias) (h : Nearest f x u)
    (hb : Available f b) (hx : |x| ≤ b) : Is f (repack f u) (value u) := by
  have hvalue := h.abs_value_le hb.representable hx
  have hlt : |value u| < overflow f := hvalue.trans_lt (lt_of_abs_lt hb.abs_lt)
  have hfits := fits_of_abs_lt h.canonical (minExponent_le_maxExponent hf) hlt
  rw [repack, unpack_pack h.canonical hfits]
  exact ⟨h.isFinite, h.canonical, rfl⟩

/-! ## Square roots -/

theorem exists_rat_near {a b ε : ℝ} (ha : a < x) (hb : x < b) (hε : 0 < ε) :
    ∃ d : ℚ, a < d ∧ d < b ∧ |(d : ℝ) - x| ≤ ε := by
  obtain ⟨d, hlow, hhigh⟩ := exists_rat_btwn (lt_min hb (lt_add_of_pos_right x hε))
  obtain ⟨hb, hε⟩ := lt_min_iff.1 hhigh
  refine ⟨d, ha.trans hlow, hb, abs_le.2 ⟨?_, ?_⟩⟩ <;> linarith

/-- The accuracy of the whole part of a square root. -/
def rootAccuracy (m : ℕ) : Accuracy :=
  if m - m.sqrt * m.sqrt = 0 then .exact
  else .inexact (if m - m.sqrt * m.sqrt ≤ m.sqrt then .lt else .gt)

/-- The accuracy describes rationals as near as you like to the fraction that is cut off. -/
theorem exists_describes_rootAccuracy (m : ℕ) {ε : ℝ} (hε : 0 < ε) :
    ∃ d : ℚ, Describes (rootAccuracy m) d ∧ |(d : ℝ) - (√m - m.sqrt)| ≤ ε := by
  have hlow := Nat.sqrt_le m
  have hhigh := Nat.lt_succ_sqrt m
  rw [rootAccuracy]
  generalize m.sqrt = s at *
  split
  · next hzero =>
    have hm : (m : ℝ) = s * s := by
      exact_mod_cast hlow.antisymm' (Nat.sub_eq_zero_iff_le.1 hzero)
    refine ⟨0, rfl, ?_⟩
    rw [hm, Real.sqrt_mul_self (Nat.cast_nonneg s), Rat.cast_zero, sub_self, sub_self, abs_zero]
    exact hε.le
  · next hne =>
    split
    · next hle =>
      have h₀ : (s : ℝ) ^ 2 < m := by
        rw [sq]
        exact_mod_cast Nat.lt_of_sub_ne_zero hne
      have h₁ : (m : ℝ) ≤ s * s + s := by exact_mod_cast Nat.sub_le_iff_le_add'.1 hle
      have hpos : (0 : ℝ) < √m - s := sub_pos.2 (Real.lt_sqrt_of_sq_lt h₀)
      have hhalf : √m - s < 1 / 2 := by
        rw [sub_lt_iff_lt_add, Real.sqrt_lt' (by positivity)]
        nlinarith
      obtain ⟨d, hd₀, hd₁, hd⟩ := exists_rat_near hpos hhalf hε
      have hd₁ : (d : ℝ) < ((1 / 2 : ℚ) : ℝ) := by simpa using hd₁
      exact ⟨d, ⟨by exact_mod_cast hd₀, by exact_mod_cast hd₁⟩, hd⟩
    · next hlt =>
      have h₀ : (s : ℝ) * s + s + 1 ≤ m := by
        exact_mod_cast (by omega : s * s + s + 1 ≤ m)
      have h₁ : (m : ℝ) < (s + 1) ^ 2 := by
        rw [sq]
        exact_mod_cast hhigh
      have hhalf : 1 / 2 < √m - s := by
        rw [lt_sub_iff_add_lt]
        refine Real.lt_sqrt_of_sq_lt ?_
        nlinarith
      have hone : √m - s < 1 := by
        rw [sub_lt_iff_lt_add', Real.sqrt_lt' (by positivity)]
        exact h₁
      obtain ⟨d, hd₀, hd₁, hd⟩ := exists_rat_near hhalf hone hε
      have hd₀ : ((1 / 2 : ℚ) : ℝ) < (d : ℝ) := by simpa using hd₀
      exact ⟨d, ⟨by exact_mod_cast hd₀, by exact_mod_cast hd₁⟩, hd⟩

/-- The whole part of a square root has a full mantissa, if its exponent is not too large for
that. -/
theorem full_sqrt {m k : ℕ} (hm : m ≠ 0) (h : 2 * f.mantissaBitsWithoutImplicit ≤ m.log2 + k) :
    2 ^ f.mantissaBitsWithoutImplicit ≤ (m * 2 ^ k).sqrt := by
  rw [Nat.le_sqrt, ← pow_add, ← two_mul]
  calc 2 ^ (2 * f.mantissaBitsWithoutImplicit) ≤ 2 ^ (m.log2 + k) :=
        Nat.pow_le_pow_right two_pos h
    _ = 2 ^ m.log2 * 2 ^ k := pow_add _ _ _
    _ ≤ m * 2 ^ k := Nat.mul_le_mul_right _ (Nat.log2_self_le hm)

/-- The root of a positive number is the whole part of a root of a scaled mantissa, rounded by its
accuracy. The mantissa is scaled until the whole part is full or the exponent is the smallest. -/
theorem exists_sqrt_eq (f : Float.Model.Format) (m : ℕ) (e : ℤ) (hm : 0 < m) :
    ∃ (k : ℕ) (t : ℤ), e = 2 * t + k
      ∧ sqrt f (.finite .positive m e hm)
        = roundWithAccuracy f .positive (m * 2 ^ k).sqrt t (rootAccuracy (m * 2 ^ k))
      ∧ (2 ^ f.mantissaBitsWithoutImplicit ≤ (m * 2 ^ k).sqrt ∨ t ≤ f.minExponent) := by
  obtain ⟨t, ht⟩ : ∃ t, t = min (e / 2) (f.targetExponent ((totalExponent m e + 1) / 2)) :=
    ⟨_, rfl⟩
  obtain ⟨k, hk⟩ : ∃ k : ℕ, k = (e - 2 * t).toNat := ⟨_, rfl⟩
  refine ⟨k, t, by omega, ?_, ?_⟩
  · rw [hk, ht, rootAccuracy, ← Nat.shiftLeft_eq]
    rfl
  · refine or_iff_not_imp_right.2 fun hlt => full_sqrt hm.ne' ?_
    simp only [Float.Model.Format.targetExponent, Float.Model.Format.mantissaBits,
      totalExponent] at ht
    omega

/-- Half of an even part of the exponent comes out of the root. -/
theorem sqrt_value_finite {m k : ℕ} {t e : ℤ} (hm : 0 < m) (he : e = 2 * t + k) :
    √((value (.finite .positive m e hm) : ℚ) : ℝ) = √((m * 2 ^ k : ℕ) : ℝ) * 2 ^ t := by
  have hsquare : ((value (.finite .positive m e hm) : ℚ) : ℝ)
      = (m * 2 ^ k : ℕ) * (2 ^ t) ^ 2 := by
    rw [value, sign, one_mul, he, zpow_add₀ two_ne_zero, mul_comm (2 : ℤ), zpow_mul,
      zpow_natCast, zpow_ofNat]
    push_cast
    ring
  rw [hsquare, Real.sqrt_mul (Nat.cast_nonneg _), Real.sqrt_sq (zpow_pos two_pos t).le]

/-- The root of a positive number is a rounding of rationals as near as you like to the root of its
value. -/
theorem exists_rounds_sqrt {m : ℕ} {e : ℤ} (hm : 0 < m) {ε : ℝ} (hε : 0 < ε) :
    ∃ q : ℚ, Rounds f q (sqrt f (.finite .positive m e hm))
      ∧ |(q : ℝ) - √((value (.finite .positive m e hm) : ℚ) : ℝ)| ≤ ε := by
  obtain ⟨k, t, he, hsqrt, hfull⟩ := exists_sqrt_eq f m e hm
  have hpos : (0 : ℝ) < 2 ^ t := zpow_pos two_pos t
  obtain ⟨d, hd, hnear⟩ := exists_describes_rootAccuracy (m * 2 ^ k) (div_pos hε hpos)
  refine ⟨_, hsqrt ▸ rounds_roundWithAccuracy .positive (le_targetExponent hfull) hd, ?_⟩
  have hsplit : ((sign .positive * (((m * 2 ^ k).sqrt + d) * 2 ^ t) : ℚ) : ℝ)
      - √((m * 2 ^ k : ℕ) : ℝ) * 2 ^ t
      = (d - (√((m * 2 ^ k : ℕ) : ℝ) - (m * 2 ^ k).sqrt)) * 2 ^ t := by
    rw [sign]
    push_cast
    ring
  rw [sqrt_value_finite hm he, hsplit, abs_mul, abs_of_pos hpos]
  exact (le_div_iff₀ hpos).1 hnear

/-- A rounding of rationals as near as you like to a real number is nearest to it. -/
theorem nearest_of_rounds_near
    (h : ∀ ε : ℝ, 0 < ε → ∃ q : ℚ, Rounds f q u ∧ |(q : ℝ) - x| ≤ ε) : Nearest f x u := by
  obtain ⟨_, hrounds, -⟩ := h 1 one_pos
  refine ⟨hrounds.isFinite, hrounds.canonical, fun y hy => le_of_forall_pos_le_add fun ε hε => ?_⟩
  obtain ⟨q, hrounds, hq⟩ := h (ε / 2) (half_pos hε)
  calc |(value u : ℝ) - x|
      ≤ |(value u : ℝ) - q| + |q - x| := abs_sub_le _ _ _
    _ ≤ |(y : ℝ) - q| + |q - x| := add_le_add_left (hrounds.nearest_real.nearest y hy) _
    _ ≤ |(y : ℝ) - x| + |x - q| + |q - x| := add_le_add_left (abs_sub_le _ _ _) _
    _ ≤ |(y : ℝ) - x| + ε := by
      rw [abs_sub_comm x]
      linarith

/-- The square root of a number that is not negative is the root of its value, rounded. -/
theorem nearest_sqrt (hu : u.isFinite = true) (hvalue : 0 ≤ value u) :
    Nearest f √(value u) (sqrt f u) := by
  cases u with
  | infinity | notANumber => exact absurd hu Bool.false_ne_true
  | zero s =>
    have := (rounds_zero (f := f) s).nearest_real
    rw [Rat.cast_zero, ← Real.sqrt_zero, ← Rat.cast_zero] at this
    exact this
  | finite s m e hm =>
    have hmagnitude : (0 : ℚ) < m * 2 ^ e := mul_pos (by exact_mod_cast hm) (two_zpow_pos e)
    obtain rfl : s = .positive := by
      cases s with
      | positive => rfl
      | negative =>
        rw [value, sign, neg_one_mul] at hvalue
        linarith
    exact nearest_of_rounds_near fun _ hε => exists_rounds_sqrt hm hε

end VectorGraphics.Rounding
