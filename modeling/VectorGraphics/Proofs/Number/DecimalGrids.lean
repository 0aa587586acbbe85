import VectorGraphics.Proofs.Number.FewestDigits
import VectorGraphics.Proofs.Number.Precision

/-!
# Decimals that are found again

A decimal with few digits never falls half way between two doubles
(`RoundingInterval.ne_of_odd`), so that it lies strictly inside the interval of the double that it
is rounded to (`RoundingInterval.mem_of_nearest`). The search for the fewest digits of that double
finds this very decimal (`RoundingInterval.shortest_eq`).
-/

namespace VectorGraphics

open Float.Model.UnpackedFloat hiding round
open Rounding (Representable two_zpow_pos)

/-- Whole numbers less than one apart are equal. -/
theorem eq_of_abs_cast_sub_lt_one {m n : ℤ} (h : |(m : ℚ) - n| < 1) : m = n := by
  rw [← Int.cast_sub, ← Int.cast_abs] at h
  exact sub_eq_zero.1 (Int.abs_lt_one_iff.1 (by exact_mod_cast h))

/-- Decimals on the same grid that are less than a unit apart are equal. -/
theorem Decimal.value_eq_of_abs_sub_lt {d : Decimal} {k p : ℕ} (hd : -p ≤ d.exponent)
    (h : |d.value - k / 10 ^ p| < 1 / 10 ^ p) : d.value = k / 10 ^ p := by
  have hten : (0 : ℚ) < 10 ^ p := by positivity
  obtain ⟨i, hi⟩ := Int.eq_ofNat_of_zero_le (by omega : 0 ≤ d.exponent + p)
  have hvalue : d.value = ((d.digits * 10 ^ i : ℕ) : ℤ) / 10 ^ p := by
    have hexponent : d.exponent = i - p := by omega
    rw [value, hexponent, zpow_sub₀ (by norm_num), zpow_natCast, zpow_natCast]
    push_cast
    ring
  rw [hvalue, ← sub_div, abs_div, abs_of_pos hten, div_lt_div_iff_of_pos_right hten,
    ← Int.cast_natCast k] at h
  rw [hvalue, eq_of_abs_cast_sub_lt_one h, Int.cast_natCast]

namespace RoundingInterval

variable {m k p : ℕ} {e : ℤ}

/-- A small number of units of a decimal place is no odd multiple, with more bits, of a power of
two. -/
theorem ne_of_odd {t : ℕ} {j : ℤ} (ht : Odd t) (hk : 0 < k) (hlt : k < t) :
    (k / 10 ^ p : ℚ) ≠ t * 2 ^ j := by
  intro h
  rw [div_eq_iff (by positivity)] at h
  obtain ⟨n, rfl | rfl⟩ := Int.eq_nat_or_neg j
  · have h : k = t * 2 ^ n * 10 ^ p := by exact_mod_cast h
    have hle : t ≤ t * 2 ^ n * 10 ^ p := by
      rw [mul_assoc]
      exact Nat.le_mul_of_pos_right t (by positivity)
    omega
  · have h : k * 2 ^ n = t * 10 ^ p := by
      have h : (k : ℚ) * 2 ^ n = t * 10 ^ p := by
        rw [h, zpow_neg, zpow_natCast]
        field_simp
      exact_mod_cast h
    have hcoprime : Nat.Coprime t (2 ^ n) := (Nat.coprime_two_right.2 ht).pow_right n
    have hdvd : t ∣ k := hcoprime.dvd_of_dvd_mul_right (h ▸ dvd_mul_right t (10 ^ p))
    exact absurd (Nat.le_of_dvd hk hdvd) (by omega)

/-- What is not farther from the lower of two numbers lies in the lower half. -/
theorem le_midpoint {v y q : ℚ} (h : |v - q| ≤ |y - q|) (hvy : v < y) : q ≤ (v + y) / 2 := by
  by_contra hlt
  have hv : |v - q| = q - v := by rw [abs_of_nonpos (by linarith), neg_sub]
  refine absurd h (not_le.2 ?_)
  rw [hv, abs_lt]
  constructor <;> linarith

/-- What is not farther from the upper of two numbers lies in the upper half. -/
theorem midpoint_le {v y q : ℚ} (h : |v - q| ≤ |y - q|) (hyv : y < v) : (v + y) / 2 ≤ q := by
  by_contra hlt
  have hv : |v - q| = v - q := abs_of_nonneg (by linarith)
  refine absurd h (not_le.2 ?_)
  rw [hv, abs_lt]
  constructor <;> linarith

theorem two_zpow_eq_two_mul (i : ℤ) : (2 : ℚ) ^ i = 2 * 2 ^ (i - 1) := by
  rw [← zpow_one_add₀ two_ne_zero]
  congr 1
  ring

/-- What is rounded up to a multiple of a power of two is at least half way to it. -/
theorem half_le_of_nearest {n i : ℤ} {q : ℚ} (hn : n.natAbs ≤ 2 ^ 53) (hi : -1074 ≤ i)
    (h : ∀ y, Representable .binary64 y → |((n + 1 : ℤ) : ℚ) * 2 ^ i - q| ≤ |y - q|) :
    ((2 * n + 1 : ℤ) : ℚ) * 2 ^ (i - 1) ≤ q := by
  have hpos := two_zpow_pos (i - 1)
  have hy := h _ (Rounding.representable_intCast_mul (n := n) hn hi)
  push_cast at hy ⊢
  have := midpoint_le hy (by rw [two_zpow_eq_two_mul i]; linarith)
  rw [two_zpow_eq_two_mul i] at this
  linarith

/-- What is rounded down to a multiple of a power of two is at most half way to the next one. -/
theorem le_half_of_nearest {n i : ℤ} {q : ℚ} (hn : (n + 1).natAbs ≤ 2 ^ 53) (hi : -1074 ≤ i)
    (h : ∀ y, Representable .binary64 y → |(n : ℚ) * 2 ^ i - q| ≤ |y - q|) :
    q ≤ ((2 * n + 1 : ℤ) : ℚ) * 2 ^ (i - 1) := by
  have hpos := two_zpow_pos (i - 1)
  have hy := h _ (Rounding.representable_intCast_mul (n := n + 1) hn hi)
  push_cast at hy ⊢
  have := le_midpoint hy (by rw [two_zpow_eq_two_mul i]; linarith)
  rw [two_zpow_eq_two_mul i] at this
  linarith

/-- What is rounded to a double lies strictly above the lower end of the interval of the double. -/
theorem low_lt_of_nearest (hm : 2 ^ 52 ≤ m) (hm' : m < 2 ^ 53) (he : -1074 ≤ e) (hk : 0 < k)
    (hk' : k < 2 ^ 52) (h : ∀ y, Representable .binary64 y →
      |(m : ℚ) * 2 ^ e - k / 10 ^ p| ≤ |y - k / 10 ^ p|) :
    (ofBinary .binary64 m e).low < k / 10 ^ p := by
  have hquarter : e - 1 - 1 = e - 2 := by ring
  -- the interval reaches down to the middle between the double and the one before it
  simp only [low, ofBinary]
  split
  · next hpower =>
    have hm : m = 2 ^ 52 := hpower.1
    have he : -1074 < e := hpower.2
    have hvalue : (m : ℚ) * 2 ^ e = ((2 * m - 1 + 1 : ℤ) : ℚ) * 2 ^ (e - 1) := by
      rw [two_zpow_eq_two_mul e]
      push_cast
      ring
    rw [hvalue] at h
    have hlower := half_le_of_nearest (by omega) (by omega) h
    rw [hquarter] at hlower
    refine lt_of_le_of_ne ?_ fun heq =>
      ne_of_odd (t := 4 * m - 1) (by rw [Nat.odd_iff]; omega) hk (by omega) heq.symm
    rw [Nat.cast_sub (by omega)]
    push_cast at hlower ⊢
    linarith
  · have hvalue : (m : ℚ) * 2 ^ e = ((m - 1 + 1 : ℤ) : ℚ) * 2 ^ e := by
      push_cast
      ring
    rw [hvalue] at h
    have hlower := half_le_of_nearest (by omega) he h
    have hodd : ((4 * m - 2 : ℕ) : ℚ) * 2 ^ (e - 2) = (2 * m - 1 : ℕ) * 2 ^ (e - 1) := by
      rw [two_zpow_eq_two_mul (e - 1), hquarter, Nat.cast_sub (by omega), Nat.cast_sub (by omega)]
      push_cast
      ring
    rw [hodd]
    refine lt_of_le_of_ne ?_ fun heq =>
      ne_of_odd (t := 2 * m - 1) (by rw [Nat.odd_iff]; omega) hk (by omega) heq.symm
    rw [Nat.cast_sub (by omega)]
    push_cast at hlower ⊢
    linarith

/-- What is rounded to a double lies strictly below the upper end of the interval of the double. -/
theorem lt_high_of_nearest (hm : 2 ^ 52 ≤ m) (hm' : m < 2 ^ 53) (he : -1074 ≤ e) (hk : 0 < k)
    (hk' : k < 2 ^ 52) (h : ∀ y, Representable .binary64 y →
      |(m : ℚ) * 2 ^ e - k / 10 ^ p| ≤ |y - k / 10 ^ p|) :
    k / 10 ^ p < (ofBinary .binary64 m e).high := by
  -- the interval reaches up to the middle between the double and the one after it
  have hupper := le_half_of_nearest (n := m) (by omega) he h
  have hodd : (ofBinary .binary64 m e).high = (2 * m + 1 : ℕ) * 2 ^ (e - 1) := by
    have hquarter : e - 1 - 1 = e - 2 := by ring
    simp only [high, ofBinary]
    rw [two_zpow_eq_two_mul (e - 1), hquarter]
    push_cast
    ring
  rw [hodd]
  refine lt_of_le_of_ne ?_ (ne_of_odd (by rw [Nat.odd_iff]; omega) hk (by omega))
  push_cast at hupper ⊢
  exact hupper

/-- What is rounded to a double lies strictly inside the interval of the double. -/
theorem mem_of_nearest (hm : 2 ^ 52 ≤ m) (hm' : m < 2 ^ 53) (he : -1074 ≤ e) (hk : 0 < k)
    (hk' : k < 2 ^ 52) (h : ∀ y, Representable .binary64 y →
      |(m : ℚ) * 2 ^ e - k / 10 ^ p| ≤ |y - k / 10 ^ p|) :
    (ofBinary .binary64 m e).low < k / 10 ^ p ∧ k / 10 ^ p < (ofBinary .binary64 m e).high :=
  ⟨low_lt_of_nearest hm hm' he hk hk' h, lt_high_of_nearest hm hm' he hk hk' h⟩

/-- A decimal place of a double is larger than a unit of its mantissa, if fewer digits than bits of
the mantissa are left of it. -/
theorem two_pow_bounds {n : ℕ} (hk : 0 < k) (hk' : k < 2 ^ 51)
    (hlow : 2 ^ 51 * (2 ^ n)⁻¹ ≤ (k / 10 ^ p : ℚ)) (hhigh : (k / 10 ^ p : ℚ) < 2 ^ 53 * (2 ^ n)⁻¹) :
    10 ^ p < 2 ^ n ∧ 2 ^ n < 2 ^ 53 * 10 ^ p := by
  have hk₀ : (1 : ℚ) ≤ k := by exact_mod_cast hk
  have hk₁ : (k : ℚ) < 2 ^ 51 := by exact_mod_cast hk'
  have hten : (0 : ℚ) < 10 ^ p := by positivity
  have htwo : (0 : ℚ) < 2 ^ n := by positivity
  rw [← div_eq_mul_inv, div_le_div_iff₀ htwo hten] at hlow
  rw [← div_eq_mul_inv, div_lt_div_iff₀ hten htwo] at hhigh
  have hlower : (10 : ℚ) ^ p < 2 ^ n := by
    refine lt_of_mul_lt_mul_left (hlow.trans_lt ?_) (by norm_num : (0 : ℚ) ≤ 2 ^ 51)
    exact mul_lt_mul_of_pos_right hk₁ htwo
  have hupper : (2 : ℚ) ^ n < 2 ^ 53 * 10 ^ p :=
    (le_mul_of_one_le_left htwo.le hk₀).trans_lt hhigh
  exact ⟨by exact_mod_cast hlower, by exact_mod_cast hupper⟩

/-- How many grids there are from the first one that is searched to that of `p` decimal places. -/
theorem topExponent_bounds (n : ℕ) (hp : p ≤ 15) (hlow : 10 ^ p < 2 ^ n)
    (hhigh : 2 ^ n < 2 ^ 53 * 10 ^ p) :
    0 ≤ (53 - n : ℤ) * 1234 / 4096 + 1 + p ∧ (53 - n : ℤ) * 1234 / 4096 + 1 + p ≤ 19 := by
  have hn : n < 104 := by
    by_contra hlt
    have : 2 ^ 53 * 10 ^ p ≤ 2 ^ 53 * 10 ^ 15 :=
      Nat.mul_le_mul_left _ (Nat.pow_le_pow_right (by decide) hp)
    have : 2 ^ 104 ≤ 2 ^ n := Nat.pow_le_pow_right two_pos (not_lt.1 hlt)
    omega
  have hall : ∀ p : ℕ, p < 16 → ∀ n : ℕ, n < 104 → 10 ^ p < 2 ^ n → 2 ^ n < 2 ^ 53 * 10 ^ p →
      0 ≤ (53 - n : ℤ) * 1234 / 4096 + 1 + p ∧ (53 - n : ℤ) * 1234 / 4096 + 1 + p ≤ 19 := by
    decide +kernel
  exact hall p (by omega) n hn hlow hhigh

/-- The decimal with the fewest digits in the interval of a double is the one that was rounded to
it, if that has few digits. -/
theorem shortest_eq (tie : Tie) (hm : 2 ^ 52 ≤ m) (hm' : m < 2 ^ 53) (he : -1074 ≤ e) (he' : e ≤ 0)
    (hk : 0 < k) (hk' : k < 2 ^ 51) (hp : p ≤ 15) (hlow : (ofBinary .binary64 m e).low < k / 10 ^ p)
    (hhigh : k / 10 ^ p < (ofBinary .binary64 m e).high) :
    ((ofBinary .binary64 m e).shortest tie).value = k / 10 ^ p
      ∧ -p ≤ ((ofBinary .binary64 m e).shortest tie).exponent := by
  obtain ⟨n, rfl⟩ : ∃ n : ℕ, e = -n := ⟨(-e).toNat, by omega⟩
  have hcenter := center_ofBinary m (-n)
  have hhigh' := high_ofBinary m (-n)
  have hlow' := low_ofBinary_bounds (Nat.lt_of_lt_of_le (by decide) hm) (-n)
  have htop := topExponent_ofBinary hm hm' (-n)
  rw [← sub_eq_add_neg] at htop
  have hpos := two_zpow_pos (-n - 2)
  have hquarter : ((2 : ℚ) ^ n)⁻¹ = 4 * 2 ^ (-n - 2 : ℤ) := by
    rw [zpow_sub₀ two_ne_zero, zpow_neg, zpow_natCast]
    ring
  rw [zpow_neg, zpow_natCast] at hcenter
  set r := ofBinary .binary64 m (-n)
  have hq : (k / 10 ^ p : ℚ) = k * 10 ^ (-p : ℤ) := by
    rw [zpow_neg, zpow_natCast, div_eq_mul_inv]
  -- the number of units is less than the mantissa, and so is a unit than the interval
  have hm₀ : (2 : ℚ) ^ 52 ≤ m := by exact_mod_cast hm
  have hm₁ : (m : ℚ) + 1 ≤ 2 ^ 53 := by exact_mod_cast hm'
  have hinv : (0 : ℚ) ≤ (2 ^ n)⁻¹ := by positivity
  have hcenter₀ := mul_le_mul_of_nonneg_right hm₀ hinv
  have hcenter₁ := mul_le_mul_of_nonneg_right hm₁ hinv
  rw [← hcenter] at hcenter₀
  rw [add_mul, one_mul, ← hcenter] at hcenter₁
  obtain ⟨hunit, hunit'⟩ := two_pow_bounds (n := n) (p := p) hk hk' (by linarith) (by linarith)
  obtain ⟨hj₀, hj₁⟩ := topExponent_bounds n hp hunit hunit'
  obtain ⟨j, hj⟩ := Int.eq_ofNat_of_zero_le hj₀
  have hgrid : (r.onGrid? tie (r.topExponent - (j : ℕ))).isSome = true := by
    have hexponent : r.topExponent - (j : ℕ) = -p := by
      rw [htop]
      omega
    rw [hexponent]
    exact isSome_onGrid?_of_mem tie (by linarith) (by linarith) (hq ▸ hlow) (hq ▸ hhigh)
  obtain ⟨hholds, hfine, -⟩ := search_holds (by omega : j < 20) hgrid
  rw [← shortest] at hholds hfine
  have hexponent : (-p : ℤ) ≤ (r.shortest tie).exponent := by
    rw [htop] at hfine
    omega
  -- both decimals lie in the interval, which is no wider than a unit
  refine ⟨Decimal.value_eq_of_abs_sub_lt hexponent ?_, hexponent⟩
  obtain ⟨h₀, h₁⟩ := mem_of_holds hholds
  rw [← Decimal.value] at h₀ h₁
  have hwidth : ((2 : ℚ) ^ n)⁻¹ ≤ 1 / 10 ^ p := by
    rw [← one_div]
    exact one_div_le_one_div_of_le (by positivity) (by exact_mod_cast hunit.le)
  rw [abs_lt]
  constructor <;> linarith

end RoundingInterval

end VectorGraphics
