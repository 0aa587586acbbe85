import VectorGraphics.Proofs.Number.PrintedUnits

/-!
# How accurate the text of a coordinate is

With up to six places the power of ten is exact, and so is its product with a coordinate. Below
`2 ^ 24` the text denotes the coordinate rounded to the last place (`Single.exists_denotes_chars`).
From there on every coordinate is an integer and is printed as such, but clipped to 64 bits
(`Single.chars_of_intCast`). So the text is as accurate as the places promise exactly up to `2 ^ 63`
(`Single.isAccurate_iff`).
-/

namespace VectorGraphics

open Rounding (Representable Available two_zpow_pos overflow)

/-- A double has room for a single times a number of up to 29 bits. -/
theorem Rounding.Available.mul_natCast {q : ℚ} (h : Available .binary32 q) {n : ℕ}
    (hn : n ≤ 2 ^ 29) : Available .binary64 (q * n) := by
  obtain ⟨⟨m, e, hm, he, hq⟩, hlt⟩ := h
  refine ⟨⟨m * n, e, ?_, he.trans' (by decide), ?_⟩, ?_⟩
  · calc m * n < 2 ^ 24 * 2 ^ 29 := Nat.mul_lt_mul_of_lt_of_le hm hn (by decide)
      _ = 2 ^ Float.Model.Format.binary64.mantissaBits := by decide
  · rw [abs_mul, hq, Nat.abs_cast]
    push_cast
    ring
  · rw [abs_mul, Nat.abs_cast]
    have hn' : (n : ℚ) ≤ 2 ^ 29 := by exact_mod_cast hn
    calc |q| * n ≤ overflow .binary32 * 2 ^ 29 :=
          mul_le_mul hlt.le hn' (Nat.cast_nonneg n) (two_zpow_pos _).le
      _ = 2 ^ (157 : ℤ) := by
          rw [show overflow .binary32 = 2 ^ (128 : ℤ) from rfl]
          norm_num
      _ < overflow .binary64 := zpow_lt_zpow_right₀ one_lt_two (by decide)

namespace Single

/-- The text has no more than the given number of places, and denotes a number that differs from the
coordinate by no more than half of the last place and a rounding in double precision. -/
def IsAccurate (x : Single) (places : UInt8) : Prop :=
  ∃ w, Decimal.Denotes places.toNat (x.chars places) w
    ∧ |w - x.value| ≤ 1 / 10 ^ places.toNat / 2 + |x.value| / 2 ^ 51

variable {x : Single} {places : UInt8}

/-- With up to six places nothing is rounded before the units are. -/
theorem Printing.scaled_eq {factor scaled rounded : ℚ} {units : ℤ}
    (h : Printing x places factor scaled units rounded) (hp : places ≤ 6) :
    factor = 10 ^ places.toNat ∧ scaled = x.value * 10 ^ places.toNat := by
  have hp : places.toNat ≤ 6 := UInt8.le_iff_toNat_le.1 hp
  have hfactor := h.factor_eq (by omega)
  have hvalue := is_value h.isFinite
  have hpow : 10 ^ places.toNat ≤ 2 ^ 29 :=
    (Nat.pow_le_pow_right (by decide) hp).trans (by decide)
  have havailable : Available .binary64 (x.value * factor) := by
    rw [hfactor]
    exact_mod_cast hvalue.available.mul_natCast hpow
  refine ⟨hfactor, ?_⟩
  rw [← hfactor]
  exact h.scaled_is.value_eq.symm.trans (hvalue.widen.mul h.factor_is havailable).value_eq

/-- A coordinate without a fraction is printed as an integer, clipped to 64 bits. -/
theorem chars_of_intCast {n : ℤ} (hx : x.Is n) (hp : places ≤ 6) :
    x.chars places = Double.intText (Double.saturate n) := by
  obtain ⟨factor, scaled, units, rounded, h⟩ := exists_printing hx.isFinite places
  obtain ⟨hfactor, hscaled⟩ := h.scaled_eq hp
  have hpos := h.factor_pos
  rw [hx.value_eq, ← hfactor] at hscaled
  have hunits : (units : ℚ) / factor = n := by
    have hint : units = n * 10 ^ places.toNat := by
      refine eq_of_abs_cast_sub_lt_one (lt_of_le_of_lt ?_ (by norm_num : (1 / 2 : ℚ) < 1))
      push_cast
      rw [← hfactor, ← hscaled]
      exact h.units_near
    rw [div_eq_iff hpos.ne', hint, hfactor]
    push_cast
    rfl
  have hnearest := h.rounded_nearest n hx.available.widen.representable
  rw [hunits, sub_self, abs_zero, abs_nonpos_iff, sub_eq_zero] at hnearest
  exact h.chars_of_rounded_eq_int hnearest

/-- The text of a coordinate of moderate size denotes the coordinate rounded to the last place. -/
theorem exists_denotes_chars (hx : x.isFinite = true) (hp : places ≤ 6)
    (hsize : |x.value| < 2 ^ 24) : ∃ w, Decimal.Denotes places.toNat (x.chars places) w
      ∧ |w - x.value| ≤ 1 / 10 ^ places.toNat / 2 := by
  obtain ⟨factor, scaled, units, rounded, h⟩ := exists_printing hx places
  obtain ⟨-, hscaled⟩ := h.scaled_eq hp
  have hp : places.toNat ≤ 6 := UInt8.le_iff_toNat_le.1 hp
  have hten : (0 : ℚ) < 10 ^ places.toNat := by positivity
  have hten' : (10 : ℚ) ^ places.toNat ≤ 10 ^ 6 := pow_le_pow_right₀ (by norm_num) hp
  have hnear := hscaled ▸ h.units_near
  have hfew : FewUnits places units := by
    have hproduct : |x.value * 10 ^ places.toNat| ≤ 2 ^ 24 * 10 ^ 6 := by
      rw [abs_mul, abs_of_pos hten]
      exact mul_le_mul hsize.le hten' hten.le (by positivity)
    have hunits := abs_sub_abs_le_abs_sub (units : ℚ) (x.value * 10 ^ places.toNat)
    have hunits : |(units : ℚ)| ≤ 2 ^ 44 := by
      norm_num at hunits hproduct hnear ⊢
      linarith
    exact .inl ⟨by omega, by exact_mod_cast hunits⟩
  refine ⟨_, h.denotes_units hfew, ?_⟩
  have hsplit : units / 10 ^ places.toNat - x.value
      = (units - x.value * 10 ^ places.toNat) / 10 ^ places.toNat := by field_simp
  rw [hsplit, abs_div, abs_of_pos hten, div_right_comm]
  exact div_le_div_of_nonneg_right hnear hten.le

/-- A large coordinate has no fraction. -/
theorem exists_is_intCast (hx : x.isFinite = true) (hsize : 2 ^ 24 ≤ |x.value|) :
    ∃ n : ℤ, x.Is n := by
  have hrep := (is_value hx).available.representable
  by_contra hne
  have hne : ∀ n : ℤ, x.value ≠ n := fun n hn => hne ⟨n, hn ▸ is_value hx⟩
  exact absurd (hrep.abs_lt_of_ne_int hne) (not_lt.2 hsize)

/-- From `2 ^ 24` on the text denotes the coordinate clipped to 64 bits. -/
theorem exists_denotes_saturate (hx : x.isFinite = true) (hp : places ≤ 6)
    (hsize : 2 ^ 24 ≤ |x.value|) : ∃ n : ℤ, x.value = n
      ∧ Decimal.Denotes places.toNat (x.chars places) (Double.saturate n : ℤ) := by
  obtain ⟨n, hn⟩ := exists_is_intCast hx hsize
  refine ⟨n, hn.value_eq, ?_⟩
  rw [chars_of_intCast hn hp]
  exact (Decimal.denotes_intText _).mono (Nat.zero_le _)

/-- A text that is accurate is that of a coordinate up to `2 ^ 63`: the next coordinate is far away
from the largest integer. -/
theorem IsAccurate.abs_value_le (h : x.IsAccurate places) (hx : x.isFinite = true)
    (hp : places ≤ 6) : |x.value| ≤ 2 ^ 63 := by
  by_contra hbeyond
  rw [not_le] at hbeyond
  obtain ⟨n, -, hdenotes⟩ := exists_denotes_saturate hx hp (hbeyond.le.trans' (by norm_num))
  obtain ⟨w, hw, herror⟩ := h
  obtain rfl := hw.unique hdenotes
  have hrep : Representable .binary32 |x.value| :=
    Rounding.representable_abs.2 (is_value hx).available.representable
  have hpower : Representable .binary32 (2 ^ 63) := ⟨1, 63, by decide, by decide, by norm_num⟩
  have happart : |(|x.value|)| ≤ 2 ^ 25 * |(|x.value| - 2 ^ 63)| :=
    hrep.abs_le_mul_abs_sub hpower hbeyond.ne'
  rw [abs_abs, abs_of_pos (sub_pos.2 hbeyond)] at happart
  have hsaturate : |((Double.saturate n : ℤ) : ℚ)| ≤ 2 ^ 63 := by
    have : |Double.saturate n| ≤ 2 ^ 63 := by
      rw [Double.saturate, abs_le]
      omega
    exact_mod_cast this
  have hdistance := abs_sub_abs_le_abs_sub x.value (Double.saturate n : ℤ)
  rw [abs_sub_comm x.value] at hdistance
  have hplace : (1 : ℚ) / 10 ^ places.toNat ≤ 1 :=
    div_le_self zero_le_one (one_le_pow₀ (by norm_num))
  norm_num at herror happart hsaturate hdistance hplace hbeyond
  linarith

/-- The text of a coordinate up to `2 ^ 63` is accurate. At `2 ^ 63` itself the largest integer is
written, which is one less, and so is the error of a rounding there. -/
theorem isAccurate_of_abs_le (hx : x.isFinite = true) (hp : places ≤ 6)
    (hsize : |x.value| ≤ 2 ^ 63) : x.IsAccurate places := by
  have hplace : (0 : ℚ) < 1 / 10 ^ places.toNat / 2 := by positivity
  obtain hsmall | hlarge := lt_or_ge |x.value| (2 ^ 24)
  · obtain ⟨w, hw, hnear⟩ := exists_denotes_chars hx hp hsmall
    exact ⟨w, hw, le_add_of_le_of_nonneg hnear (by positivity)⟩
  · obtain ⟨n, hvalue, hdenotes⟩ := exists_denotes_saturate hx hp hlarge
    refine ⟨_, hdenotes, ?_⟩
    rw [hvalue] at hsize ⊢
    have hsize' : |n| ≤ 2 ^ 63 := by exact_mod_cast hsize
    obtain hlast | rfl : Double.saturate n = n ∨ n = 2 ^ 63 := by
      rw [Double.saturate]
      rw [abs_le] at hsize'
      omega
    · rw [hlast, sub_self, abs_zero]
      positivity
    · have hlast : Double.saturate (2 ^ 63) = 2 ^ 63 - 1 := by decide
      rw [hlast]
      refine le_add_of_nonneg_of_le hplace.le ?_
      norm_num

/-- **The text of a coordinate is accurate exactly up to `2 ^ 63`.** Beyond, the integer that is
written is the largest with 64 bits, whatever the coordinate is. -/
theorem isAccurate_iff (hx : x.isFinite = true) (hp : places ≤ 6) :
    x.IsAccurate places ↔ |x.value| ≤ 2 ^ 63 :=
  ⟨fun h => h.abs_value_le hx hp, isAccurate_of_abs_le hx hp⟩

/-- A tenth with two places. -/
theorem isAccurate_tenth : IsAccurate 0.1 2 := by
  have hvalue : Is 0.1 (13421773 / 2 ^ 27) := by decide +kernel
  refine (isAccurate_iff (x := 0.1) hvalue.isFinite (by decide)).2 ?_
  rw [hvalue.value_eq]
  norm_num

/-- The power of two after the largest integer is clipped. -/
theorem two_pow_not_isAccurate : ¬∀ x : Single, x.isFinite = true →
    ∀ places : UInt8, places ≤ 6 → x.IsAccurate places := by
  intro hall
  have hvalue : Is 18446744073709551616 ((2 ^ 64 : ℤ) : ℚ) := by decide +kernel
  have hplaces : (2 : UInt8).toNat = 2 := rfl
  obtain ⟨w, hw, herror⟩ := hall 18446744073709551616 hvalue.isFinite 2 (by decide)
  rw [chars_of_intCast hvalue (by decide)] at hw
  obtain rfl := hw.unique (Decimal.denotes_intText _)
  have hsaturate : Double.saturate (2 ^ 64) = 2 ^ 63 - 1 := by decide
  rw [hvalue.value_eq, hsaturate, hplaces] at herror
  norm_num [abs_of_pos, abs_of_neg] at herror

end Single

end VectorGraphics
