import VectorGraphics.Proofs.Number.Likeness
import VectorGraphics.Proofs.Number.PrintedUnits

/-!
# Coordinates that are printed again

The text of a coordinate is read as a coordinate with the same text, at every number of places
(`Single.exists_reading_chars_eq`). If there are few units, the text denotes them, and the nearest
coordinate is rounded to the same units: otherwise the coordinates on both sides would be one place
apart, and no power of two is as large as a power of ten (`Single.eq_zero_of_two_zpow_near`). If
there are many, the nearest coordinate is the one that was printed, but for the integers with more
than 64 bits, which become the largest that have no more.
-/

namespace VectorGraphics

open Rounding (Representable Rounds Available)

namespace Single

variable {x y : Single} {places : UInt8}

/-! ## Equal steps -/

section

variable {factor scaled rounded factor' scaled' rounded' : ℚ} {units : ℤ}

/-- Coordinates that are rounded to the same units have the same text. -/
theorem Printing.chars_eq (hx : Printing x places factor scaled units rounded)
    (hy : Printing y places factor' scaled' units rounded') : x.chars places = y.chars places := by
  obtain rfl | hne := eq_or_ne units 0
  · have hx₀ := hx.chars_of_rounded_eq_int (k := 0) (by rw [hx.rounded_eq_zero rfl, Int.cast_zero])
    have hy₀ := hy.chars_of_rounded_eq_int (k := 0) (by rw [hy.rounded_eq_zero rfl, Int.cast_zero])
    rw [hx₀, hy₀]
  · rw [chars, chars, if_pos hx.isFinite, if_pos hy.isFinite]
    dsimp only
    rw [hx.scaled_is.round_eq_ofInt hx.units_is hne, hy.scaled_is.round_eq_ofInt hy.units_is hne]

/-- A zero has no units. -/
theorem Printing.units_eq_zero (h : Printing x places factor scaled units rounded)
    (hx : x.value = 0) : units = 0 := by
  have hscaled := h.scaled_near
  rw [hx, zero_mul, sub_zero, abs_zero, mul_zero] at hscaled
  have hunits := h.units_near
  rw [abs_nonpos_iff.1 hscaled, ← Int.cast_zero] at hunits
  exact eq_of_abs_cast_sub_lt_one (hunits.trans_lt (by norm_num))

end

/-- Coordinates with the same value have the same text. -/
theorem chars_eq_of_value_eq (hx : x.isFinite = true) (hy : y.isFinite = true)
    (h : x.value = y.value) (places : UInt8) : x.chars places = y.chars places := by
  obtain hzero | hne := eq_or_ne x.value 0
  · obtain ⟨factor, scaled, units, rounded, hprinting⟩ := exists_printing hx places
    obtain ⟨factor', scaled', units', rounded', hprinting'⟩ := exists_printing hy places
    obtain rfl := hprinting.units_eq_zero hzero
    obtain rfl := hprinting'.units_eq_zero (h ▸ hzero)
    exact hprinting.chars_eq hprinting'
  · -- the unpacked numbers are the same, as they are not zeros
    have hunpack : x.toModel.unpack = y.toModel.unpack := by
      have hvalue := is_value hy
      rw [← h] at hvalue
      generalize hu : x.toModel.unpack = u
      generalize hv : y.toModel.unpack = v
      have halike : Rounding.Alike u v := hu ▸ hv ▸ alike_iff.1 (Alike.of_is (is_value hx) hvalue)
      cases halike with
      | same => rfl
      | zero s t =>
        rw [value, hu, Rounding.value_zero] at hne
        exact absurd rfl hne
    have hwiden : x.widen = y.widen := by rw [widen, widen, hunpack]
    rw [chars, chars, if_pos hx, if_pos hy, hwiden]

/-! ## Few units -/

/-- No power of two is as large as a power of ten, but for one. -/
theorem eq_zero_of_two_zpow_near {j : ℤ} {p : ℕ} (hj : -149 ≤ j)
    (h : |(2 : ℚ) ^ j - 1 / 10 ^ p| ≤ 1 / 2 ^ 9 * (1 / 10 ^ p)) : j = 0 ∧ p = 0 := by
  have hten : (0 : ℚ) < 10 ^ p := by positivity
  have hscaled : |(2 : ℚ) ^ j * 10 ^ p - 1| ≤ 1 / 2 ^ 9 := by
    have hsplit : (2 : ℚ) ^ j * 10 ^ p - 1 = (2 ^ j - 1 / 10 ^ p) * 10 ^ p := by
      rw [sub_mul, div_mul_cancel₀ _ hten.ne']
    rw [hsplit, abs_mul, abs_of_pos hten]
    calc |(2 : ℚ) ^ j - 1 / 10 ^ p| * 10 ^ p ≤ 1 / 2 ^ 9 * (1 / 10 ^ p) * 10 ^ p :=
          mul_le_mul_of_nonneg_right h hten.le
      _ = 1 / 2 ^ 9 := by rw [mul_assoc, div_mul_cancel₀ _ hten.ne', mul_one]
  obtain hj₀ | hj₀ := le_or_gt 0 j
  · obtain ⟨n, rfl⟩ := Int.eq_ofNat_of_zero_le hj₀
    have hone : (2 ^ n * 10 ^ p : ℕ) = (1 : ℤ) := by
      refine eq_of_abs_cast_sub_lt_one (lt_of_le_of_lt ?_ (by norm_num : (1 / 2 ^ 9 : ℚ) < 1))
      exact_mod_cast hscaled
    obtain ⟨htwo, hten⟩ := mul_eq_one.1 (by exact_mod_cast hone : 2 ^ n * 10 ^ p = 1)
    have hn : n = 0 := (Nat.pow_eq_one.1 htwo).resolve_left (by decide)
    exact ⟨by rw [hn, Nat.cast_zero], (Nat.pow_eq_one.1 hten).resolve_left (by decide)⟩
  · exfalso
    obtain ⟨n, rfl⟩ : ∃ n : ℕ, j = -n := ⟨(-j).toNat, by omega⟩
    have htwo : (0 : ℚ) < 2 ^ n := by positivity
    have hsplit : ((2 : ℚ) ^ n)⁻¹ * 10 ^ p - 1 = (10 ^ p - 2 ^ n) / 2 ^ n := by field_simp
    rw [zpow_neg, zpow_natCast, hsplit, abs_div, abs_of_pos htwo, div_le_iff₀ htwo] at hscaled
    obtain ⟨hlow, hhigh⟩ := abs_le.1 hscaled
    have hlow : 511 * 2 ^ n ≤ 512 * 10 ^ p := by
      have : (511 * 2 ^ n : ℚ) ≤ 512 * 10 ^ p := by linarith
      exact_mod_cast this
    have hhigh : 512 * 10 ^ p ≤ 513 * 2 ^ n := by
      have : (512 * 10 ^ p : ℚ) ≤ 513 * 2 ^ n := by linarith
      exact_mod_cast this
    have hp : p < 46 := by
      by_contra hp
      have hten : 10 ^ 46 ≤ 10 ^ p := Nat.pow_le_pow_right (by decide) (not_lt.1 hp)
      have htwo : 2 ^ n ≤ 2 ^ 149 := Nat.pow_le_pow_right (by decide) (by omega)
      omega
    have hall : ∀ p : ℕ, p < 46 → ∀ n : ℕ, n < 150 → 0 < n →
        512 * 10 ^ p < 511 * 2 ^ n ∨ 513 * 2 ^ n < 512 * 10 ^ p := by decide +kernel
    have := hall p hp n (by omega) (by omega)
    omega

namespace Printing

variable {factor scaled rounded factor' scaled' rounded' : ℚ} {units units' : ℤ}

/-- A coordinate of moderate size in units of the last place is rounded to a nearest number of them,
but for the roundings before. -/
theorem abs_units_sub_le (h : Printing x places factor scaled units rounded)
    (hsize : |x.value * 10 ^ places.toNat| ≤ 2 ^ 31) :
    |units - x.value * 10 ^ places.toNat| ≤ 1 / 2 + 1 / 2 ^ 11 := by
  have hfactor : |x.value * factor - x.value * 10 ^ places.toNat| ≤ 1 / 2 ^ 12 := by
    calc |x.value * factor - x.value * 10 ^ places.toNat|
        = |x.value| * |factor - 10 ^ places.toNat| := by rw [← mul_sub, abs_mul]
      _ ≤ |x.value| * (1 / 2 ^ 43 * 10 ^ places.toNat) :=
          mul_le_mul_of_nonneg_left h.factor_near (abs_nonneg _)
      _ = 1 / 2 ^ 43 * |x.value * 10 ^ places.toNat| := by
          rw [abs_mul, abs_of_pos (a := 10 ^ places.toNat) (by positivity)]
          ring
      _ ≤ 1 / 2 ^ 43 * 2 ^ 31 := mul_le_mul_of_nonneg_left hsize (by norm_num)
      _ = 1 / 2 ^ 12 := by norm_num
  have hscaled := h.scaled_near
  have hunits := h.units_near
  have hproduct := abs_sub_abs_le_abs_sub (x.value * factor) (x.value * 10 ^ places.toNat)
  have hfirst := abs_sub_le (units : ℚ) scaled (x.value * 10 ^ places.toNat)
  have hsecond := abs_sub_le scaled (x.value * factor) (x.value * 10 ^ places.toNat)
  norm_num at *
  linarith

/-- A coordinate that is rounded to few units is of moderate size in these units. -/
theorem abs_value_mul_pow_le (h : Printing x places factor scaled units rounded)
    (hunits : |units| ≤ 2 ^ 30) : |x.value * 10 ^ places.toNat| ≤ 2 ^ 31 := by
  have hunits : |(units : ℚ)| ≤ 2 ^ 30 := by exact_mod_cast hunits
  have hpos := h.factor_pos
  have hproduct : |x.value * factor| ≤ 2 ^ 30 + 1 := by
    have hscaled := h.scaled_near
    have hnear := h.units_near
    rw [abs_sub_comm] at hscaled hnear
    have hfirst := abs_sub_abs_le_abs_sub (x.value * factor) scaled
    have hsecond := abs_sub_abs_le_abs_sub scaled units
    norm_num at *
    linarith
  calc |x.value * 10 ^ places.toNat| = |x.value| * 10 ^ places.toNat := by
        rw [abs_mul, abs_of_pos (a := 10 ^ places.toNat) (by positivity)]
    _ ≤ |x.value| * (101 / 100 * factor) := mul_le_mul_of_nonneg_left h.pow_ten_le (abs_nonneg _)
    _ = 101 / 100 * |x.value * factor| := by
        rw [abs_mul, abs_of_pos hpos]
        ring
    _ ≤ 101 / 100 * (2 ^ 30 + 1) := mul_le_mul_of_nonneg_left hproduct (by norm_num)
    _ ≤ 2 ^ 31 := by norm_num

/-- The coordinate nearest to few units is rounded to the same units. -/
theorem units_eq_of_nearest (hx : Printing x places factor scaled units rounded)
    (hy : Printing y places factor' scaled' units' rounded') (hunits : |units| ≤ 2 ^ 30)
    (hnearest : Rounds .binary32 (units / 10 ^ places.toNat) y.toModel.unpack)
    (hne : x.value ≠ y.value) : units' = units := by
  have hten : (0 : ℚ) < 10 ^ places.toNat := by positivity
  have hxrep := (is_value hx.isFinite).available.representable
  have hyrep := (is_value hy.isFinite).available.representable
  have hnearest (c : ℚ) (hc : Representable .binary32 c) :
      |y.value - units / 10 ^ places.toNat| ≤ |c - units / 10 ^ places.toNat| :=
    hnearest.nearest c hc
  -- distances in units of the last place
  have hscale (a : ℚ) : |a * 10 ^ places.toNat - units|
      = |a - units / 10 ^ places.toNat| * 10 ^ places.toNat := by
    rw [← abs_of_pos hten, ← abs_mul, abs_of_pos hten, sub_mul, div_mul_cancel₀ _ hten.ne']
  have hxsize := hx.abs_value_mul_pow_le hunits
  have hxunits := hx.abs_units_sub_le hxsize
  rw [abs_sub_comm] at hxunits
  have hyunits : |y.value * 10 ^ places.toNat - units| ≤ 1 / 2 + 1 / 2 ^ 11 := by
    refine le_trans ?_ hxunits
    rw [hscale, hscale]
    exact mul_le_mul_of_nonneg_right (hnearest _ hxrep) hten.le
  have hysize : |y.value * 10 ^ places.toNat| ≤ 2 ^ 31 := by
    have hunits : |(units : ℚ)| ≤ 2 ^ 30 := by exact_mod_cast hunits
    have := abs_sub_abs_le_abs_sub (y.value * 10 ^ places.toNat) units
    norm_num at this hunits hyunits ⊢
    linarith
  have hyunits' := hy.abs_units_sub_le hysize
  by_contra hunits'
  -- otherwise the nearest coordinate is half a place away, and so is the other one
  have hfar : 1 / 2 - 1 / 2 ^ 11 ≤ |y.value * 10 ^ places.toNat - units| := by
    have hone : (1 : ℚ) ≤ |(units' : ℚ) - units| := by
      rw [← Int.cast_sub]
      exact_mod_cast Int.one_le_abs (sub_ne_zero.2 hunits')
    have := abs_sub_le (units' : ℚ) (y.value * 10 ^ places.toNat) units
    linarith
  have hunits₀ : (units / 10 ^ places.toNat : ℚ) ≠ 0 := by
    intro hzero
    have hzero' := hnearest 0 (Rounding.representable_value (u := .zero .positive) trivial)
    rw [hzero, sub_zero, sub_zero, abs_zero, abs_nonpos_iff] at hzero'
    rw [hscale, hzero, hzero', sub_zero, abs_zero, zero_mul] at hfar
    norm_num at hfar
  rw [hscale, ← le_div_iff₀ hten] at hxunits
  rw [hscale, ← div_le_iff₀ hten] at hfar
  have hplace : (0 : ℚ) < 1 / 10 ^ places.toNat := by positivity
  have hsplit (a : ℚ) : a / 10 ^ places.toNat = a * (1 / 10 ^ places.toNat) := by ring
  rw [hsplit (1 / 2 + 1 / 2 ^ 11), add_mul] at hxunits
  rw [hsplit (1 / 2 - 1 / 2 ^ 11), sub_mul] at hfar
  obtain ⟨j, hj, hwidth, hends⟩ := Rounding.exists_cell_width_near hunits₀ hxrep hyrep hnearest hne
    (1 / 10 ^ places.toNat) (1 / 2 ^ 11 * (1 / 10 ^ places.toNat)) (by linarith)
    (hxunits.trans (by linarith)) (le_trans (by linarith) hfar)
  obtain ⟨rfl, hp⟩ := eq_zero_of_two_zpow_near (p := places.toNat) hj (hwidth.trans (by linarith))
  refine hends units ?_
  rw [hp, pow_zero, div_one, zpow_zero, mul_one]

end Printing

/-! ## Many units -/

/-- The coordinate nearest to a number near to what a coordinate can be is just that. -/
theorem value_eq_of_nearest {v w : ℚ} (hv : Representable .binary32 v)
    (hw : |w - v| ≤ 1 / 2 ^ 28 * |v|) (hnearest : Rounds .binary32 w y.toModel.unpack) :
    v = y.value := by
  have hyrep := (is_value hnearest.isFinite).available.representable
  by_contra hne
  have happart : |v| ≤ 2 ^ 25 * |v - y.value| := hv.abs_le_mul_abs_sub hyrep hne
  have hnear : |y.value - w| ≤ |v - w| := hnearest.nearest v hv
  have hsum := abs_sub_le v w y.value
  rw [abs_sub_comm y.value] at hnear
  rw [abs_sub_comm w] at hw
  have hpos : 0 < |v - y.value| := abs_pos.2 (sub_ne_zero.2 hne)
  norm_num at hw happart
  linarith

theorem abs_intCast_of_natAbs_eq {n : ℤ} (hn : n.natAbs = 2 ^ 63) : |(n : ℚ)| = 2 ^ 63 := by
  rw [← Int.cast_abs, ← Int.natCast_natAbs, hn]
  norm_num

/-- A factor of `2 ^ 63` is exact, and gives an integer of one bit too many. -/
theorem chars_of_two_pow {n : ℤ} (hx : x.Is n) (hn : n.natAbs = 2 ^ 63) (places : UInt8) :
    x.chars places = Double.intText (Double.saturate n) := by
  obtain ⟨factor, scaled, units, rounded, h⟩ := exists_printing hx.isFinite places
  have hpos := h.factor_pos
  have habs : |(n : ℚ)| = 2 ^ (63 : ℤ) := abs_intCast_of_natAbs_eq hn
  have havailable : Available .binary64 (n * factor) := by
    obtain ⟨⟨m, e, hm, he, hfactor⟩, -⟩ := h.factor_is.available
    refine ⟨⟨m, e + 63, hm, by omega, ?_⟩, ?_⟩
    · rw [abs_mul, habs, hfactor, zpow_add₀ two_ne_zero]
      ring
    · rw [abs_mul, habs, abs_of_pos hpos]
      exact (h.two_zpow_mul_factor_le 63).trans_lt (zpow_lt_zpow_right₀ one_lt_two (by decide))
  have hscaled : scaled = n * factor :=
    h.scaled_is.value_eq.symm.trans (hx.widen.mul h.factor_is havailable).value_eq
  have hquotient : |(n : ℚ) - units / factor| ≤ 1 / 2 := by
    have hsplit : (n : ℚ) - units / factor = -(units - scaled) / factor := by
      rw [hscaled]
      field_simp
      ring
    rw [hsplit, abs_div, abs_neg, abs_of_pos hpos]
    exact (div_le_self (abs_nonneg _) h.one_le_factor).trans h.units_near
  have hnrep := hx.available.widen.representable
  have hnear := (h.rounded_nearest n hnrep).trans hquotient
  refine h.chars_of_rounded_eq_int ?_
  by_contra hne
  have happart : |(n : ℚ)| ≤ 2 ^ 54 * |n - rounded| :=
    hnrep.abs_le_mul_abs_sub h.rounded_is.available.representable (Ne.symm hne)
  have hsum := abs_sub_le (n : ℚ) (units / factor) rounded
  rw [abs_sub_comm rounded] at hnear
  rw [habs] at happart
  norm_num at happart hnear hquotient
  linarith

/-- What an integer that is too large for 64 bits is replaced by is read as a coordinate with the
same text. -/
theorem chars_of_nearest_saturated {k : ℤ} (hk : Double.saturate k ≠ k)
    (hnearest : Rounds .binary32 (Double.saturate k) y.toModel.unpack) (places : UInt8) :
    y.chars places = Double.intText (Double.saturate k) := by
  -- the nearest coordinate is a power of two
  have hpower {n : ℤ} (hn : n.natAbs = 2 ^ 63) (hsaturate : Double.saturate n = Double.saturate k)
      (hnear : |((Double.saturate k : ℤ) : ℚ) - n| ≤ 1) :
      y.chars places = Double.intText (Double.saturate k) := by
    have habs := abs_intCast_of_natAbs_eq hn
    have hrep : Representable .binary32 n := ⟨1, 63, by decide, by decide, by norm_num [habs]⟩
    have hy : n = y.value := value_eq_of_nearest hrep (hnear.trans (by norm_num [habs])) hnearest
    rw [chars_of_two_pow (hy ▸ is_value hnearest.isFinite) hn places, hsaturate]
  obtain hlow | hhigh : k < -(2 ^ 63) ∨ 2 ^ 63 ≤ k := by
    rw [Double.saturate] at hk
    omega
  · have hsaturate : Double.saturate k = -(2 ^ 63) := by
      rw [Double.saturate]
      omega
    refine hpower (n := -(2 ^ 63)) (by decide) (by rw [hsaturate]; decide) ?_
    rw [hsaturate, sub_self, abs_zero]
    exact zero_le_one
  · have hsaturate : Double.saturate k = 2 ^ 63 - 1 := by
      rw [Double.saturate]
      omega
    refine hpower (n := 2 ^ 63) (by decide) (by rw [hsaturate]; decide) ?_
    rw [hsaturate]
    norm_num

/-- The text of a coordinate is read as a coordinate with the same text. -/
theorem exists_reading_chars_eq (hx : x.isFinite = true) (places : UInt8) :
    ∃ y, ofLiteral? (x.chars places) = some y ∧ y.isFinite = true
      ∧ y.chars places = x.chars places := by
  obtain ⟨factor, scaled, units, rounded, h⟩ := exists_printing hx places
  have hplaces : places.toNat ≤ 256 := places.toNat_lt.le
  obtain hfew | hmany := le_or_gt |units| (2 ^ 30)
  · have hsize : |(units / 10 ^ places.toNat : ℚ)| ≤ 2 ^ 64 := by
      have hunits : |(units : ℚ)| ≤ 2 ^ 30 := by exact_mod_cast hfew
      rw [abs_div, abs_of_pos (a := 10 ^ places.toNat) (by positivity)]
      calc |(units : ℚ)| / 10 ^ places.toNat ≤ |(units : ℚ)| :=
            div_le_self (abs_nonneg _) (one_le_pow₀ (by norm_num))
        _ ≤ 2 ^ 64 := hunits.trans (by norm_num)
    obtain ⟨y, hread, hnearest⟩ := (h.denotes_units (.inr hfew)).exists_nearest hplaces hsize
    refine ⟨y, hread, hnearest.isFinite, ?_⟩
    by_cases hvalue : x.value = y.value
    · exact (chars_eq_of_value_eq hx hnearest.isFinite hvalue places).symm
    · obtain ⟨factor', scaled', units', rounded', h'⟩ := exists_printing hnearest.isFinite places
      obtain rfl := h.units_eq_of_nearest h' hfew hnearest hvalue
      exact (h.chars_eq h').symm
  · obtain ⟨w, hw, hsize, hnear⟩ | ⟨k, hchars, hk, -⟩ := h.denotes_near_or_saturates hmany
    · obtain ⟨y, hread, hnearest⟩ := hw.exists_nearest le_rfl hsize
      exact ⟨y, hread, hnearest.isFinite, (chars_eq_of_value_eq hx hnearest.isFinite
        (value_eq_of_nearest (is_value hx).available.representable hnear hnearest) places).symm⟩
    · have hsize : |((Double.saturate k : ℤ) : ℚ)| ≤ 2 ^ 64 := by
        have : |Double.saturate k| ≤ 2 ^ 64 := by
          rw [Double.saturate, abs_le]
          omega
        exact_mod_cast this
      rw [hchars]
      obtain ⟨y, hread, hnearest⟩ :=
        (Decimal.denotes_intText (Double.saturate k)).exists_nearest (Nat.zero_le _) hsize
      exact ⟨y, hread, hnearest.isFinite, chars_of_nearest_saturated hk hnearest places⟩

end Single

end VectorGraphics
