import VectorGraphics.Proofs.Number.DecimalGrids
import VectorGraphics.Proofs.Number.Denotations
import VectorGraphics.Proofs.Number.Neighbours
import VectorGraphics.Proofs.Number.Powers

/-!
# Coordinates in units of the last place

A coordinate is printed in steps: it is multiplied by a power of ten, rounded to a whole number of
units of the last place, and divided by the power again. `Single.Printing` is what these steps are
known to do, at any number of places (`Single.exists_printing`). What is written is an integer, the
fewest digits of the quotient, or all of its places (`Single.Printing.chars_cases`).

If the units are few, the text denotes them exactly (`Single.Printing.denotes_units`). Otherwise it
denotes a number near to the coordinate, but for integers with more than 64 bits
(`Single.Printing.denotes_near_or_saturates`).
-/

namespace VectorGraphics

open Float.Model.UnpackedFloat hiding round
open Rounding (Representable Available available_two_zpow two_zpow_pos sign)

/-! ## Fewest digits of a rounded decimal -/

/-- A whole number next to a number has the sign of that number. -/
theorem Rounding.eq_sign_mul_natAbs {s : Sign} {a : ℚ} {n : ℤ} (ha : 0 < a)
    (hn : n ≠ 0) (hnear : |sign s * a - n| < 1 / 2) : (n : ℚ) = sign s * n.natAbs := by
  have hone : (1 : ℚ) ≤ n.natAbs := by exact_mod_cast Int.natAbs_pos.2 hn
  have hcast : (n.natAbs : ℚ) = |(n : ℚ)| := by rw [Nat.cast_natAbs, Int.cast_abs]
  rw [abs_lt] at hnear
  cases s
  · rw [sign, neg_one_mul] at hnear ⊢
    obtain h | h := abs_choice (n : ℚ)
    · rw [hcast, h] at hone
      linarith
    · rw [hcast, h, neg_neg]
  · rw [sign, one_mul] at hnear ⊢
    obtain h | h := abs_choice (n : ℚ)
    · rw [hcast, h]
    · rw [hcast, h] at hone
      linarith

/-- A decimal without a fraction is a whole number. -/
theorem Decimal.exists_value_eq {d : Decimal} (h : 0 ≤ d.exponent) : ∃ i : ℕ, d.value = i := by
  obtain ⟨j, hj⟩ := Int.eq_ofNat_of_zero_le h
  refine ⟨d.digits * 10 ^ j, ?_⟩
  rw [Decimal.value, hj, zpow_natCast]
  push_cast
  rfl

/-- The fewest digits of a double that a decimal with few digits was rounded to are those of the
decimal, if it has a fraction. -/
theorem Double.denotes_of_nearest {x : Double} {v : ℚ} {n : ℤ} {p : ℕ} {cs : List Char}
    (hx : x.Is v) (hlow : (2 : ℚ) ^ (-1022 : ℤ) ≤ |v|) (hhigh : |v| < 2 ^ 53)
    (hn : n.natAbs < 2 ^ 51) (hp : p ≤ 15) (hnear : |v * 10 ^ p - n| < 1 / 2)
    (hnearest : ∀ y, Representable .binary64 y → |v - n / 10 ^ p| ≤ |y - n / 10 ^ p|)
    (hv : ∀ k : ℤ, v ≠ k) (h : x.shortest? = some cs) :
    Decimal.Denotes p cs (n / 10 ^ p) := by
  obtain ⟨s, m, e, hm, hu, hfull, hm', he, he', rfl⟩ := hx.exists_mantissa hlow hhigh
  have hten : (0 : ℚ) < 10 ^ p := by positivity
  have hpos : (0 : ℚ) < m * 2 ^ e := mul_pos (by exact_mod_cast hm) (two_zpow_pos e)
  have hne : n ≠ 0 := by
    rintro rfl
    have := hnearest 0 (Rounding.representable_value (u := .zero .positive) trivial)
    rw [Int.cast_zero, zero_div, sub_zero, sub_zero, abs_zero] at this
    exact hv 0 (by rw [Int.cast_zero, abs_nonpos_iff.1 this])
  have hsign : (n : ℚ) = sign s * n.natAbs := by
    refine Rounding.eq_sign_mul_natAbs (mul_pos hpos hten) hne ?_
    rwa [← mul_assoc]
  set k := n.natAbs
  have hk : 0 < k := Int.natAbs_pos.2 hne
  have hsigned (a : ℚ) : |sign s * a - n / 10 ^ p| = |a - k / 10 ^ p| := by
    rw [hsign, mul_div_assoc, ← mul_sub, Rounding.abs_sign_mul]
  rw [hsigned] at hnearest
  have hmagnitude (y : ℚ) (hy : Representable .binary64 y) :
      |(m : ℚ) * 2 ^ e - k / 10 ^ p| ≤ |y - k / 10 ^ p| := by
    rw [← hsigned y]
    refine hnearest _ (Rounding.representable_abs.1 ?_)
    rwa [Rounding.abs_sign_mul, Rounding.representable_abs]
  obtain ⟨h₀, h₁⟩ := RoundingInterval.mem_of_nearest hfull hm' he hk (hn.trans (by decide))
    hmagnitude
  obtain ⟨hvalue, hexponent⟩ :=
    RoundingInterval.shortest_eq .toEven hfull hm' he he' hk hn hp h₀ h₁
  rw [shortest?, hu] at h
  dsimp only at h
  set d := (RoundingInterval.ofBinary .binary64 m e).shortest .toEven
  obtain ⟨-, h⟩ := Option.ite_none_right_eq_some.1 h
  obtain rfl := Option.some.inj h
  -- a whole decimal would have been the double itself
  have hfraction : d.exponent < 0 := by
    by_contra hwhole
    obtain ⟨i, hi⟩ := Decimal.exists_value_eq (not_lt.1 hwhole)
    rw [hvalue] at hi
    have hsize : i ≤ 2 ^ 53 := by
      have : (i : ℚ) ≤ k := hi ▸ div_le_self (Nat.cast_nonneg k) (one_le_pow₀ (by norm_num))
      have : i ≤ k := by exact_mod_cast this
      omega
    have := hmagnitude _ (Rounding.representable_intCast (n := i) hsize)
    rw [hi, Int.cast_natCast, sub_self, abs_zero, abs_nonpos_iff, sub_eq_zero] at this
    refine hv (s.apply i) ?_
    rw [Rounding.apply_cast, Int.cast_natCast, this]
  rw [if_neg (not_le.2 hfraction), hsign, mul_div_assoc, ← hvalue]
  exact (Decimal.denotes_positional_of_neg s hfraction).mono (by omega)

namespace Single

/-! ## The steps -/

/-- A coordinate rounded to decimal places, in double precision. -/
def rounded (x : Single) (places : UInt8) : Double :=
  Double.round (x.widen * Double.pow 10 places.toNat) / Double.pow 10 places.toNat

/-- The steps in which a coordinate is rounded: it is multiplied by the `factor` and is then
`scaled`, which rounds to whole `units` of the last place, and these are divided by the factor. -/
structure Printing (x : Single) (places : UInt8) (factor scaled : ℚ) (units : ℤ) (rounded : ℚ) :
    Prop where
  isFinite : x.isFinite = true
  factor_is : (Double.pow 10 places.toNat).Is factor
  one_le_factor : 1 ≤ factor
  factor_le : factor ≤ 2 ^ (892 : ℤ)
  factor_near : |factor - 10 ^ places.toNat| ≤ 1 / 2 ^ 43 * 10 ^ places.toNat
  factor_eq : places.toNat ≤ 15 → factor = 10 ^ places.toNat
  scaled_is : (x.widen * Double.pow 10 places.toNat).Is scaled
  scaled_near : |scaled - x.value * factor| ≤ 1 / 2 ^ 52 * |x.value * factor|
  units_is : (Double.round (x.widen * Double.pow 10 places.toNat)).Is units
  units_near : |(units : ℚ) - scaled| ≤ 1 / 2
  rounded_is : (x.rounded places).Is rounded
  rounded_nearest : ∀ y, Representable .binary64 y →
    |rounded - units / factor| ≤ |y - units / factor|
  rounded_near : |rounded - units / factor| ≤ 1 / 2 ^ 52 * |(units : ℚ) / factor|

variable {x : Single} {places : UInt8}

/-- Every coordinate is rounded in these steps. -/
theorem exists_printing (hx : x.isFinite = true) (places : UInt8) :
    ∃ factor scaled units rounded, Printing x places factor scaled units rounded := by
  obtain ⟨factor, hfactor, hone, hle, hnear⟩ := Double.exists_pow_ten_near places.toNat_lt
  obtain ⟨scaled, hscaled, -⟩ := exists_scaled hx places
  obtain ⟨units, hunits, hround⟩ := hscaled.exists_round
  obtain ⟨rounded, hrounded⟩ := exists_rounded hx places
  have hpos : 0 < factor := by linarith
  have hvalue := is_value hx
  have hproduct := hvalue.widen.rounds_mul hfactor
  have hquotient := hunits.rounds_div hfactor hpos.ne'
  have heq := hquotient.eq_of_is_repack hrounded
  refine ⟨factor, scaled, units, rounded, hx, hfactor, hone, by exact_mod_cast hle, hnear,
    fun hp => ?_, hscaled, ?_, hunits, hround, hrounded, fun y hy => ?_, ?_⟩
  · exact hfactor.value_eq.symm.trans (Double.is_pow_ten hp).value_eq
  · rw [← hproduct.eq_of_is_repack hscaled]
    refine hproduct.abs_value_sub_le_mul fun hne => ?_
    rw [abs_mul, abs_of_pos hpos]
    calc (2 : ℚ) ^ (-1022 : ℤ) ≤ 2 ^ (-149 : ℤ) := zpow_le_zpow_right₀ one_le_two (by decide)
      _ ≤ |x.value| := hvalue.available.representable.two_zpow_le_abs (left_ne_zero_of_mul hne)
      _ ≤ |x.value| * factor := le_mul_of_one_le_right (abs_nonneg _) hone
  · rw [← heq]
    exact hquotient.nearest y hy
  · rw [← heq]
    refine hquotient.abs_value_sub_le_mul fun hne => ?_
    have hunits : (1 : ℚ) ≤ |(units : ℚ)| := by
      have : units ≠ 0 := by
        rintro rfl
        exact hne (by simp)
      exact_mod_cast Int.one_le_abs this
    rw [abs_div, abs_of_pos hpos, le_div_iff₀ hpos]
    calc (2 : ℚ) ^ (-1022 : ℤ) * factor ≤ 2 ^ (-1022 : ℤ) * 2 ^ (892 : ℤ) :=
          mul_le_mul_of_nonneg_left (by exact_mod_cast hle) (two_zpow_pos _).le
      _ = 2 ^ (-130 : ℤ) := by
          rw [← zpow_add₀ two_ne_zero]
          rfl
      _ ≤ 1 := zpow_le_one_of_nonpos₀ one_le_two (by decide)
      _ ≤ |(units : ℚ)| := hunits

namespace Printing

variable {factor scaled rounded : ℚ} {units : ℤ}
  (h : Printing x places factor scaled units rounded)

include h

theorem factor_pos : 0 < factor := one_pos.trans_le h.one_le_factor

/-- The factor is not so large that it lifts what is tiny. -/
theorem two_zpow_mul_factor_le (i : ℤ) : 2 ^ i * factor ≤ 2 ^ (i + 892) := by
  rw [zpow_add₀ two_ne_zero]
  exact mul_le_mul_of_nonneg_left h.factor_le (two_zpow_pos i).le

/-- The power of ten is not far from the factor. -/
theorem pow_ten_le : 10 ^ places.toNat ≤ 101 / 100 * factor := by
  have hten : (0 : ℚ) < 10 ^ places.toNat := by positivity
  have := (abs_le.1 h.factor_near).1
  norm_num at this ⊢
  linarith

/-- The factor is not far from the power of ten. -/
theorem factor_le_pow_ten : factor ≤ 101 / 100 * 10 ^ places.toNat := by
  have hten : (0 : ℚ) < 10 ^ places.toNat := by positivity
  have := (abs_le.1 h.factor_near).2
  norm_num at this ⊢
  linarith

/-- What is rounded to some units is not tiny. -/
theorem le_abs_rounded (hne : units ≠ 0) : (2 : ℚ) ^ (-1022 : ℤ) ≤ |rounded| := by
  have hone : (1 : ℚ) ≤ |(units : ℚ)| := by exact_mod_cast Int.one_le_abs hne
  have hquotient : (2 : ℚ) ^ (-892 : ℤ) ≤ |(units : ℚ) / factor| := by
    rw [abs_div, abs_of_pos h.factor_pos, le_div_iff₀ h.factor_pos]
    exact (h.two_zpow_mul_factor_le (-892)).trans hone
  have hnear := (abs_sub_abs_le_abs_sub ((units : ℚ) / factor) rounded).trans
    ((abs_sub_comm _ _).le.trans h.rounded_near)
  calc (2 : ℚ) ^ (-1022 : ℤ) ≤ 2 ^ (-892 : ℤ) / 2 := by
        rw [div_eq_mul_inv, ← zpow_sub_one₀ two_ne_zero]
        exact zpow_le_zpow_right₀ one_le_two (by decide)
    _ ≤ |(units : ℚ) / factor| / 2 := div_le_div_of_nonneg_right hquotient zero_le_two
    _ ≤ |rounded| := by
        norm_num at hnear ⊢
        linarith [abs_nonneg ((units : ℚ) / factor)]

/-- No units are rounded to zero. -/
theorem rounded_eq_zero (hzero : units = 0) : rounded = 0 := by
  have := h.rounded_near
  rw [hzero, Int.cast_zero, zero_div, sub_zero, abs_zero, mul_zero] at this
  exact abs_nonpos_iff.1 this

/-- Without decimal places the units are what is rounded. -/
theorem places_ne_zero (hfraction : ∀ k : ℤ, rounded ≠ k) : places.toNat ≠ 0 := by
  intro hzero
  have hnearest := h.rounded_nearest units h.units_is.available.representable
  rw [h.factor_eq (by omega), hzero, pow_zero, div_one, sub_self, abs_zero, abs_nonpos_iff,
    sub_eq_zero] at hnearest
  exact hfraction units hnearest

/-! ## Three kinds of texts -/

/-- Within half a place of a whole number, as doubles go. -/
theorem abs_rounded_sub_mul_le {k : ℤ} (hk : (x.rounded places).round.Is k)
    (hlt : (x.rounded places - (x.rounded places).round).abs
      < 0.5 / Double.pow 10 places.toNat) :
    |rounded - k| * factor ≤ 3 / 5 := by
  have hpos := h.factor_pos
  obtain ⟨k', hk', hround⟩ := h.rounded_is.exists_round
  obtain rfl : k = k' := by exact_mod_cast hk.value_eq.symm.trans hk'.value_eq
  rw [abs_sub_comm] at hround
  -- half a place, rounded
  have hhalf : (0 : ℚ) < 1 / 2 / factor := by positivity
  have hquotient := Double.is_half.rounds_div h.factor_is hpos.ne'
  have hlow : Available .binary64 ((2 : ℚ) ^ (-893 : ℤ)) :=
    available_two_zpow (by decide) (by decide)
  have hbound : (2 : ℚ) ^ (-893 : ℤ) ≤ 1 / 2 / factor := by
    rw [le_div_iff₀ hpos]
    exact (h.two_zpow_mul_factor_le (-893)).trans (by norm_num)
  obtain ⟨t, ht, -⟩ := Double.is_half.exists_div h.factor_is hpos.ne' hlow Double.available_one
    hbound ((div_le_self (by norm_num) h.one_le_factor).trans (by norm_num))
  have ht' : |t - 1 / 2 / factor| ≤ 1 / 2 ^ 52 * |1 / 2 / factor| := by
    rw [← hquotient.eq_of_is_repack ht]
    refine hquotient.abs_value_sub_le_mul fun _ => ?_
    rw [abs_of_pos hhalf]
    exact (zpow_le_zpow_right₀ one_le_two (by decide)).trans hbound
  rw [abs_of_pos hhalf] at ht'
  -- the distance from the whole number, rounded
  have hdifference := h.rounded_is.rounds_sub hk
  obtain ⟨d, hd, -⟩ := hdifference.exists_is_repack (by decide) Double.available_one.neg
    Double.available_one (by linarith [(abs_le.1 hround).1]) (by linarith [(abs_le.1 hround).2])
  have hd : (x.rounded places - (x.rounded places).round).Is d := hd
  rw [hd.abs.lt_iff ht] at hlt
  obtain htiny | hlarge := lt_or_ge |rounded - k| (2 ^ (-1022 : ℤ))
  · calc |rounded - k| * factor ≤ 2 ^ (-1022 : ℤ) * factor :=
          mul_le_mul_of_nonneg_right htiny.le hpos.le
      _ ≤ 2 ^ (-1022 + 892 : ℤ) := h.two_zpow_mul_factor_le (-1022)
      _ ≤ 3 / 5 := by norm_num
  · have hd' : |d - (rounded - k)| ≤ 1 / 2 ^ 52 * |rounded - k| := by
      rw [← hdifference.eq_of_is_repack hd]
      exact hdifference.abs_value_sub_le_mul fun _ => hlarge
    have hdistance := (abs_sub_abs_le_abs_sub (rounded - k) d).trans
      ((abs_sub_comm _ _).le.trans hd')
    have hupper := (abs_le.1 ht').2
    have hle : |rounded - k| ≤ 3 / 5 / factor := by
      have hsplit : (3 / 5 / factor : ℚ) = 6 / 5 * (1 / 2 / factor) := by ring
      rw [hsplit]
      norm_num at hdistance hupper ⊢
      linarith
    rwa [le_div_iff₀ hpos] at hle

/-- What is rounded to a whole number is printed as an integer. -/
theorem chars_of_rounded_eq_int {k : ℤ} (hk : rounded = k) :
    x.chars places = Double.intText (Double.saturate k) := by
  have hrounded := h.rounded_is
  rw [hk] at hrounded
  rw [chars_of_rounded_int h.isFinite hrounded]
  exact congrArg Double.intText hrounded.round_int.truncate_eq

/-- A coordinate is printed as an integer, with the fewest digits or with all places. -/
theorem chars_cases :
    (∃ k : ℤ, x.chars places = Double.intText (Double.saturate k)
      ∧ |rounded - k| * factor ≤ 3 / 5)
    ∨ (∀ k : ℤ, rounded ≠ k) ∧ ((x.rounded places).shortest? = some (x.chars places)
      ∨ x.chars places = Text.dropRightWhile (· == '.')
          (Text.dropRightWhile (· == '0') ((x.rounded places).fixed places.toNat))) := by
  by_cases hint : ∃ k : ℤ, rounded = k
  · obtain ⟨k, hk⟩ := hint
    refine .inl ⟨k, h.chars_of_rounded_eq_int hk, ?_⟩
    rw [hk, sub_self, abs_zero, zero_mul]
    norm_num
  · rw [chars, if_pos h.isFinite]
    dsimp only
    split
    · next hlt =>
      obtain ⟨k, hk, -⟩ := h.rounded_is.exists_round
      exact .inl ⟨k, by rw [← hk.truncate_eq]; rfl, h.abs_rounded_sub_mul_le hk hlt⟩
    · refine .inr ⟨not_exists.1 hint, ?_⟩
      split
      · next hshortest => exact .inl hshortest
      · exact .inr rfl

end Printing

/-! ## Few units -/

/-- The units are so few that the roundings of the steps do not blur them. -/
def FewUnits (places : UInt8) (units : ℤ) : Prop :=
  places.toNat ≤ 15 ∧ |units| ≤ 2 ^ 44 ∨ |units| ≤ 2 ^ 30

theorem FewUnits.abs_le {units : ℤ} (hfew : FewUnits places units) : |units| ≤ 2 ^ 44 :=
  hfew.elim And.right fun h => h.trans (by norm_num)

namespace Printing

variable {factor scaled rounded : ℚ} {units : ℤ}
  (h : Printing x places factor scaled units rounded)

include h

/-- Multiplied again, what is rounded gives the units, but for one rounding. -/
theorem abs_rounded_mul_factor_sub_le :
    |rounded * factor - units| ≤ 1 / 2 ^ 52 * |(units : ℚ)| := by
  have hpos := h.factor_pos
  calc |rounded * factor - units| = |rounded - units / factor| * factor := by
        rw [← abs_of_pos hpos, ← abs_mul, abs_of_pos hpos, sub_mul, div_mul_cancel₀ _ hpos.ne']
    _ ≤ 1 / 2 ^ 52 * |(units : ℚ) / factor| * factor :=
        mul_le_mul_of_nonneg_right h.rounded_near hpos.le
    _ = 1 / 2 ^ 52 * |(units : ℚ)| := by
        rw [abs_div, abs_of_pos hpos, mul_assoc, div_mul_cancel₀ _ hpos.ne']

/-- Few units are not blurred. -/
theorem abs_rounded_mul_pow_sub_le (hfew : FewUnits places units) :
    |rounded * 10 ^ places.toNat - units| ≤ 1 / 2 ^ 8 := by
  have hmul := h.abs_rounded_mul_factor_sub_le
  obtain ⟨hp, hunits⟩ | hunits := hfew
  · have hunits : |(units : ℚ)| ≤ 2 ^ 44 := by exact_mod_cast hunits
    rw [h.factor_eq hp] at hmul
    norm_num at hmul hunits ⊢
    linarith
  · have hunits : |(units : ℚ)| ≤ 2 ^ 30 := by exact_mod_cast hunits
    have hproduct : |rounded * factor| ≤ 2 ^ 31 := by
      have := abs_sub_abs_le_abs_sub (rounded * factor) units
      norm_num at this hmul hunits ⊢
      linarith
    have hdifference : |rounded * 10 ^ places.toNat - rounded * factor| ≤ 1 / 2 ^ 10 := by
      calc |rounded * 10 ^ places.toNat - rounded * factor|
          = |rounded| * |factor - 10 ^ places.toNat| := by
            rw [← mul_sub, abs_mul, abs_sub_comm factor]
        _ ≤ |rounded| * (1 / 2 ^ 43 * (101 / 100 * factor)) := by
            refine mul_le_mul_of_nonneg_left (h.factor_near.trans ?_) (abs_nonneg _)
            exact mul_le_mul_of_nonneg_left h.pow_ten_le (by norm_num)
        _ = 1 / 2 ^ 43 * (101 / 100) * |rounded * factor| := by
            rw [abs_mul, abs_of_pos h.factor_pos]
            ring
        _ ≤ 1 / 2 ^ 43 * (101 / 100) * 2 ^ 31 :=
            mul_le_mul_of_nonneg_left hproduct (by norm_num)
        _ ≤ 1 / 2 ^ 10 := by norm_num
    calc |rounded * 10 ^ places.toNat - units|
        ≤ |rounded * 10 ^ places.toNat - rounded * factor| + |rounded * factor - units| :=
          abs_sub_le _ _ _
      _ ≤ 1 / 2 ^ 8 := by
          norm_num at hdifference hmul hunits ⊢
          linarith

/-- An integer within half a place is made up of the units, if these are few. -/
theorem units_eq_of_abs_sub_le (hfew : FewUnits places units) {k : ℤ}
    (hk : |rounded - k| * factor ≤ 3 / 5) : k * 10 ^ places.toNat = units := by
  have hten : (0 : ℚ) < 10 ^ places.toNat := by positivity
  have hnear := h.abs_rounded_mul_pow_sub_le hfew
  have hdistance : |rounded * 10 ^ places.toNat - k * 10 ^ places.toNat| ≤ 3 / 4 := by
    rw [← sub_mul, abs_mul, abs_of_pos hten]
    calc |rounded - k| * 10 ^ places.toNat ≤ |rounded - k| * (101 / 100 * factor) :=
          mul_le_mul_of_nonneg_left h.pow_ten_le (abs_nonneg _)
      _ = 101 / 100 * (|rounded - k| * factor) := by ring
      _ ≤ 3 / 4 := by linarith
  refine eq_of_abs_cast_sub_lt_one ?_
  push_cast
  calc |(k * 10 ^ places.toNat : ℚ) - units|
      ≤ |(k * 10 ^ places.toNat : ℚ) - rounded * 10 ^ places.toNat|
        + |rounded * 10 ^ places.toNat - units| := abs_sub_le _ _ _
    _ < 1 := by
        rw [abs_sub_comm]
        norm_num at hnear ⊢
        linarith

/-- With more than 15 places a number that has fewest digits has more than a few units. -/
theorem places_le_of_shortest (hfew : FewUnits places units) (hfraction : ∀ k : ℤ, rounded ≠ k)
    (hne : units ≠ 0) {cs : List Char} (hcs : (x.rounded places).shortest? = some cs) :
    places.toNat ≤ 15 := by
  have hnear := h.abs_rounded_mul_pow_sub_le hfew
  obtain ⟨hp, -⟩ | hunits := hfew
  · exact hp
  by_contra hp
  obtain ⟨-, -, -, hlarge⟩ := Double.denotes_of_shortest? h.rounded_is (h.le_abs_rounded hne)
    (h.rounded_is.available.representable.abs_lt_of_ne_int hfraction) hcs
  have hten : (10 : ℚ) ^ 16 ≤ 10 ^ places.toNat := pow_le_pow_right₀ (by norm_num) (by omega)
  have hunits : |(units : ℚ)| ≤ 2 ^ 30 := by exact_mod_cast hunits
  have hproduct : (10 : ℚ) ^ 10 ≤ |rounded * 10 ^ places.toNat| := by
    rw [abs_mul, abs_of_pos (a := 10 ^ places.toNat) (by positivity)]
    calc (10 : ℚ) ^ 10 = 10 ^ (-6 : ℤ) * 10 ^ 16 := by norm_num
      _ ≤ |rounded| * 10 ^ places.toNat := mul_le_mul hlarge hten (by positivity) (abs_nonneg _)
  have := abs_sub_abs_le_abs_sub (rounded * 10 ^ places.toNat) units
  norm_num at this hproduct hunits hnear
  linarith

/-- Few units are printed as they are. -/
theorem denotes_units (hfew : FewUnits places units) :
    Decimal.Denotes places.toNat (x.chars places) (units / 10 ^ places.toNat) := by
  have hten : (0 : ℚ) < 10 ^ places.toNat := by positivity
  have hnear := h.abs_rounded_mul_pow_sub_le hfew
  have hsize := hfew.abs_le
  obtain ⟨k, hchars, hk⟩ | ⟨hfraction, hshortest | hfixed⟩ := h.chars_cases
  · -- an integer: it is the units, divided
    have hunits := h.units_eq_of_abs_sub_le hfew hk
    have hk : |k| ≤ 2 ^ 44 := by
      have hten : (1 : ℤ) ≤ 10 ^ places.toNat := one_le_pow₀ (by norm_num)
      rw [← hunits, abs_mul, abs_of_pos (one_pos.trans_le hten)] at hsize
      exact (le_mul_of_one_le_right (abs_nonneg k) hten).trans hsize
    have hsaturate : Double.saturate k = k := by
      rw [abs_le] at hk
      rw [Double.saturate]
      omega
    have hvalue : (units / 10 ^ places.toNat : ℚ) = k := by
      rw [div_eq_iff hten.ne', ← hunits]
      push_cast
      rfl
    rw [hchars, hsaturate, hvalue]
    exact (Decimal.denotes_intText k).mono (Nat.zero_le _)
  · -- the fewest digits: they are those of the units, divided
    have hne : units ≠ 0 := fun hzero =>
      hfraction 0 (by rw [h.rounded_eq_zero hzero, Int.cast_zero])
    have hp := h.places_le_of_shortest hfew hfraction hne hshortest
    refine Double.denotes_of_nearest h.rounded_is (h.le_abs_rounded hne)
      (h.rounded_is.available.representable.abs_lt_of_ne_int hfraction) ?_ hp
      (hnear.trans_lt (by norm_num)) (h.factor_eq hp ▸ h.rounded_nearest) hfraction hshortest
    rw [abs_le] at hsize
    omega
  · -- all places: a whole number of units within half a unit
    obtain ⟨n, hn, hround⟩ :=
      Double.exists_denotes_trimmed_fixed h.rounded_is (h.places_ne_zero hfraction)
    have hunits : n = units := by
      refine eq_of_abs_cast_sub_lt_one ?_
      calc |(n : ℚ) - units| ≤ |n - rounded * 10 ^ places.toNat|
            + |rounded * 10 ^ places.toNat - units| := abs_sub_le _ _ _
        _ < 1 := by
            norm_num at hnear hround ⊢
            linarith
    rwa [hfixed, ← hunits]

/-! ## Many units -/

/-- Many units are near to the coordinate, and their place is small. -/
theorem near_of_many (hmany : 2 ^ 30 < |units|) :
    |rounded - x.value| ≤ 1 / 2 ^ 29 * |x.value| ∧ 1 / factor ≤ 1 / 2 ^ 29 * |x.value| := by
  have hpos := h.factor_pos
  have hmany : (2 : ℚ) ^ 30 ≤ |(units : ℚ)| := by exact_mod_cast hmany.le
  have hplace : 1 / factor ≤ 1 / 2 ^ 30 * |(units : ℚ) / factor| := by
    rw [abs_div, abs_of_pos hpos, ← mul_div_assoc]
    refine div_le_div_of_nonneg_right ?_ hpos.le
    norm_num at hmany ⊢
    linarith
  have hscaled : |scaled / factor - x.value| ≤ 1 / 2 ^ 52 * |x.value| := by
    have hsplit : scaled / factor - x.value = (scaled - x.value * factor) / factor := by
      field_simp
    rw [hsplit, abs_div, abs_of_pos hpos, div_le_iff₀ hpos, mul_assoc]
    calc |scaled - x.value * factor| ≤ 1 / 2 ^ 52 * |x.value * factor| := h.scaled_near
      _ = 1 / 2 ^ 52 * (|x.value| * factor) := by rw [abs_mul, abs_of_pos hpos]
  have hunits : |units / factor - scaled / factor| ≤ 1 / 2 * (1 / factor) := by
    rw [← sub_div, abs_div, abs_of_pos hpos, mul_one_div]
    exact div_le_div_of_nonneg_right h.units_near hpos.le
  have hvalue : |units / factor - x.value| ≤ 1 / 2 * (1 / factor) + 1 / 2 ^ 52 * |x.value| :=
    (abs_sub_le _ (scaled / factor) _).trans (add_le_add hunits hscaled)
  have hsize := abs_sub_abs_le_abs_sub ((units : ℚ) / factor) x.value
  have htotal := (abs_sub_le rounded (units / factor) x.value).trans
    (add_le_add h.rounded_near hvalue)
  have hnonneg := abs_nonneg x.value
  norm_num at hplace hvalue hsize htotal ⊢
  constructor <;> linarith

/-- The fewest digits of a number with a fraction, and all of its places, denote a number near to
it. -/
theorem exists_denotes_fraction (hne : units ≠ 0) (hfraction : ∀ k : ℤ, rounded ≠ k)
    {cs : List Char} (hcs : (x.rounded places).shortest? = some cs ∨ cs
      = Text.dropRightWhile (· == '.')
          (Text.dropRightWhile (· == '0') ((x.rounded places).fixed places.toNat))) :
    ∃ w, Decimal.Denotes 256 cs w ∧ |w| ≤ 2 ^ 64
      ∧ |w - rounded| ≤ 3 / 5 * (1 / factor) + 1 / 2 ^ 53 * |rounded| := by
  have hhigh : |rounded| < 2 ^ 53 :=
    h.rounded_is.available.representable.abs_lt_of_ne_int hfraction
  have hplaces : places.toNat ≤ 255 := Nat.lt_succ_iff.1 places.toNat_lt
  have hinv := inv_pos.2 h.factor_pos
  obtain hshortest | rfl := hcs
  · obtain ⟨w, hw, hnear, -⟩ :=
      Double.denotes_of_shortest? h.rounded_is (h.le_abs_rounded hne) hhigh hshortest
    have hsize := abs_sub_abs_le_abs_sub w rounded
    refine ⟨w, hw.mono (by decide), ?_, ?_⟩
    · norm_num at hsize hnear hhigh ⊢
      linarith
    · norm_num at hnear ⊢
      linarith
  · have hten : (0 : ℚ) < 10 ^ places.toNat := by positivity
    have hone : (1 : ℚ) / 10 ^ places.toNat ≤ 1 :=
      div_le_self zero_le_one (one_le_pow₀ (by norm_num))
    have hplace : (1 : ℚ) / 10 ^ places.toNat ≤ 101 / 100 * (1 / factor) := by
      rw [mul_one_div, div_le_div_iff₀ hten h.factor_pos, one_mul]
      exact h.factor_le_pow_ten
    obtain ⟨n, hn, hround⟩ :=
      Double.exists_denotes_trimmed_fixed h.rounded_is (h.places_ne_zero hfraction)
    have hdistance : |n / 10 ^ places.toNat - rounded| ≤ 1 / 2 * (1 / 10 ^ places.toNat) := by
      have hsplit : n / 10 ^ places.toNat - rounded
          = (n - rounded * 10 ^ places.toNat) / 10 ^ places.toNat := by field_simp
      rw [hsplit, abs_div, abs_of_pos hten, mul_one_div]
      exact div_le_div_of_nonneg_right hround hten.le
    have hsize := abs_sub_abs_le_abs_sub ((n : ℚ) / 10 ^ places.toNat) rounded
    refine ⟨_, hn.mono (by omega), ?_, hdistance.trans ?_⟩
    · norm_num at hsize hone hdistance hhigh ⊢
      linarith
    · have hnonneg := abs_nonneg rounded
      norm_num at hplace ⊢
      linarith

/-- Many units are printed as a number near to the coordinate, or as an integer that is too large
for 64 bits and is replaced by the nearest that is not. -/
theorem denotes_near_or_saturates (hmany : 2 ^ 30 < |units|) :
    (∃ w, Decimal.Denotes 256 (x.chars places) w ∧ |w| ≤ 2 ^ 64
      ∧ |w - x.value| ≤ 1 / 2 ^ 28 * |x.value|)
    ∨ ∃ k : ℤ, x.chars places = Double.intText (Double.saturate k) ∧ Double.saturate k ≠ k
      ∧ |k - x.value| ≤ 1 / 2 ^ 28 * |x.value| := by
  have hpos := h.factor_pos
  obtain ⟨hnear, hplace⟩ := h.near_of_many hmany
  have hclose {w : ℚ} (hw : |w - rounded| ≤ 3 / 5 * (1 / factor) + 1 / 2 ^ 53 * |rounded|) :
      |w - x.value| ≤ 1 / 2 ^ 28 * |x.value| := by
    have hsize := abs_sub_abs_le_abs_sub rounded x.value
    have := abs_sub_le w rounded x.value
    have hnonneg := abs_nonneg x.value
    norm_num at hw hsize hnear hplace this ⊢
    linarith
  obtain ⟨k, hchars, hk⟩ | ⟨hfraction, htext⟩ := h.chars_cases
  · have hk : |(k : ℚ) - x.value| ≤ 1 / 2 ^ 28 * |x.value| := by
      refine hclose ?_
      rw [← le_div_iff₀ hpos, abs_sub_comm] at hk
      rw [mul_one_div]
      exact hk.trans (le_add_of_nonneg_right (by positivity))
    by_cases hsaturate : Double.saturate k = k
    · rw [hsaturate] at hchars
      refine .inl ⟨k, hchars ▸ (Decimal.denotes_intText k).mono (Nat.zero_le _), ?_, hk⟩
      rw [Double.saturate] at hsaturate
      have : |k| ≤ 2 ^ 64 := abs_le.2 ⟨by omega, by omega⟩
      exact_mod_cast this
    · exact .inr ⟨k, hchars, hsaturate, hk⟩
  · have hne : units ≠ 0 := by
      rintro rfl
      exact absurd hmany (by decide)
    obtain ⟨w, hw, hsize, hdistance⟩ := h.exists_denotes_fraction hne hfraction htext
    exact .inl ⟨w, hw, hsize, hclose hdistance⟩

end Printing

end Single

end VectorGraphics
