import Mathlib.Algebra.Order.Field.Power
import Mathlib.Tactic.FieldSimp
import Mathlib.Tactic.Linarith
import Mathlib.Tactic.Positivity
import VectorGraphics.Proofs.Number.Packing

/-!
# Rounding to the nearest number of a format

`value` is the rational that a finite unpacked number stands for, and `Representable f` holds of
the rationals that have enough room in a format, however large. A number `Rounds f x` if it is
canonical and no representable rational is nearer to `x`. Rounding a mantissa with an accuracy
does that (`rounds_roundWithAccuracy`), and with it every rounding of a rational.

A rounded number is exact where it can be (`Rounds.value_eq`), and does not leave an interval with
representable ends (`Rounds.le_value`,
`Rounds.value_le`).
-/

namespace VectorGraphics.Rounding

open Float.Model.UnpackedFloat
open Float.Model (UnpackedFloat totalExponent)
open Packing

variable {f : Float.Model.Format}

/-! ## The value of a number -/

/-- The sign as a factor. -/
def sign : Sign → ℚ
  | .negative => -1
  | .positive => 1

/-- The rational a finite number stands for, and zero for the others. -/
def value : UnpackedFloat → ℚ
  | .finite s m e _ => sign s * (m * 2 ^ e)
  | _ => 0

@[simp]
theorem value_zero (s : Sign) : value (.zero s) = 0 := rfl

/-- A rational with a mantissa short enough for the format, and an exponent of any size above the
smallest. -/
def Representable (f : Float.Model.Format) (y : ℚ) : Prop :=
  ∃ (m : ℕ) (e : ℤ), m < 2 ^ f.mantissaBits ∧ f.minExponent ≤ e ∧ |y| = m * 2 ^ e

/-- The least power of two that is too large for the format. -/
def overflow (f : Float.Model.Format) : ℚ := 2 ^ (f.mantissaBits + maxExponent f)

/-- The number is canonical, and no representable rational is nearer to `x`. -/
structure Rounds (f : Float.Model.Format) (x : ℚ) (u : UnpackedFloat) : Prop where
  isFinite : u.isFinite = true
  canonical : Canonical f u
  nearest : ∀ y, Representable f y → |value u - x| ≤ |y - x|

theorem two_zpow_pos (e : ℤ) : (0 : ℚ) < 2 ^ e := zpow_pos two_pos e

theorem two_zpow_natCast_sub {a b : ℤ} (h : a ≤ b) :
    (2 : ℚ) ^ b = 2 ^ (b - a).toNat * 2 ^ a := by
  rw [← zpow_natCast, ← zpow_add₀ two_ne_zero, Int.toNat_of_nonneg (by omega), sub_add_cancel]

theorem abs_sign_mul (s : Sign) (x : ℚ) : |sign s * x| = |x| := by
  cases s <;> simp [sign]

theorem sign_mul_sign (s t : Sign) : sign (s * t) = sign s * sign t := by
  cases s <;> cases t
  · exact (by norm_num : (1 : ℚ) = -1 * -1)
  · exact (by norm_num : (-1 : ℚ) = -1 * 1)
  · exact (by norm_num : (-1 : ℚ) = 1 * -1)
  · exact (by norm_num : (1 : ℚ) = 1 * 1)

theorem sign_div_sign (s t : Sign) : sign (s / t) = sign s / sign t := by
  cases s <;> cases t
  · exact (by norm_num : (1 : ℚ) = -1 / -1)
  · exact (by norm_num : (-1 : ℚ) = -1 / 1)
  · exact (by norm_num : (-1 : ℚ) = 1 / -1)
  · exact (by norm_num : (1 : ℚ) = 1 / 1)

theorem sign_ne_zero (s : Sign) : sign s ≠ 0 := by
  cases s <;> norm_num [sign]

theorem sign_neg (s : Sign) : sign (-s) = -sign s := by
  cases s
  · exact (neg_neg 1).symm
  · rfl

/-- The magnitude of a finite number. -/
theorem abs_value_finite (s : Sign) (m : ℕ) (e : ℤ) (hm : 0 < m) :
    |value (.finite s m e hm)| = m * 2 ^ e := by
  rw [value, abs_sign_mul, abs_of_nonneg (by positivity)]

theorem Representable.neg {y : ℚ} (h : Representable f y) : Representable f (-y) := by
  simpa [Representable] using h

theorem representable_abs {y : ℚ} : Representable f |y| ↔ Representable f y := by
  simp [Representable]

/-- The value of a canonical number is representable. -/
theorem representable_value {u : UnpackedFloat} (hc : Canonical f u) :
    Representable f (value u) := by
  cases u with
  | finite s m e hm => exact ⟨m, e, hc.1, hc.2.1, abs_value_finite s m e hm⟩
  | _ => exact ⟨0, f.minExponent, Nat.two_pow_pos _, le_rfl, by simp [value]⟩

/-! ## Residual bits -/

/-- The fractions that an accuracy describes. -/
def Describes : Accuracy → ℚ → Prop
  | .exact, d => d = 0
  | .inexact .lt, d => 0 < d ∧ d < 1 / 2
  | .inexact .eq, d => d = 1 / 2
  | .inexact .gt, d => 1 / 2 < d ∧ d < 1

/-- The mantissa and its residual bits are those of `x`. -/
def StandsFor (em : ExtendedMantissa) (x : ℚ) : Prop := Describes em.accuracy (x - em.mantissa)

theorem describes_bounds {a : Accuracy} {d : ℚ} (h : Describes a d) : 0 ≤ d ∧ d < 1 := by
  rcases a with _ | _ | _ | _ <;> simp only [Describes] at h <;> constructor <;> linarith

theorem standsFor_ofMantissaAndAccuracy {m : ℕ} {a : Accuracy} {d : ℚ} (h : Describes a d) :
    StandsFor (.ofMantissaAndAccuracy m a) (m + d) := by
  have hd : (m + d : ℚ) - m = d := by ring
  rcases a with _ | _ | _ | _ <;>
    simpa [StandsFor, ExtendedMantissa.ofMantissaAndAccuracy, ExtendedMantissa.accuracy, hd] using h

/-- Dropping a bit of the mantissa halves the number. -/
theorem StandsFor.shiftRightOne {em : ExtendedMantissa} {x : ℚ} (h : StandsFor em x) :
    StandsFor em.shiftRightOne (x / 2) := by
  obtain ⟨m, r, s⟩ := em
  have hm : (m : ℚ) = 2 * (m / 2 : ℕ) + (m % 2 : ℕ) := by
    exact_mod_cast (Nat.div_add_mod m 2).symm
  rcases Nat.mod_two_eq_zero_or_one m with hpar | hpar <;> cases r <;> cases s <;>
    simp only [StandsFor, ExtendedMantissa.accuracy, ExtendedMantissa.shiftRightOne, Describes,
      hpar, bne_self_eq_false, Bool.or_self, Bool.or_true, Bool.or_false, Nat.cast_zero,
      Nat.cast_one, (by decide : (1 != 0) = true)] at h hm ⊢ <;>
    first | linarith | constructor <;> linarith

theorem StandsFor.shiftRight {em : ExtendedMantissa} {x : ℚ} (h : StandsFor em x) (n : ℕ) :
    StandsFor (em >>> n) (x / 2 ^ n) := by
  induction n with
  | zero =>
    rw [pow_zero, div_one]
    exact h
  | succ n ih =>
    have := ih.shiftRightOne
    rwa [div_div, ← pow_succ] at this

theorem StandsFor.mantissa_le {em : ExtendedMantissa} {x : ℚ} (h : StandsFor em x) :
    (em.mantissa : ℚ) ≤ x ∧ x < em.mantissa + 1 := by
  have := describes_bounds h
  constructor <;> linarith

theorem roundedMantissa_bounds (em : ExtendedMantissa) :
    em.mantissa ≤ em.roundedMantissa ∧ em.roundedMantissa ≤ em.mantissa + 1 := by
  obtain ⟨m, r, s⟩ := em
  cases r <;> cases s <;>
    simp only [ExtendedMantissa.roundedMantissa, ExtendedMantissa.accuracy,
      Accuracy.roundToNearestEven] <;> omega

/-- The rounded mantissa is as near as the whole numbers around. -/
theorem StandsFor.abs_roundedMantissa_sub_le {em : ExtendedMantissa} {x : ℚ}
    (h : StandsFor em x) :
    |(em.roundedMantissa : ℚ) - x| ≤ x - em.mantissa
      ∧ |(em.roundedMantissa : ℚ) - x| ≤ em.mantissa + 1 - x := by
  obtain ⟨m, r, s⟩ := em
  have hpar : ((m % 2 : ℕ) : ℚ) = 0 ∨ ((m % 2 : ℕ) : ℚ) = 1 := by
    rcases Nat.mod_two_eq_zero_or_one m with h | h <;> simp [h]
  cases r <;> cases s <;>
    simp only [StandsFor, ExtendedMantissa.accuracy, Describes] at h <;>
    simp only [ExtendedMantissa.roundedMantissa, ExtendedMantissa.accuracy,
      Accuracy.roundToNearestEven, Nat.cast_add, Nat.cast_one, abs_le] <;>
    rcases hpar with hpar | hpar <;>
    refine ⟨⟨?_, ?_⟩, ?_, ?_⟩ <;> linarith

/-- No whole number is nearer than the rounded mantissa. -/
theorem StandsFor.nearest {em : ExtendedMantissa} {x : ℚ} (h : StandsFor em x) (k : ℤ) :
    |(em.roundedMantissa : ℚ) - x| ≤ |k - x| := by
  obtain ⟨hlow, hhigh⟩ := h.abs_roundedMantissa_sub_le
  rcases le_or_gt k em.mantissa with hk | hk
  · have hk : (k : ℚ) ≤ em.mantissa := by exact_mod_cast hk
    rw [abs_sub_comm (k : ℚ) x]
    exact le_trans (by linarith) (le_abs_self (x - k))
  · have hk : (em.mantissa : ℚ) + 1 ≤ k := by exact_mod_cast hk
    exact le_trans (by linarith) (le_abs_self (k - x))

/-! ## Rounding with an accuracy -/

theorem shiftToExponent_eq (m : ℕ) {e t : ℤ} (a : Accuracy) (h : e ≤ t) :
    shiftToExponent m e a t
      = (ExtendedMantissa.ofMantissaAndAccuracy m a >>> (t - e).toNat, t) := by
  have : e + ((t - e).toNat : ℤ) = t := by omega
  simp only [shiftToExponent, this]

/-- A rounded mantissa has at most one bit too many, and that bit is zero. -/
theorem carry {r : ℕ} {t : ℤ} (hr : r ≤ 2 ^ f.mantissaBits) (ht : f.minExponent ≤ t)
    (hnormal : 2 ^ f.mantissaBitsWithoutImplicit ≤ r ∨ t = f.minExponent) :
    ∃ (m : ℕ) (e : ℤ),
      (shiftToTargetExponent f r t .exact).1.mantissa = m
      ∧ (shiftToTargetExponent f r t .exact).2 = e
      ∧ (m : ℚ) * 2 ^ e = r * 2 ^ t
      ∧ m < 2 ^ f.mantissaBits ∧ f.minExponent ≤ e
      ∧ (2 ^ f.mantissaBitsWithoutImplicit ≤ m ∨ e = f.minExponent) := by
  have hbits : f.mantissaBits = 1 + f.mantissaBitsWithoutImplicit := rfl
  rcases hr.lt_or_eq with hr | rfl
  · have hlog : r.log2 < f.mantissaBits := by
      rcases Nat.eq_zero_or_pos r with rfl | hpos
      · simp only [Nat.log2_zero, hbits]
        omega
      · exact (Nat.log2_lt hpos.ne').2 hr
    have hshift : (f.targetExponent (totalExponent r t) - t).toNat = 0 := by
      simp only [Float.Model.Format.targetExponent, totalExponent]
      omega
    refine ⟨r, t, ?_, ?_, rfl, hr, ht, hnormal⟩
    · rw [shiftToTargetExponent, shiftToExponent, hshift]
      rfl
    · rw [shiftToTargetExponent, shiftToExponent, hshift, Nat.cast_zero, add_zero]
  · have htarget : f.targetExponent (totalExponent (2 ^ f.mantissaBits) t) = t + 1 := by
      simp only [Float.Model.Format.targetExponent, totalExponent, Nat.log2_two_pow]
      omega
    have hhalf : 2 ^ f.mantissaBits / 2 = 2 ^ f.mantissaBitsWithoutImplicit := by
      rw [hbits, pow_add, pow_one, Nat.mul_div_cancel_left _ two_pos]
    refine ⟨2 ^ f.mantissaBitsWithoutImplicit, t + 1, ?_, ?_, ?_, ?_, by omega, .inl le_rfl⟩
    · rw [shiftToTargetExponent, htarget, shiftToExponent_eq _ _ (by omega), ← hhalf,
        show (t + 1 - t).toNat = 1 by omega]
      rfl
    · rw [shiftToTargetExponent, htarget, shiftToExponent_eq _ _ (by omega)]
    · rw [hbits, zpow_add₀ two_ne_zero]
      push_cast
      ring
    · exact Nat.pow_lt_pow_right one_lt_two (by omega)

/-- A multiple of `2 ^ t` that no other multiple is nearer than, has no nearer representable
rational either, if the mantissas of `x` are full or the exponent is the smallest. -/
theorem nearest_of_grid {x r : ℚ} {t : ℤ} (hgrid : ∀ k : ℤ, |r - x| ≤ |k * 2 ^ t - x|)
    (ht : 2 ^ f.mantissaBitsWithoutImplicit * 2 ^ t ≤ x ∨ t = f.minExponent) {y : ℚ}
    (hy : Representable f y) : |r - x| ≤ |(|y| - x)| := by
  obtain ⟨m, e, hm, he, hy⟩ := hy
  rw [hy]
  rcases le_or_gt t e with hle | hlt
  · have := hgrid (m * 2 ^ (e - t).toNat)
    push_cast at this
    rwa [mul_assoc, ← two_zpow_natCast_sub hle] at this
  · -- a smaller exponent only reaches numbers below the smallest full mantissa
    have hfull := ht.resolve_right (by omega)
    have hy : (m : ℚ) * 2 ^ e ≤ 2 ^ f.mantissaBitsWithoutImplicit * 2 ^ t := by
      have hm : (m : ℚ) ≤ 2 ^ f.mantissaBits := by exact_mod_cast hm.le
      calc (m : ℚ) * 2 ^ e ≤ 2 ^ f.mantissaBits * 2 ^ (t - 1) :=
            mul_le_mul hm (zpow_le_zpow_right₀ one_le_two (by omega)) (two_zpow_pos e).le
              (by positivity)
        _ = 2 ^ f.mantissaBitsWithoutImplicit * 2 ^ t := by
            rw [show f.mantissaBits = 1 + f.mantissaBitsWithoutImplicit from rfl, pow_add,
              zpow_sub_one₀ two_ne_zero]
            ring
    have := hgrid (2 ^ f.mantissaBitsWithoutImplicit)
    push_cast at this
    calc |r - x| ≤ |2 ^ f.mantissaBitsWithoutImplicit * 2 ^ t - x| := this
      _ = x - 2 ^ f.mantissaBitsWithoutImplicit * 2 ^ t := by
          rw [abs_sub_comm, abs_of_nonneg (by linarith)]
      _ ≤ x - m * 2 ^ e := by linarith
      _ ≤ |m * 2 ^ e - x| := by
          rw [abs_sub_comm]
          exact le_abs_self _

/-- At the target exponent a number has as many bits as the format allows, and no fewer above the
smallest exponent. -/
theorem bounds_at_target {m : ℕ} {e t : ℤ} {d x : ℚ} (hd₀ : 0 ≤ d) (hd₁ : d < 1)
    (ht : f.targetExponent (totalExponent m e) = t) (he : e ≤ t)
    (hx : (m + d) * 2 ^ e = x * 2 ^ t) :
    x < 2 ^ f.mantissaBits ∧ (2 ^ f.mantissaBitsWithoutImplicit ≤ x ∨ t = f.minExponent) := by
  have hbits : f.mantissaBits = 1 + f.mantissaBitsWithoutImplicit := rfl
  have hpos := f.hm
  rw [Float.Model.Format.targetExponent] at ht
  constructor
  · have hm : (m : ℚ) + 1 ≤ 2 ^ (m.log2 + 1) := by exact_mod_cast Nat.lt_log2_self
    have hlt : x * 2 ^ t < 2 ^ (f.mantissaBits + t : ℤ) := by
      rw [← hx]
      calc (m + d) * 2 ^ e < 2 ^ (m.log2 + 1) * (2 : ℚ) ^ e :=
            mul_lt_mul_of_pos_right (by linarith) (two_zpow_pos e)
        _ = 2 ^ totalExponent m e := by
            rw [totalExponent, ← zpow_natCast, ← zpow_add₀ two_ne_zero]
            push_cast
            rfl
        _ ≤ 2 ^ (f.mantissaBits + t : ℤ) := zpow_le_zpow_right₀ one_le_two (by omega)
    rw [zpow_add₀ two_ne_zero, zpow_natCast] at hlt
    exact lt_of_mul_lt_mul_right hlt (two_zpow_pos t).le
  · refine or_iff_not_imp_right.2 fun hne => ?_
    have heq : t = totalExponent m e - f.mantissaBits := by omega
    rw [totalExponent] at heq
    have hne : m ≠ 0 := by
      rintro rfl
      rw [Nat.log2_zero] at heq
      omega
    have hm : (2 : ℚ) ^ m.log2 ≤ m := by exact_mod_cast Nat.log2_self_le hne
    have hle : 2 ^ (f.mantissaBitsWithoutImplicit + t : ℤ) ≤ x * 2 ^ t := by
      rw [← hx]
      calc (2 : ℚ) ^ (f.mantissaBitsWithoutImplicit + t : ℤ) = 2 ^ m.log2 * 2 ^ e := by
            rw [← zpow_natCast, ← zpow_add₀ two_ne_zero]
            congr 1
            omega
        _ ≤ (m + d) * 2 ^ e := mul_le_mul_of_nonneg_right (by linarith) (two_zpow_pos e).le
    rw [zpow_add₀ two_ne_zero, zpow_natCast] at hle
    exact le_of_mul_le_mul_right hle (two_zpow_pos t)

/-- Rounding a mantissa whose exponent is not too large already. -/
theorem rounds_roundWithAccuracy (s : Sign) {m : ℕ} {e : ℤ} {a : Accuracy} {d : ℚ}
    (he : e ≤ f.targetExponent (totalExponent m e)) (hd : Describes a d) :
    Rounds f (sign s * ((m + d) * 2 ^ e)) (roundWithAccuracy f s m e a) := by
  obtain ⟨hd₀, hd₁⟩ := describes_bounds hd
  generalize ht : f.targetExponent (totalExponent m e) = t at he
  have hmin : f.minExponent ≤ t := ht ▸ le_max_right _ _
  generalize hem : ExtendedMantissa.ofMantissaAndAccuracy m a >>> (t - e).toNat = em
  have hstands : StandsFor em ((m + d) / 2 ^ (t - e).toNat) :=
    hem ▸ (standsFor_ofMantissaAndAccuracy hd).shiftRight _
  have hscale : (m + d) * 2 ^ e = (m + d) / 2 ^ (t - e).toNat * 2 ^ t := by
    rw [two_zpow_natCast_sub he]
    field_simp
  generalize (m + d) / 2 ^ (t - e).toNat = x at hstands hscale
  obtain ⟨hlow, hhigh⟩ := hstands.mantissa_le
  obtain ⟨hround₀, hround₁⟩ := roundedMantissa_bounds em
  obtain ⟨hx₁, hx₂⟩ := bounds_at_target hd₀ hd₁ ht he hscale
  have hlt : em.mantissa < 2 ^ f.mantissaBits := by exact_mod_cast hlow.trans_lt hx₁
  have hfull : 2 ^ f.mantissaBitsWithoutImplicit ≤ em.mantissa ∨ t = f.minExponent :=
    hx₂.imp_left fun h => Nat.lt_succ_iff.1 (by exact_mod_cast h.trans_lt hhigh)
  obtain ⟨m', e', hm', he', hval, hc₀, hc₁, hc₂⟩ := carry (r := em.roundedMantissa) (by omega) hmin
    (hfull.imp_left fun h => h.trans hround₀)
  have hresult : roundWithAccuracy f s m e a
      = if h : m' = 0 then .zero s else .finite s m' e' (Nat.pos_of_ne_zero h) := by
    subst hm' he'
    simp only [roundWithAccuracy]
    rw [show shiftToTargetExponent f m e a = (em, t) by
      rw [shiftToTargetExponent, ht, shiftToExponent_eq _ _ he, hem]]
  have hgrid (k : ℤ) : |m' * 2 ^ e' - x * 2 ^ t| ≤ |k * 2 ^ t - x * 2 ^ t| := by
    rw [hval, ← sub_mul, ← sub_mul, abs_mul, abs_mul]
    exact mul_le_mul_of_nonneg_right (hstands.nearest k) (abs_nonneg _)
  have hx₂ : 2 ^ f.mantissaBitsWithoutImplicit * 2 ^ t ≤ x * 2 ^ t ∨ t = f.minExponent :=
    hx₂.imp_left fun h => mul_le_mul_of_nonneg_right h (two_zpow_pos t).le
  have hx : 0 ≤ x * 2 ^ t := hscale ▸ by positivity
  have hnearest (y : ℚ) (hy : Representable f y) :
      |sign s * (m' * 2 ^ e') - sign s * (x * 2 ^ t)| ≤ |y - sign s * (x * 2 ^ t)| := by
    calc |sign s * (m' * 2 ^ e') - sign s * (x * 2 ^ t)| = |m' * 2 ^ e' - x * 2 ^ t| := by
          rw [← mul_sub, abs_sign_mul]
      _ ≤ |(|y| - x * 2 ^ t)| := nearest_of_grid hgrid hx₂ hy
      _ = |(|y| - |sign s * (x * 2 ^ t)|)| := by rw [abs_sign_mul, abs_of_nonneg hx]
      _ ≤ |y - sign s * (x * 2 ^ t)| := abs_abs_sub_abs_le _ _
  rw [hresult, hscale]
  split
  · next hzero =>
    subst hzero
    refine ⟨rfl, trivial, ?_⟩
    simpa [value] using hnearest
  · exact ⟨rfl, ⟨hc₀, hc₁, hc₂⟩, hnearest⟩

/-! ## What a rounded number keeps -/

/-- A representable rational is not changed. -/
theorem Rounds.value_eq {x : ℚ} {u : UnpackedFloat} (h : Rounds f x u)
    (hx : Representable f x) : value u = x := by
  have := h.nearest x hx
  rw [sub_self, abs_zero] at this
  exact sub_eq_zero.1 (abs_eq_zero.1 (this.antisymm (abs_nonneg _)))

/-- Rounding does not pass a representable bound from above. -/
theorem Rounds.le_value {x b : ℚ} {u : UnpackedFloat} (h : Rounds f x u)
    (hb : Representable f b) (hx : b ≤ x) : b ≤ value u := by
  by_contra hlt
  have := h.nearest b hb
  rw [abs_of_nonpos (by linarith), abs_of_nonpos (by linarith)] at this
  linarith

/-- Rounding does not pass a representable bound from below. -/
theorem Rounds.value_le {x b : ℚ} {u : UnpackedFloat} (h : Rounds f x u)
    (hb : Representable f b) (hx : x ≤ b) : value u ≤ b := by
  by_contra hlt
  have := h.nearest b hb
  rw [abs_of_nonneg (by linarith), abs_of_nonneg (by linarith)] at this
  linarith

/-- A canonical number below the overflow has an exponent that fits. -/
theorem fits_of_abs_lt {u : UnpackedFloat} (hc : Canonical f u)
    (hmax : f.minExponent ≤ maxExponent f) (h : |value u| < overflow f) : Fits f u := by
  cases u with
  | finite s m e hm =>
    rw [Fits]
    by_contra hlt
    have hfull := hc.2.2.resolve_right (by omega)
    have hfull : (2 : ℚ) ^ f.mantissaBitsWithoutImplicit ≤ m := by exact_mod_cast hfull
    rw [abs_value_finite] at h
    refine absurd h (not_lt.2 ?_)
    calc overflow f = 2 ^ f.mantissaBitsWithoutImplicit * 2 ^ (1 + maxExponent f) := by
          rw [overflow, ← zpow_natCast, ← zpow_add₀ two_ne_zero, Float.Model.Format.mantissaBits]
          congr 1
          omega
      _ ≤ m * 2 ^ e := mul_le_mul hfull (zpow_le_zpow_right₀ one_le_two (by omega))
          (two_zpow_pos _).le (by positivity)
  | _ => trivial

/-- A canonical number with an exponent that fits is below the overflow. -/
theorem abs_value_lt_overflow {u : UnpackedFloat} (hc : Canonical f u) (hf : Fits f u) :
    |value u| < overflow f := by
  cases u with
  | finite s m e hm =>
    have hm' : (m : ℚ) < 2 ^ f.mantissaBits := by exact_mod_cast hc.1
    rw [abs_value_finite, overflow, zpow_add₀ two_ne_zero, zpow_natCast]
    calc (m : ℚ) * 2 ^ e ≤ m * 2 ^ maxExponent f :=
          mul_le_mul_of_nonneg_left (zpow_le_zpow_right₀ one_le_two hf) (Nat.cast_nonneg m)
      _ < 2 ^ f.mantissaBits * 2 ^ maxExponent f :=
          mul_lt_mul_of_pos_right hm' (two_zpow_pos _)
  | _ =>
    rw [value, abs_zero]
    · exact two_zpow_pos _
    all_goals exact nofun

end VectorGraphics.Rounding
