import VectorGraphics.Proofs.Number.Rounding

/-!
# Arithmetic on unpacked numbers

Sums, differences, products and quotients of canonical numbers are the exact results, rounded, and
so is a number made from a decimal. Canonical numbers compare as their values do (`compare_eq`).
-/

namespace VectorGraphics.Rounding

open Float.Model.UnpackedFloat
open Float.Model (UnpackedFloat totalExponent)
open Packing

variable {f : Float.Model.Format}

/-- A finite canonical number is its own rounding. -/
theorem rounds_self {u : UnpackedFloat} (hu : u.isFinite = true) (hc : Canonical f u) :
    Rounds f (value u) u := by
  refine ⟨hu, hc, fun y _ => ?_⟩
  rw [sub_self, abs_zero]
  exact abs_nonneg _

theorem rounds_zero (s : Sign) : Rounds f 0 (.zero s) := by
  have := rounds_self (f := f) (u := .zero s) rfl trivial
  exact this

/-! ## Rounding a mantissa with any exponent -/

theorem log2_mul_two_pow {m : ℕ} (hm : m ≠ 0) (k : ℕ) : (m * 2 ^ k).log2 = m.log2 + k := by
  refine (Nat.log2_eq_iff (mul_ne_zero hm (by positivity))).2 ⟨?_, ?_⟩
  · rw [pow_add]
    exact Nat.mul_le_mul_right _ (Nat.log2_self_le hm)
  · rw [add_right_comm, pow_add]
    exact Nat.mul_lt_mul_of_pos_right Nat.lt_log2_self (by positivity)

theorem totalExponent_decreaseExponent (m : ℕ) (e t : ℤ) (hm : m ≠ 0) :
    totalExponent (decreaseExponent m e t).1 (decreaseExponent m e t).2 = totalExponent m e := by
  simp only [decreaseExponent, totalExponent, Nat.shiftLeft_eq]
  rw [log2_mul_two_pow hm]
  push_cast
  ring

theorem decreaseExponent_value (m : ℕ) (e t : ℤ) :
    ((decreaseExponent m e t).1 : ℚ) * 2 ^ (decreaseExponent m e t).2 = m * 2 ^ e := by
  simp only [decreaseExponent, Nat.shiftLeft_eq, Nat.cast_mul, Nat.cast_pow, Nat.cast_ofNat]
  rw [mul_assoc, ← zpow_natCast, ← zpow_add₀ two_ne_zero]
  congr 2
  omega

theorem decreaseExponent_snd_le (m : ℕ) (e t : ℤ) : (decreaseExponent m e t).2 ≤ t := by
  simp only [decreaseExponent]
  omega

theorem decreaseExponent_snd_of_le (m : ℕ) {e t : ℤ} (h : t ≤ e) :
    (decreaseExponent m e t).2 = t := by
  simp only [decreaseExponent]
  omega

theorem shiftRight_zero (n : ℕ) :
    ExtendedMantissa.ofMantissaAndAccuracy 0 .exact >>> n = .ofMantissaAndAccuracy 0 .exact := by
  induction n with
  | zero => rfl
  | succ n ih => exact congrArg ExtendedMantissa.shiftRightOne ih

theorem roundWithAccuracy_zero (s : Sign) (e : ℤ) :
    roundWithAccuracy f s 0 e .exact = .zero s := by
  have hround : (ExtendedMantissa.ofMantissaAndAccuracy 0 .exact).roundedMantissa = 0 := rfl
  simp only [roundWithAccuracy, shiftToTargetExponent, shiftToExponent, shiftRight_zero, hround]
  rfl

/-- Rounding `± m · 2 ^ e`. -/
theorem rounds_round (s : Sign) (m : ℕ) (e : ℤ) :
    Rounds f (sign s * (m * 2 ^ e)) (UnpackedFloat.round f s m e) := by
  rcases eq_or_ne m 0 with rfl | hm
  · have hzero : UnpackedFloat.round f s 0 e = .zero s := by
      simp only [UnpackedFloat.round, decreaseExponent, Nat.zero_shiftLeft, roundWithAccuracy_zero]
    rw [hzero, Nat.cast_zero, zero_mul, mul_zero]
    exact rounds_zero s
  · have htotal := totalExponent_decreaseExponent m e (f.targetExponent (totalExponent m e)) hm
    have hle := decreaseExponent_snd_le m e (f.targetExponent (totalExponent m e))
    have hvalue := decreaseExponent_value m e (f.targetExponent (totalExponent m e))
    rw [UnpackedFloat.round]
    generalize decreaseExponent m e (f.targetExponent (totalExponent m e)) = d at *
    have := rounds_roundWithAccuracy (f := f) s (m := d.1) (e := d.2) (a := .exact) (d := 0)
      (htotal ▸ hle) rfl
    rwa [add_zero, hvalue] at this

/-- Rounding `n · 2 ^ e` for an integer `n`. -/
theorem rounds_normalize (n : ℤ) (e : ℤ) (z : Sign) :
    Rounds f (n * 2 ^ e) (UnpackedFloat.normalize f n e z) := by
  rw [UnpackedFloat.normalize]
  rcases lt_trichotomy n 0 with hn | rfl | hn
  · rw [compare_lt_iff_lt.2 hn]
    have := rounds_round (f := f) .negative (-n).toNat e
    have hcast : (((-n).toNat : ℕ) : ℚ) = -n := by
      exact_mod_cast Int.toNat_of_nonneg (show 0 ≤ -n by omega)
    rwa [hcast, sign, neg_one_mul, neg_mul, neg_neg] at this
  · simpa using rounds_zero (f := f) z
  · rw [compare_gt_iff_gt.2 hn]
    have := rounds_round (f := f) .positive n.toNat e
    have hcast : ((n.toNat : ℕ) : ℚ) = n := by
      exact_mod_cast Int.toNat_of_nonneg hn.le
    rwa [hcast, sign, one_mul] at this

/-! ## Sums and differences -/

theorem value_neg (u : UnpackedFloat) : value u.neg = -value u := by
  cases u with
  | finite s m e hm => rw [UnpackedFloat.neg, value, value, sign_neg, neg_mul]
  | _ => exact neg_zero.symm

theorem isFinite_neg {u : UnpackedFloat} (hu : u.isFinite = true) : u.neg.isFinite = true := by
  cases u <;> first | rfl | exact hu

theorem canonical_neg {u : UnpackedFloat} (hc : Canonical f u) : Canonical f u.neg := by
  cases u <;> trivial

theorem value_abs (u : UnpackedFloat) : value u.abs = |value u| := by
  cases u with
  | finite s m e hm =>
    rw [abs_value_finite, UnpackedFloat.abs, value, sign, one_mul]
  | _ => exact abs_zero.symm

theorem isFinite_abs {u : UnpackedFloat} (hu : u.isFinite = true) : u.abs.isFinite = true := by
  cases u <;> first | rfl | exact hu

theorem canonical_abs {u : UnpackedFloat} (hc : Canonical f u) : Canonical f u.abs := by
  cases u <;> trivial

theorem apply_cast (s : Sign) (n : ℤ) : ((s.apply n : ℤ) : ℚ) = sign s * n := by
  cases s <;> simp [Sign.apply, sign]

/-- A finite number over a smaller exponent. -/
theorem apply_decreaseExponent (s : Sign) (m : ℕ) {e t : ℤ} (h : t ≤ e) :
    ((s.apply (decreaseExponent m e t).1 : ℤ) : ℚ) * 2 ^ t = sign s * (m * 2 ^ e) := by
  have := decreaseExponent_value m e t
  rw [decreaseExponent_snd_of_le m h] at this
  rw [apply_cast, mul_assoc, ← this]
  rfl

theorem rounds_add {u v : UnpackedFloat} (hu : u.isFinite = true) (hv : v.isFinite = true)
    (hcu : Canonical f u) (hcv : Canonical f v) :
    Rounds f (value u + value v) (add f u v) := by
  cases u with
  | infinity s | notANumber => exact absurd hu Bool.false_ne_true
  | zero s =>
    cases v with
    | infinity t | notANumber => exact absurd hv Bool.false_ne_true
    | zero t =>
      simp only [add, value, add_zero]
      split <;> exact rounds_zero _
    | finite t n k hn =>
      have := rounds_self hv hcv
      rwa [← zero_add (value _)] at this
  | finite s m e hm =>
    cases v with
    | infinity t | notANumber => exact absurd hv Bool.false_ne_true
    | zero t =>
      have := rounds_self hu hcu
      rwa [← add_zero (value _)] at this
    | finite t n k hn =>
      have := rounds_normalize (f := f) (s.apply (decreaseExponent m e (min e k)).1
        + t.apply (decreaseExponent n k (min e k)).1) (min e k) .positive
      rwa [Int.cast_add, add_mul, apply_decreaseExponent s m (min_le_left e k),
        apply_decreaseExponent t n (min_le_right e k)] at this

theorem rounds_sub {u v : UnpackedFloat} (hu : u.isFinite = true) (hv : v.isFinite = true)
    (hcu : Canonical f u) (hcv : Canonical f v) :
    Rounds f (value u - value v) (sub f u v) := by
  cases u with
  | infinity s | notANumber => exact absurd hu Bool.false_ne_true
  | zero s =>
    cases v with
    | infinity t | notANumber => exact absurd hv Bool.false_ne_true
    | zero t =>
      simp only [sub, value, sub_zero]
      split <;> exact rounds_zero _
    | finite t n k hn =>
      have := rounds_self (isFinite_neg hv) (canonical_neg hcv)
      rwa [value_neg, ← zero_sub (value _)] at this
  | finite s m e hm =>
    cases v with
    | infinity t | notANumber => exact absurd hv Bool.false_ne_true
    | zero t =>
      have := rounds_self hu hcu
      rwa [← sub_zero (value _)] at this
    | finite t n k hn =>
      have := rounds_normalize (f := f) (s.apply (decreaseExponent m e (min e k)).1
        - t.apply (decreaseExponent n k (min e k)).1) (min e k) .positive
      rwa [Int.cast_sub, sub_mul, apply_decreaseExponent s m (min_le_left e k),
        apply_decreaseExponent t n (min_le_right e k)] at this

/-! ## Products and quotients -/

theorem minExponent_nonpos (f : Float.Model.Format) : f.minExponent ≤ 0 := by
  have := f.hm
  have := Int.natCast_nonneg f.exponentBias
  rw [minExponent_eq]
  omega

/-- A full mantissa, or a small exponent, need no further digits. -/
theorem le_targetExponent {m : ℕ} {e : ℤ}
    (h : 2 ^ f.mantissaBitsWithoutImplicit ≤ m ∨ e ≤ f.minExponent) :
    e ≤ f.targetExponent (totalExponent m e) := by
  rcases h with h | h
  · have hm : m ≠ 0 := by have := Nat.two_pow_pos f.mantissaBitsWithoutImplicit; omega
    have := (Nat.le_log2 hm).2 h
    simp only [Float.Model.Format.targetExponent, Float.Model.Format.mantissaBits, totalExponent]
    omega
  · exact h.trans (le_max_right _ _)

theorem rounds_mul_finite {s t : Sign} {m n : ℕ} {e k : ℤ} (hm : 0 < m) (hn : 0 < n)
    (h : 2 ^ f.mantissaBitsWithoutImplicit ≤ m * n ∨ e + k ≤ f.minExponent) :
    Rounds f (value (.finite s m e hm) * value (.finite t n k hn))
      (mul f (.finite s m e hm) (.finite t n k hn)) := by
  have := rounds_roundWithAccuracy (s * t) (a := .exact) (d := 0) (le_targetExponent h) rfl
  have hvalue : sign (s * t) * (((m * n : ℕ) + 0) * 2 ^ (e + k))
      = sign s * (m * 2 ^ e) * (sign t * (n * 2 ^ k)) := by
    rw [sign_mul_sign, zpow_add₀ two_ne_zero]
    push_cast
    ring
  rwa [hvalue] at this

theorem rounds_mul {u v : UnpackedFloat} (hu : u.isFinite = true) (hv : v.isFinite = true)
    (hcu : Canonical f u) (hcv : Canonical f v) :
    Rounds f (value u * value v) (mul f u v) := by
  cases u with
  | infinity s | notANumber => exact absurd hu Bool.false_ne_true
  | zero s =>
    cases v with
    | infinity t | notANumber => exact absurd hv Bool.false_ne_true
    | zero t | finite t n k hn =>
      rw [value_zero, zero_mul]
      exact rounds_zero _
  | finite s m e hm =>
    cases v with
    | infinity t | notANumber => exact absurd hv Bool.false_ne_true
    | zero t =>
      rw [value_zero, mul_zero]
      exact rounds_zero _
    | finite t n k hn =>
      refine rounds_mul_finite hm hn ?_
      obtain ⟨-, he, hfull⟩ := hcu
      obtain ⟨-, hk, hfull'⟩ := hcv
      have := minExponent_nonpos f
      rcases hfull with hfull | rfl
      · exact .inl (hfull.trans (Nat.le_mul_of_pos_right _ hn))
      · rcases hfull' with hfull' | rfl
        · exact .inl (hfull'.trans (Nat.le_mul_of_pos_left _ hm))
        · exact .inr (by omega)

theorem describes_accuracyOfFraction {a b : ℕ} (h : a < b) :
    Describes (accuracyOfFraction a b) (a / b) := by
  have hb : (0 : ℚ) < b := by exact_mod_cast Nat.zero_lt_of_lt h
  have ha : (a : ℚ) < b := by exact_mod_cast h
  rw [accuracyOfFraction]
  split
  · next hzero => rw [hzero, Nat.cast_zero, zero_div, Describes]
  · next hne =>
    have hpos : (0 : ℚ) < a := by exact_mod_cast Nat.pos_of_ne_zero hne
    rcases lt_trichotomy (2 * a) b with hlt | heq | hgt
    · have hlt : (2 * a : ℚ) < b := by exact_mod_cast hlt
      rw [compare_lt_iff_lt.2 ‹_›, Describes, div_lt_div_iff₀ hb two_pos]
      exact ⟨div_pos hpos hb, by linarith⟩
    · have heq : (2 * a : ℚ) = b := by exact_mod_cast heq
      rw [compare_eq_iff_eq.2 ‹_›, Describes, div_eq_div_iff hb.ne' two_ne_zero]
      linarith
    · have hgt : (b : ℚ) < 2 * a := by exact_mod_cast hgt
      rw [compare_gt_iff_gt.2 ‹_›, Describes, div_lt_div_iff₀ two_pos hb, div_lt_one hb]
      exact ⟨by linarith, ha⟩

/-- A quotient at an exponent that is small enough for its size has a full mantissa. -/
theorem full_quotient {m n p : ℕ} (hm : m ≠ 0) (hn : 0 < n)
    (h : f.mantissaBits + n.log2 ≤ m.log2 + p) :
    2 ^ f.mantissaBitsWithoutImplicit ≤ m * 2 ^ p / n := by
  rw [Float.Model.Format.mantissaBits] at h
  rw [Nat.le_div_iff_mul_le hn]
  calc 2 ^ f.mantissaBitsWithoutImplicit * n
      ≤ 2 ^ f.mantissaBitsWithoutImplicit * 2 ^ (n.log2 + 1) :=
        Nat.mul_le_mul_left _ Nat.lt_log2_self.le
    _ = 2 ^ (f.mantissaBitsWithoutImplicit + (n.log2 + 1)) := (pow_add _ _ _).symm
    _ ≤ 2 ^ (m.log2 + p) := Nat.pow_le_pow_right two_pos (by omega)
    _ = 2 ^ m.log2 * 2 ^ p := pow_add _ _ _
    _ ≤ m * 2 ^ p := Nat.mul_le_mul_right _ (Nat.log2_self_le hm)

/-- Quotient and remainder together. -/
theorem quotient_add_fraction (m : ℕ) {n : ℕ} (hn : 0 < n) :
    ((m / n : ℕ) : ℚ) + ((m % n : ℕ) : ℚ) / n = m / n := by
  have hn' : (n : ℚ) ≠ 0 := by exact_mod_cast hn.ne'
  have hdiv : (n : ℚ) * (m / n : ℕ) + (m % n : ℕ) = m := by exact_mod_cast Nat.div_add_mod m n
  rw [← hdiv]
  field_simp

theorem rounds_div {u v : UnpackedFloat} (hu : u.isFinite = true) (hv : v.isFinite = true)
    (hne : value v ≠ 0) : Rounds f (value u / value v) (div f u v) := by
  cases v with
  | infinity t | notANumber => exact absurd hv Bool.false_ne_true
  | zero t => exact absurd rfl hne
  | finite t n k hn =>
    cases u with
    | infinity s | notANumber => exact absurd hu Bool.false_ne_true
    | zero s =>
      rw [value_zero, zero_div]
      exact rounds_zero _
    | finite s m e hm =>
      simp only [div, divCore, Nat.shiftLeft_eq]
      generalize htarget : f.targetExponent (totalExponent m e - totalExponent n k) = j
      generalize hshift : (e - k - min (e - k) j).toNat = p
      have hsmall : min (e - k) j = e - k - p := by omega
      have hfull : 2 ^ f.mantissaBitsWithoutImplicit ≤ m * 2 ^ p / n
          ∨ e - k - p ≤ f.minExponent := by
        refine or_iff_not_imp_right.2 fun hlt => full_quotient hm.ne' hn ?_
        rw [Float.Model.Format.targetExponent] at htarget
        simp only [totalExponent] at htarget
        omega
      have := rounds_roundWithAccuracy (s / t) (le_targetExponent hfull)
        (describes_accuracyOfFraction (Nat.mod_lt (m * 2 ^ p) hn))
      have hvalue : sign (s / t) * (((m * 2 ^ p : ℕ) : ℚ) / n * 2 ^ (e - k - p))
          = value (.finite s m e hm) / value (.finite t n k hn) := by
        have := sign_ne_zero t
        have := two_zpow_pos k
        rw [sign_div_sign, value, value, zpow_sub₀ two_ne_zero, zpow_sub₀ two_ne_zero, zpow_natCast]
        push_cast
        field_simp
      rwa [quotient_add_fraction _ hn, hvalue, ← hsmall] at this

/-! ## Comparison -/

/-- Numbers with canonical magnitudes compare by their exponents first. -/
theorem compare_magnitude {m n : ℕ} {e k : ℤ} (hm : 0 < m) (hn : 0 < n)
    (hcm : Canonical f (.finite .positive m e hm)) (hcn : Canonical f (.finite .positive n k hn)) :
    (compare e k).then (compare m n) = compare ((m : ℚ) * 2 ^ e) (n * 2 ^ k) := by
  -- a larger exponent goes with a full mantissa, which outweighs every mantissa before it
  have key {m n : ℕ} {e k : ℤ} (hm : m < 2 ^ f.mantissaBits)
      (hn : 2 ^ f.mantissaBitsWithoutImplicit ≤ n) (h : e < k) :
      (m : ℚ) * 2 ^ e < n * 2 ^ k := by
    have hm : (m : ℚ) < 2 ^ f.mantissaBits := by exact_mod_cast hm
    have hn : (2 : ℚ) ^ f.mantissaBitsWithoutImplicit ≤ n := by exact_mod_cast hn
    calc (m : ℚ) * 2 ^ e < 2 ^ f.mantissaBits * 2 ^ e :=
          mul_lt_mul_of_pos_right hm (two_zpow_pos e)
      _ = 2 ^ f.mantissaBitsWithoutImplicit * 2 ^ (e + 1) := by
          rw [Float.Model.Format.mantissaBits, pow_add, zpow_add₀ two_ne_zero]
          ring
      _ ≤ n * 2 ^ k := mul_le_mul hn (zpow_le_zpow_right₀ one_le_two (by omega))
          (two_zpow_pos _).le (by positivity)
  obtain ⟨hm₀, hm₁, hm₂⟩ := hcm
  obtain ⟨hn₀, hn₁, hn₂⟩ := hcn
  rcases lt_trichotomy e k with hlt | rfl | hgt
  · rw [compare_lt_iff_lt.2 hlt, compare_lt_iff_lt.2 (key hm₀ (hn₂.resolve_right (by omega)) hlt)]
    rfl
  · rw [compare_eq_iff_eq.2 rfl, Ordering.eq_then]
    have hpos := two_zpow_pos e
    rcases lt_trichotomy m n with h | rfl | h
    · rw [compare_lt_iff_lt.2 h, eq_comm, compare_lt_iff_lt]
      exact mul_lt_mul_of_pos_right (by exact_mod_cast h) hpos
    · rw [compare_eq_iff_eq.2 rfl, compare_eq_iff_eq.2 rfl]
    · rw [compare_gt_iff_gt.2 h, eq_comm, compare_gt_iff_gt]
      exact mul_lt_mul_of_pos_right (by exact_mod_cast h) hpos
  · rw [compare_gt_iff_gt.2 hgt, compare_gt_iff_gt.2 (key hn₀ (hm₂.resolve_right (by omega)) hgt)]
    rfl

/-- Finite canonical numbers compare as their values do. -/
theorem compare_eq {u v : UnpackedFloat} (hu : u.isFinite = true) (hv : v.isFinite = true)
    (hcu : Canonical f u) (hcv : Canonical f v) :
    u.compare v = some (compare (value u) (value v)) := by
  have hpos {m : ℕ} (e : ℤ) (hm : 0 < m) : (0 : ℚ) < m * 2 ^ e :=
    mul_pos (by exact_mod_cast hm) (two_zpow_pos e)
  cases u with
  | infinity s | notANumber => exact absurd hu Bool.false_ne_true
  | zero s =>
    cases v with
    | infinity t | notANumber => exact absurd hv Bool.false_ne_true
    | zero t => exact congrArg some (compare_eq_iff_eq.2 rfl).symm
    | finite t n k hn =>
      have hn' := hpos k hn
      cases t with
      | positive =>
        refine congrArg some (compare_lt_iff_lt.2 ?_).symm
        rw [value_zero, value, sign, one_mul]
        exact hn'
      | negative =>
        refine congrArg some (compare_gt_iff_gt.2 ?_).symm
        rw [value_zero, value, sign, neg_one_mul]
        linarith
  | finite s m e hm =>
    have hm' := hpos e hm
    cases v with
    | infinity t | notANumber => exact absurd hv Bool.false_ne_true
    | zero t =>
      cases s with
      | positive =>
        refine congrArg some (compare_gt_iff_gt.2 ?_).symm
        rw [value_zero, value, sign, one_mul]
        exact hm'
      | negative =>
        refine congrArg some (compare_lt_iff_lt.2 ?_).symm
        rw [value_zero, value, sign, neg_one_mul]
        linarith
    | finite t n k hn =>
      have hn' := hpos k hn
      have hmagnitude := compare_magnitude (f := f) hm hn hcu hcv
      cases s <;> cases t <;>
        simp only [UnpackedFloat.compare, value, sign, one_mul, neg_one_mul, hmagnitude]
      · refine congrArg some ?_
        rcases lt_trichotomy ((m : ℚ) * 2 ^ e) (n * 2 ^ k) with h | h | h
        · rw [compare_lt_iff_lt.2 h, compare_gt_iff_gt.2 (neg_lt_neg h)]
          rfl
        · rw [compare_eq_iff_eq.2 h, compare_eq_iff_eq.2 (congrArg Neg.neg h)]
          rfl
        · rw [compare_gt_iff_gt.2 h, compare_lt_iff_lt.2 (neg_lt_neg h)]
          rfl
      · exact congrArg some (compare_lt_iff_lt.2 (by linarith)).symm
      · exact congrArg some (compare_gt_iff_gt.2 (by linarith)).symm

/-! ## Decimals -/

/-- Rounding `m · 10 ^ e`, unless the exponent is so large or so small that the result is settled
without it. -/
theorem rounds_ofScientific {m : ℕ} {e : ℤ} (h₀ : -((2 ^ f.exponentBits : ℤ) + m.log2) ≤ e)
    (h₁ : e ≤ 2 ^ f.exponentBits) : Rounds f (m * 10 ^ e) (ofScientific f m e) := by
  rw [ofScientific]
  split
  · next hm =>
    rw [hm, Nat.cast_zero, zero_mul]
    exact rounds_zero _
  · next hm =>
    rw [if_neg (not_lt.2 h₁), if_neg (not_lt.2 h₀)]
    have hm := Nat.pos_of_ne_zero hm
    split
    · next he =>
      have hshift : 0 < m <<< f.mantissaBits := by rw [Nat.shiftLeft_eq]; positivity
      have hpow : 0 < 10 ^ e.toNat := by positivity
      have hfull : 2 ^ f.mantissaBitsWithoutImplicit ≤ m <<< f.mantissaBits * 10 ^ e.toNat := by
        rw [Nat.shiftLeft_eq]
        calc 2 ^ f.mantissaBitsWithoutImplicit ≤ 2 ^ f.mantissaBits :=
              Nat.pow_le_pow_right two_pos (Nat.le_add_left _ _)
          _ ≤ m * 2 ^ f.mantissaBits := Nat.le_mul_of_pos_left _ hm
          _ ≤ m * 2 ^ f.mantissaBits * 10 ^ e.toNat := Nat.le_mul_of_pos_right _ hpow
      have := rounds_mul_finite (s := .positive) (t := .positive) (e := -f.mantissaBits) (k := 0)
        hshift hpow (.inl hfull)
      have hvalue : value (.finite .positive (m <<< f.mantissaBits) (-f.mantissaBits) hshift)
          * value (.finite .positive (10 ^ e.toNat) 0 hpow) = m * 10 ^ e := by
        rw [value, value, sign, one_mul, one_mul, Nat.shiftLeft_eq, zpow_neg, zpow_natCast,
          zpow_zero, mul_one, ← Int.toNat_of_nonneg he, Int.toNat_natCast, zpow_natCast]
        push_cast
        field_simp
      rwa [hvalue] at this
    · next he =>
      have hpow : 0 < 10 ^ (-e).toNat := by positivity
      have hvalue : value (.finite .positive m 0 hm)
          / value (.finite .positive (10 ^ (-e).toNat) 0 hpow) = m * 10 ^ e := by
        have : ((-e).toNat : ℤ) = -e := Int.toNat_of_nonneg (by omega)
        rw [value, value, sign, one_mul, one_mul, zpow_zero, mul_one, mul_one, div_eq_mul_inv]
        push_cast
        rw [← zpow_natCast, this, zpow_neg, inv_inv]
      have := rounds_div (f := f) (u := .finite .positive m 0 hm)
        (v := .finite .positive (10 ^ (-e).toNat) 0 hpow) rfl rfl (by
          rw [value, sign, one_mul, zpow_zero, mul_one]
          exact_mod_cast hpow.ne')
      rwa [hvalue] at this

end VectorGraphics.Rounding
