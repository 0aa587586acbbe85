import VectorGraphics.Proofs.Number.Errors
import VectorGraphics.Proofs.Number.FewestDigits
import VectorGraphics.Proofs.Number.Literal

/-!
# The rationals that literals denote

A plain literal `Denotes` one rational: its digits over a power of ten. What `Decimal.positional`
and `Double.intText` write denotes the number that is written. The fewest digits of a double denote
a number that is nearer to it than the next double (`Double.denotes_of_shortest?`), and all places
denote the double rounded to them (`Double.exists_denotes_trimmed_fixed`). A literal is read as the
single nearest to what it denotes (`Decimal.Denotes.exists_nearest`).
-/

namespace VectorGraphics

open Float.Model.UnpackedFloat
open Rounding (sign Available two_zpow_pos rounds_ofScientific Rounds)

namespace Decimal

/-- The text is a plain literal with at most `n` digits after its point, and stands for `q`. -/
def Denotes (n : ℕ) (cs : List Char) (q : ℚ) : Prop :=
  ∃ s whole fraction, IsDigits whole ∧ IsFraction fraction ∧ fraction.tail.length ≤ n
    ∧ cs = signText s ++ (whole ++ fraction)
    ∧ q = sign s * (natOfDigits (whole ++ fraction.tail) / 10 ^ fraction.tail.length)

theorem Denotes.mono {m n : ℕ} {cs : List Char} {q : ℚ} (h : Denotes m cs q) (hmn : m ≤ n) :
    Denotes n cs q := by
  obtain ⟨s, whole, fraction, hw, hf, hlength, htext, hvalue⟩ := h
  exact ⟨s, whole, fraction, hw, hf, hlength.trans hmn, htext, hvalue⟩

/-- The text says which number it stands for. -/
theorem Denotes.unique {m n : ℕ} {cs : List Char} {p q : ℚ} (hp : Denotes m cs p)
    (hq : Denotes n cs q) : p = q := by
  obtain ⟨s, whole, fraction, hw, hf, -, rfl, rfl⟩ := hp
  obtain ⟨t, whole', fraction', hw', hf', -, htext, rfl⟩ := hq
  have hhead {l l' : List Char} (hl : IsDigits l) : '-' :: l' ≠ l ++ fraction
      ∧ '-' :: l' ≠ l ++ fraction' := by
    obtain ⟨hne, hdigit⟩ := hl
    cases l with
    | nil => exact absurd rfl hne
    | cons c cs =>
      have hc : c ≠ '-' := by
        rintro rfl
        exact absurd (hdigit '-' List.mem_cons_self) (by decide)
      exact ⟨fun h => hc (List.cons.inj h).1.symm, fun h => hc (List.cons.inj h).1.symm⟩
  have hmagnitude (h : whole ++ fraction = whole' ++ fraction') :
      (natOfDigits (whole ++ fraction.tail) / 10 ^ fraction.tail.length : ℚ)
        = natOfDigits (whole' ++ fraction'.tail) / 10 ^ fraction'.tail.length := by
    have hread := ofLiteral?_append hw hf
    rw [h, ofLiteral?_append hw' hf', Option.some_inj, Decimal.mk.injEq] at hread
    have hlength : fraction.tail.length = fraction'.tail.length := by omega
    rw [hread.1, hlength]
  cases s <;> cases t
  · rw [hmagnitude (List.append_cancel_left htext)]
  · exact absurd htext (hhead hw').2
  · exact absurd htext.symm (hhead hw).1
  · rw [hmagnitude htext]

/-! ## Digits -/

/-- A number has no more digits than its size says. -/
theorem pow_length_digitsOfNat_le {n : ℕ} (hn : n ≠ 0) : 10 ^ (digitsOfNat n).length ≤ 10 * n := by
  obtain ⟨k, hk⟩ : ∃ k, (digitsOfNat n).length = k + 1 :=
    Nat.exists_eq_succ_of_ne_zero fun h => (isDigits_digitsOfNat n).1 (List.length_eq_zero_iff.1 h)
  rw [hk, pow_succ, mul_comm]
  refine Nat.mul_le_mul_left 10 (not_lt.1 fun hlt => ?_)
  obtain rfl | hpos := Nat.eq_zero_or_pos k
  · omega
  · have := Nat.toDigits_length 10 n k hpos hlt
    rw [digitsOfNat] at hk
    omega

/-! ## Writing -/

theorem denotes_intText (n : ℤ) : Denotes 0 (Double.intText n) n := by
  have hdigits := isDigits_digitsOfNat n.natAbs
  rw [Double.intText]
  split
  · next hneg =>
    refine ⟨.negative, _, [], hdigits, .inl rfl, le_rfl, by simp [signText], ?_⟩
    have hn : (n.natAbs : ℚ) = -n := by
      rw [Nat.cast_natAbs, abs_of_neg hneg, Int.cast_neg]
    simp [sign, natOfDigits_digitsOfNat, hn]
  · next hnonneg =>
    refine ⟨.positive, _, [], hdigits, .inl rfl, le_rfl, by simp [signText], ?_⟩
    have hn : (n.natAbs : ℚ) = n := by
      rw [Nat.cast_natAbs, abs_of_nonneg (not_lt.1 hnonneg)]
    simp [sign, natOfDigits_digitsOfNat, hn]

theorem denotes_pointed (s : Sign) (n : ℕ) {places : ℕ} (hp : places ≠ 0) :
    Denotes places (signText s ++ pointed n places) (sign s * (n / 10 ^ places)) := by
  obtain ⟨whole, fraction, hw, hf, hlength, hvalue, h⟩ := pointed_eq n hp
  refine ⟨s, whole, '.' :: fraction, hw, .inr ⟨fraction, hf, rfl⟩, hlength.le, by rw [h], ?_⟩
  rw [List.tail_cons, hvalue, hlength]

/-- The digits of a decimal with a fraction, with as many places as it has. -/
theorem denotes_positional_of_neg (s : Sign) {d : Decimal} (hd : d.exponent < 0) :
    Denotes (-d.exponent).toNat (signText s ++ d.positional) (sign s * d.value) := by
  obtain ⟨digits, exponent⟩ := d
  cases exponent with
  | ofNat k => exact absurd hd (Int.natCast_nonneg k).not_gt
  | negSucc k =>
    rw [value, zpow_negSucc, ← div_eq_mul_inv]
    exact denotes_pointed s digits (Nat.succ_ne_zero k)

/-- All digits, written without an exponent, and with a zero after the point if there is none. -/
theorem denotes_positional (s : Sign) (d : Decimal) :
    Denotes ((-d.exponent).toNat + 1)
      (signText s ++ if 0 ≤ d.exponent then d.positional ++ ['.', '0'] else d.positional)
      (sign s * d.value) := by
  by_cases hd : 0 ≤ d.exponent
  · obtain ⟨k, hk⟩ := Int.eq_ofNat_of_zero_le hd
    rw [if_pos hd, positional, value, hk]
    refine ⟨s, _, ['.', '0'], isDigits_digitsOfNat (d.digits * 10 ^ k),
      .inr ⟨['0'], by simp [IsDigits], rfl⟩, Nat.le_add_left 1 _, rfl, ?_⟩
    rw [List.tail_cons, natOfDigits_append_singleton, natOfDigits_digitsOfNat]
    push_cast
    simp
  · rw [if_neg hd]
    exact (denotes_positional_of_neg s (not_le.1 hd)).mono (Nat.le_succ _)

end Decimal

/-! ## Reading -/

namespace Single

/-- The negative of a rounding is the rounding of the negative. -/
theorem rounds_neg {x : Single} {q : ℚ} (h : Rounds .binary32 q x.toModel.unpack) :
    Rounds .binary32 (-q) (-x).toModel.unpack := by
  have hneg : (-x).Is (-x.value) := (is_value h.isFinite).neg
  refine ⟨hneg.isFinite, hneg.canonical, fun y hy => ?_⟩
  rw [Rounding.Is.value_eq hneg]
  calc |-x.value - -q| = |x.value - q| := by rw [neg_sub_neg, abs_sub_comm]
    _ ≤ |-y - q| := h.nearest (-y) hy.neg
    _ = |y - -q| := by rw [← neg_add', abs_neg, sub_neg_eq_add]

/-- A decimal of moderate size and exponent is rounded once. -/
theorem rounds_toSingle {d : Decimal} (he : -256 ≤ d.exponent) (he' : d.exponent ≤ 256)
    (hd : |d.value| ≤ 2 ^ 64) : Rounds .binary32 d.value d.toSingle.toModel.unpack := by
  have hrounds : Rounds .binary32 d.value (ofScientific .binary32 d.digits d.exponent) :=
    rounds_ofScientific (le_trans (by simp) he) he'
  have hbound : Available .binary32 (2 ^ (64 : ℤ)) :=
    Rounding.available_two_zpow (by decide) (by decide)
  obtain ⟨hlow, hhigh⟩ := abs_le.1 hd
  obtain ⟨r, hr, -⟩ := hrounds.exists_is_repack (by decide) hbound.neg hbound hlow hhigh
  have hunpack : d.toSingle.toModel.unpack = ofScientific .binary32 d.digits d.exponent :=
    Rounding.repack_eq hrounds.canonical hr.isFinite
  rwa [hunpack]

end Single

namespace Decimal.Denotes

variable {n : ℕ} {cs : List Char} {q : ℚ}

/-- A literal is read as the single nearest to what it denotes. -/
theorem exists_nearest (h : Denotes n cs q) (hn : n ≤ 256) (hq : |q| ≤ 2 ^ 64) :
    ∃ x : Single, Single.ofLiteral? cs = some x ∧ Rounds .binary32 q x.toModel.unpack := by
  obtain ⟨s, whole, fraction, hw, hf, hlength, rfl, rfl⟩ := h
  have hread := Single.ofUnsigned?_append hw hf
  set d : Decimal := ⟨natOfDigits (whole ++ fraction.tail), -(fraction.tail.length : ℤ)⟩ with hd
  have hvalue :
      (natOfDigits (whole ++ fraction.tail) / 10 ^ fraction.tail.length : ℚ) = d.value := by
    rw [Decimal.value, hd, zpow_neg, zpow_natCast, div_eq_mul_inv]
  rw [hvalue] at hq ⊢
  rw [Rounding.abs_sign_mul] at hq
  have hexponent : -256 ≤ d.exponent ∧ d.exponent ≤ 256 := by
    rw [hd]
    constructor <;> dsimp only <;> omega
  have hrounds := Single.rounds_toSingle hexponent.1 hexponent.2 hq
  cases s with
  | positive =>
    have hplain :
        Single.ofLiteral? (whole ++ fraction) = Single.ofUnsigned? (whole ++ fraction) := by
      cases whole with
      | nil => exact absurd rfl hw.1
      | cons c cs => exact Single.ofLiteral?_of_isDigit (hw.2 c List.mem_cons_self)
    refine ⟨d.toSingle, hplain.trans hread, ?_⟩
    rwa [sign, one_mul]
  | negative =>
    refine ⟨-d.toSingle, congrArg (Option.map (-·)) hread, ?_⟩
    rw [sign, neg_one_mul]
    exact Single.rounds_neg hrounds

/-- What a literal is read as is off by at most one rounding. -/
theorem exists_ofLiteral? (h : Denotes n cs q) (hn : n ≤ 256) (hq : |q| ≤ 2 ^ 64) :
    ∃ x : Single, Single.ofLiteral? cs = some x ∧ x.isFinite = true
      ∧ |(x.value : ℝ) - q| ≤ roundoff q := by
  obtain ⟨x, hx, hrounds⟩ := h.exists_nearest hn hq
  exact ⟨x, hx, hrounds.isFinite, hrounds.nearest_real.abs_sub_le⟩

end Decimal.Denotes

/-! ## The fewest digits -/

/-- A decimal whose point falls among its digits or near them is not tiny. -/
theorem Decimal.le_value_of_point {d : Decimal} (hd : 0 < d.value)
    (hpoint : -5 < ((digitsOfNat d.digits).length : ℤ) + d.exponent) :
    (10 : ℚ) ^ (-5 : ℤ) ≤ d.value := by
  have hpos : (0 : ℚ) < 10 ^ d.exponent := by positivity
  have hne : d.digits ≠ 0 := by
    intro hzero
    rw [value, hzero, Nat.cast_zero, zero_mul] at hd
    exact lt_irrefl 0 hd
  have hdigits : (10 : ℚ) ^ ((digitsOfNat d.digits).length : ℤ) ≤ 10 * d.digits := by
    exact_mod_cast pow_length_digitsOfNat_le hne
  have hle : (10 : ℚ) ^ (-4 : ℤ) ≤ 10 * d.value := by
    calc (10 : ℚ) ^ (-4 : ℤ) ≤ 10 ^ ((digitsOfNat d.digits).length + d.exponent : ℤ) :=
          zpow_le_zpow_right₀ (by norm_num) (by omega)
      _ = 10 ^ ((digitsOfNat d.digits).length : ℤ) * 10 ^ d.exponent := zpow_add₀ (by norm_num) _ _
      _ ≤ 10 * d.digits * 10 ^ d.exponent := mul_le_mul_of_nonneg_right hdigits hpos.le
      _ = 10 * d.value := mul_assoc _ _ _
  norm_num at hle ⊢
  linarith

namespace Double

variable {x : Double} {v : ℚ}

/-- A double that is neither tiny nor huge has a full mantissa and an exponent that is not
positive. -/
theorem Is.exists_mantissa (hx : x.Is v) (hlow : (2 : ℚ) ^ (-1022 : ℤ) ≤ |v|)
    (hhigh : |v| < 2 ^ 53) : ∃ s m e, ∃ hm : 0 < m, x.toModel.unpack = .finite s m e hm
      ∧ 2 ^ 52 ≤ m ∧ m < 2 ^ 53 ∧ -1074 ≤ e ∧ e ≤ 0 ∧ v = sign s * (m * 2 ^ e) := by
  obtain ⟨hfinite, hc, rfl⟩ := hx
  cases hu : x.toModel.unpack with
  | infinity s | notANumber =>
    rw [hu] at hfinite
    exact absurd hfinite Bool.false_ne_true
  | zero s =>
    rw [hu, Rounding.value_zero, abs_zero] at hlow
    exact absurd hlow (two_zpow_pos _).not_ge
  | finite s m e hm =>
    rw [hu] at hc hlow hhigh
    rw [Rounding.abs_value_finite] at hlow hhigh
    obtain ⟨hm', he, hfull⟩ := hc
    have hfull : 2 ^ 52 ≤ m := by
      obtain hfull | rfl := hfull
      · exact hfull
      · have hsplit : (2 : ℚ) ^ (-1022 : ℤ) = 2 ^ 52 * 2 ^ (-1074 : ℤ) := by
          rw [← zpow_natCast, ← zpow_add₀ two_ne_zero]
          rfl
        rw [hsplit] at hlow
        exact_mod_cast le_of_mul_le_mul_right hlow (two_zpow_pos _)
    refine ⟨s, m, e, hm, rfl, hfull, hm', he, ?_, rfl⟩
    by_contra he'
    have hfull : (2 : ℚ) ^ 52 ≤ m := by exact_mod_cast hfull
    have htwo : (2 : ℚ) ^ (1 : ℤ) ≤ 2 ^ e := zpow_le_zpow_right₀ one_le_two (by omega)
    refine absurd hhigh (not_lt.2 ?_)
    calc (2 : ℚ) ^ 53 = 2 ^ 52 * 2 ^ (1 : ℤ) := by norm_num
      _ ≤ (m : ℚ) * 2 ^ e := mul_le_mul hfull htwo (two_zpow_pos _).le (by positivity)

/-- The decimal with the fewest digits is within half a unit in the last place. -/
theorem abs_value_shortest_sub_le {m : ℕ} {e : ℤ} (hm : 2 ^ 52 ≤ m) (hm' : m < 2 ^ 53)
    (he : -1074 ≤ e) (he' : e ≤ 0) :
    |((RoundingInterval.ofBinary .binary64 m e).shortest .toEven).value - m * 2 ^ e|
      ≤ 2 ^ (-53 : ℤ) * (m * 2 ^ e) := by
  refine (RoundingInterval.abs_shortest_sub_le .toEven hm hm' he he').1.trans ?_
  have hfull : (2 : ℚ) ^ (52 : ℤ) ≤ m := by exact_mod_cast hm
  have hpos := two_zpow_pos e
  calc (2 : ℚ) ^ (e - 1) = 2 ^ (-53 : ℤ) * (2 ^ (52 : ℤ) * 2 ^ e) := by
        rw [← zpow_add₀ two_ne_zero, ← zpow_add₀ two_ne_zero]
        congr 1
        ring
    _ ≤ 2 ^ (-53 : ℤ) * (m * 2 ^ e) := by gcongr

/-- The decimal with the fewest digits is of the size of the double. -/
theorem value_shortest_bounds {m : ℕ} {e : ℤ} (hm : 2 ^ 52 ≤ m) (hm' : m < 2 ^ 53)
    (he : -1074 ≤ e) (he' : e ≤ 0) :
    m * 2 ^ e / 2 ≤ ((RoundingInterval.ofBinary .binary64 m e).shortest .toEven).value
      ∧ ((RoundingInterval.ofBinary .binary64 m e).shortest .toEven).value ≤ 2 * (m * 2 ^ e) := by
  have hpos : (0 : ℚ) ≤ m * 2 ^ e := by positivity
  have hsmall : (2 : ℚ) ^ (-53 : ℤ) * (m * 2 ^ e) ≤ m * 2 ^ e / 2 := by
    rw [div_eq_inv_mul]
    exact mul_le_mul_of_nonneg_right (by norm_num) hpos
  obtain ⟨hlow, hhigh⟩ :=
    abs_le.1 ((abs_value_shortest_sub_le hm hm' he he').trans hsmall)
  constructor <;> linarith

/-- The fewest digits, where they are written out, denote a number that is nearer to the double than
the next one, and the double is not tiny. -/
theorem denotes_of_shortest? (hx : x.Is v) (hlow : (2 : ℚ) ^ (-1022 : ℤ) ≤ |v|)
    (hhigh : |v| < 2 ^ 53) {cs : List Char} (h : x.shortest? = some cs) :
    ∃ w, Decimal.Denotes 35 cs w ∧ |w - v| ≤ 2 ^ (-53 : ℤ) * |v| ∧ 10 ^ (-6 : ℤ) ≤ |v| := by
  obtain ⟨s, m, e, hm, hu, hfull, hm', he, he', rfl⟩ := hx.exists_mantissa hlow hhigh
  have hpos : (0 : ℚ) < m * 2 ^ e := mul_pos (by exact_mod_cast hm) (two_zpow_pos e)
  have hnear := abs_value_shortest_sub_le hfull hm' he he'
  obtain ⟨hd₀, hd₁⟩ := value_shortest_bounds hfull hm' he he'
  obtain ⟨-, hexponent⟩ := RoundingInterval.abs_shortest_sub_le .toEven hfull hm' he he'
  rw [shortest?, hu] at h
  dsimp only at h
  set d := (RoundingInterval.ofBinary .binary64 m e).shortest .toEven
  obtain ⟨⟨hpoint, -⟩, h⟩ := Option.ite_none_right_eq_some.1 h
  obtain rfl := Option.some.inj h
  rw [Rounding.abs_sign_mul, abs_of_pos hpos]
  have hd := Decimal.le_value_of_point (d := d) (by linarith) hpoint
  have hvalue : (10 : ℚ) ^ (-6 : ℤ) ≤ m * 2 ^ e := by
    norm_num at hd ⊢
    linarith
  have hexponent' : -73 ≤ e := by
    have hlt : (2 : ℚ) ^ (-20 : ℤ) < 2 ^ (53 + e) := by
      calc (2 : ℚ) ^ (-20 : ℤ) ≤ 10 ^ (-6 : ℤ) := by norm_num
        _ ≤ m * 2 ^ e := hvalue
        _ < 2 ^ 53 * 2 ^ e :=
          mul_lt_mul_of_pos_right (by exact_mod_cast hm') (two_zpow_pos e)
        _ = 2 ^ (53 + e) := by
          rw [zpow_add₀ two_ne_zero]
          norm_num
    have := (zpow_lt_zpow_iff_right₀ (one_lt_two (α := ℚ))).1 hlt
    omega
  refine ⟨sign s * d.value, (Decimal.denotes_positional s d).mono (by omega), ?_, hvalue⟩
  rwa [← mul_sub, Rounding.abs_sign_mul]

end Double

/-! ## All places -/

/-- A quotient is rounded to a whole number within half a unit. -/
theorem abs_roundQuotientEven_sub_le (num : ℕ) {den : ℕ} (hden : 0 < den) :
    |(roundQuotientEven num den : ℚ) - num / den| ≤ 1 / 2 := by
  have hpos : (0 : ℚ) < den := by exact_mod_cast hden
  have hsplit : (num : ℚ) / den = (num / den : ℕ) + (num % den : ℕ) / den := by
    field_simp
    exact_mod_cast (Nat.div_add_mod num den).symm
  have hfraction : ((num % den : ℕ) / den : ℚ) < 1 := by
    rw [div_lt_one hpos]
    exact_mod_cast Nat.mod_lt num hden
  have hnonneg : (0 : ℚ) ≤ (num % den : ℕ) / den := by positivity
  rw [hsplit, roundQuotientEven, abs_le]
  split
  · next h =>
    have h : (2 * (num % den : ℕ) : ℚ) ≤ den := by exact_mod_cast (Nat.compare_eq_lt.1 h).le
    have : ((num % den : ℕ) / den : ℚ) ≤ 1 / 2 := by
      rw [div_le_iff₀ hpos]
      linarith
    constructor <;> linarith
  · next h =>
    have h : (den : ℚ) ≤ 2 * (num % den : ℕ) := by exact_mod_cast (Nat.compare_eq_gt.1 h).le
    have : (1 / 2 : ℚ) ≤ (num % den : ℕ) / den := by
      rw [le_div_iff₀ hpos]
      linarith
    push_cast
    constructor <;> linarith
  · next h =>
    have h : (2 * (num % den : ℕ) : ℚ) = den := by exact_mod_cast Nat.compare_eq_eq.1 h
    have : ((num % den : ℕ) / den : ℚ) = 1 / 2 := by
      rw [div_eq_iff hpos.ne']
      linarith
    split <;> push_cast <;> constructor <;> linarith

namespace Decimal

/-- Without the zeros at the end the digits denote the same number. -/
theorem denotes_trimmed_pointed (s : Sign) (n : ℕ) {places : ℕ} (hp : places ≠ 0) :
    Denotes places (Text.dropRightWhile (· == '.')
      (Text.dropRightWhile (· == '0') (signText s ++ pointed n places)))
      (sign s * (n / 10 ^ places)) := by
  obtain ⟨whole, digits, hw, hd, hlength, hvalue, hpointed⟩ := pointed_eq n hp
  obtain ⟨fraction, hf, hlength', hvalue', htrim⟩ := exists_trim (signText s) hw hd.2
  rw [hpointed, ← List.append_assoc, htrim, List.append_assoc]
  refine ⟨s, whole, fraction, hw, hf, hlength ▸ hlength', rfl, ?_⟩
  rw [hvalue, hlength] at hvalue'
  congr 1
  rw [div_eq_div_iff (by positivity) (by positivity)]
  exact_mod_cast hvalue'.symm

end Decimal

/-- All places, without the zeros at the end, denote the double rounded to them. -/
theorem Double.exists_denotes_trimmed_fixed {x : Double} {v : ℚ} (hx : x.Is v) {places : ℕ}
    (hp : places ≠ 0) : ∃ n : ℤ, Decimal.Denotes places (Text.dropRightWhile (· == '.')
      (Text.dropRightWhile (· == '0') (x.fixed places))) (n / 10 ^ places)
      ∧ |(n : ℚ) - v * 10 ^ places| ≤ 1 / 2 := by
  obtain ⟨hfinite, -, rfl⟩ := hx
  rw [fixed]
  cases hu : x.toModel.unpack with
  | infinity s | notANumber =>
    rw [hu] at hfinite
    exact absurd hfinite Bool.false_ne_true
  | zero s =>
    refine ⟨0, ?_, by norm_num⟩
    simpa using Decimal.denotes_trimmed_pointed s 0 hp
  | finite s m e hm =>
    have hquotient : ((m * 2 ^ e.toNat * 10 ^ places : ℕ) : ℚ) / (2 ^ (-e).toNat : ℕ)
        = m * 2 ^ e * 10 ^ places := by
      rw [div_eq_iff (by positivity)]
      push_cast
      rw [RoundingInterval.pow_toNat_eq (two_ne_zero (α := ℚ)) e]
      ring
    have hround := abs_roundQuotientEven_sub_le (m * 2 ^ e.toNat * 10 ^ places)
      (Nat.two_pow_pos (-e).toNat)
    rw [hquotient] at hround
    set n := roundQuotientEven (m * 2 ^ e.toNat * 10 ^ places) (2 ^ (-e).toNat)
    refine ⟨s.apply n, ?_, ?_⟩
    · rw [Rounding.apply_cast, mul_div_assoc]
      exact Decimal.denotes_trimmed_pointed s n hp
    · rwa [Rounding.apply_cast, Rounding.value, mul_assoc, ← mul_sub, Rounding.abs_sign_mul]

end VectorGraphics
