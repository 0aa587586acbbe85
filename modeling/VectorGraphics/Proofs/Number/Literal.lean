import Mathlib.Data.List.DropRight
import VectorGraphics.Number.Places
import VectorGraphics.Proofs.Number.Whole

/-!
# The text of a coordinate

A plain literal is a run of digits with an optional minus sign before it and an optional point with
more digits after it. The text of every finite coordinate is one, at every number of places
(`Single.isPlain_chars`), and every plain literal is read as a number (`Single.ofLiteral?_plain`).
A whole coordinate of moderate size is printed as the integer it is (`Single.chars_of_int`).
-/

namespace VectorGraphics

open Float.Model.UnpackedFloat
open Rounding (Available available_two_zpow two_zpow_pos overflow rounds_ofScientific)

/-! ## Plain literals -/

namespace Decimal

/-- A nonempty run of digits. -/
def IsDigits (cs : List Char) : Prop := cs ≠ [] ∧ ∀ c ∈ cs, c.isDigit = true

/-- Nothing, or a point and digits. -/
def IsFraction (cs : List Char) : Prop := cs = [] ∨ ∃ ds, IsDigits ds ∧ cs = '.' :: ds

/-- Digits with an optional fraction. -/
def IsUnsigned (cs : List Char) : Prop :=
  ∃ whole fraction, IsDigits whole ∧ IsFraction fraction ∧ cs = whole ++ fraction

/-- Digits with an optional minus sign and an optional fraction. -/
def IsPlain (cs : List Char) : Prop :=
  IsUnsigned cs ∨ ∃ ds, IsUnsigned ds ∧ cs = '-' :: ds

theorem IsDigits.isUnsigned {cs : List Char} (h : IsDigits cs) : IsUnsigned cs :=
  ⟨cs, [], h, .inl rfl, (List.append_nil cs).symm⟩

theorem IsUnsigned.isPlain {cs : List Char} (h : IsUnsigned cs) : IsPlain cs := .inl h

theorem isDigits_digitsOfNat (n : ℕ) : IsDigits (digitsOfNat n) :=
  ⟨Nat.toDigits_ne_nil, fun _ hc => Nat.isDigit_of_mem_toDigits (by decide) (by decide) hc⟩

/-- The digits of a natural number are read as that number. -/
theorem natOfDigits_digitsOfNat (n : ℕ) : natOfDigits (digitsOfNat n) = n :=
  Nat.ofDigitChars_eq_foldl.symm.trans (Nat.ofDigitChars_toDigits (by decide) (by decide))

theorem natOfDigits_append_singleton (cs : List Char) (c : Char) :
    natOfDigits (cs ++ [c]) = 10 * natOfDigits cs + (c.toNat - '0'.toNat) := by
  rw [natOfDigits, List.foldl_append]
  rfl

/-- Zeros in front count nothing. -/
theorem natOfDigits_replicate_append (n : ℕ) (cs : List Char) :
    natOfDigits (List.replicate n '0' ++ cs) = natOfDigits cs := by
  induction n with
  | zero => rfl
  | succ n ih => exact ih

/-- Digits with enough zeros in front have a digit on each side of the point. -/
theorem pointed_eq (n : ℕ) {places : ℕ} (hp : places ≠ 0) :
    ∃ whole fraction, IsDigits whole ∧ IsDigits fraction ∧ fraction.length = places
      ∧ natOfDigits (whole ++ fraction) = n ∧ pointed n places = whole ++ '.' :: fraction := by
  rw [pointed, if_neg hp]
  generalize hds : List.replicate (places + 1 - (digitsOfNat n).length) '0' ++ digitsOfNat n = ds
  have hdigit : ∀ c ∈ ds, c.isDigit = true := by
    intro c hc
    rw [← hds, List.mem_append] at hc
    rcases hc with hc | hc
    · rw [List.eq_of_mem_replicate hc]
      rfl
    · exact (isDigits_digitsOfNat n).2 c hc
  have hlength : places + 1 ≤ ds.length := by
    rw [← hds, List.length_append, List.length_replicate]
    omega
  refine ⟨_, _, ⟨?_, fun c hc => hdigit c (List.mem_of_mem_take hc)⟩,
    ⟨?_, fun c hc => hdigit c (List.mem_of_mem_drop hc)⟩, ?_, ?_, rfl⟩
  · rw [← List.length_pos_iff, List.length_take]
    omega
  · rw [← List.length_pos_iff, List.length_drop]
    omega
  · rw [List.length_drop]
    omega
  · rw [List.take_append_drop, ← hds, natOfDigits_replicate_append, natOfDigits_digitsOfNat]

theorem isUnsigned_positional (d : Decimal) : IsUnsigned d.positional := by
  rw [positional]
  split
  · exact (isDigits_digitsOfNat _).isUnsigned
  · next k _ =>
    obtain ⟨whole, fraction, hw, hf, -, -, h⟩ := pointed_eq d.digits (Nat.succ_ne_zero k)
    rw [h]
    exact ⟨whole, _, hw, .inr ⟨fraction, hf, rfl⟩, rfl⟩

theorem isPlain_signText (s : Sign) {cs : List Char} (h : IsUnsigned cs) :
    IsPlain (signText s ++ cs) := by
  cases s with
  | positive => exact .inl h
  | negative => exact .inr ⟨cs, h, rfl⟩

theorem isPlain_intText (n : ℤ) : IsPlain (Double.intText n) := by
  rw [Double.intText]
  split
  · exact .inr ⟨_, (isDigits_digitsOfNat _).isUnsigned, rfl⟩
  · exact (isDigits_digitsOfNat _).isUnsigned.isPlain

/-! ## Zeros at the end -/

/-- Dropping the zeros at the end of a fraction, and then its point, leaves the digits before and
the number that they stand for. -/
theorem exists_trim (front : List Char) {whole : List Char} (hw : IsDigits whole)
    {digits : List Char} (hd : ∀ c ∈ digits, c.isDigit = true) :
    ∃ fraction, IsFraction fraction ∧ fraction.tail.length ≤ digits.length
      ∧ natOfDigits (whole ++ fraction.tail) * 10 ^ digits.length
        = natOfDigits (whole ++ digits) * 10 ^ fraction.tail.length
      ∧ Text.dropRightWhile (· == '.')
          (Text.dropRightWhile (· == '0') (front ++ whole ++ '.' :: digits))
        = front ++ whole ++ fraction := by
  have keeps {p : Char → Bool} (l : List Char) {c : Char} (hc : p c = false) :
      Text.dropRightWhile p (l ++ [c]) = l ++ [c] :=
    List.rdropWhile_concat_neg p l c (by rw [hc]; exact Bool.false_ne_true)
  induction digits using List.reverseRecOn with
  | nil =>
    obtain ⟨ws, w, rfl⟩ : ∃ ws w, whole = ws ++ [w] :=
      ⟨_, _, (List.dropLast_append_getLast hw.1).symm⟩
    have hne : (w == '.') = false := by
      have := hw.2 w (by simp)
      rw [beq_eq_false_iff_ne]
      rintro rfl
      exact absurd this (by decide)
    refine ⟨[], .inl rfl, le_rfl, rfl, ?_⟩
    rw [keeps _ (by decide), List.append_nil, ← List.append_assoc]
    exact (List.rdropWhile_concat_pos _ _ _ rfl).trans (keeps _ hne)
  | append_singleton ds d ih =>
    have hds : ∀ c ∈ ds, c.isDigit = true := fun c hc => hd c (by simp [hc])
    have hlast : front ++ whole ++ '.' :: (ds ++ [d]) = front ++ whole ++ '.' :: ds ++ [d] := by
      simp
    rw [hlast]
    by_cases hzero : d = '0'
    · obtain ⟨fraction, hf, hlength, hvalue, h⟩ := ih hds
      refine ⟨fraction, hf, ?_, ?_, ?_⟩
      · rw [List.length_append]
        omega
      · rw [← List.append_assoc, natOfDigits_append_singleton, hzero, Nat.sub_self, Nat.add_zero,
          List.length_append, List.length_singleton, pow_succ, ← mul_assoc, hvalue]
        ring
      · rw [← h]
        exact congrArg _ (List.rdropWhile_concat_pos _ _ _ (by rw [hzero]; rfl))
    · have hne : (d == '.') = false := by
        have := hd d (by simp)
        rw [beq_eq_false_iff_ne]
        rintro rfl
        exact absurd this (by decide)
      refine ⟨'.' :: (ds ++ [d]), .inr ⟨ds ++ [d], ⟨by simp, hd⟩, rfl⟩, le_rfl, rfl, ?_⟩
      rw [keeps _ (by simpa using hzero), hlast]
      exact keeps _ hne

end Decimal

/-! ## The text of a number -/

namespace Double

variable {x : Double} {q : ℚ}

/-- The fewest digits that read back, where they are written without an exponent. -/
theorem isPlain_of_shortest? {cs : List Char} (h : x.shortest? = some cs) :
    Decimal.IsPlain cs := by
  rw [shortest?] at h
  split at h
  · next s m e _ _ =>
    simp only at h
    generalize (RoundingInterval.ofBinary .binary64 m e).shortest .toEven = d at h
    split at h
    · obtain rfl := Option.some.inj h
      refine Decimal.isPlain_signText s ?_
      split
      · next he =>
        obtain ⟨k, hk⟩ := Int.eq_ofNat_of_zero_le he
        rw [Decimal.positional, hk]
        exact ⟨_, _, Decimal.isDigits_digitsOfNat _, .inr ⟨['0'], by
          simp [Decimal.IsDigits], rfl⟩, rfl⟩
      · exact Decimal.isUnsigned_positional d
    · exact absurd h nofun
  · next s _ =>
    obtain rfl := Option.some.inj h
    exact Decimal.isPlain_signText s ⟨['0'], _, by simp [Decimal.IsDigits],
      .inr ⟨['0'], by simp [Decimal.IsDigits], rfl⟩, rfl⟩
  · exact absurd h nofun

/-- All places, without the zeros at the end. -/
theorem isPlain_trimmed_fixed (hx : x.Is q) {places : ℕ} (hp : places ≠ 0) :
    Decimal.IsPlain (Text.dropRightWhile (· == '.')
      (Text.dropRightWhile (· == '0') (x.fixed places))) := by
  have hfixed : ∃ s n, x.fixed places = signText s ++ Decimal.pointed n places := by
    rw [fixed]
    cases hcase : x.toModel.unpack with
    | infinity s | notANumber =>
      have := hx.isFinite
      rw [hcase] at this
      exact absurd this Bool.false_ne_true
    | zero s => exact ⟨s, 0, rfl⟩
    | finite s m e hm => exact ⟨s, _, rfl⟩
  obtain ⟨s, n, hfixed⟩ := hfixed
  obtain ⟨whole, digits, hw, hd, -, -, hpointed⟩ := Decimal.pointed_eq n hp
  obtain ⟨fraction, hf, -, -, htrim⟩ := Decimal.exists_trim (signText s) hw hd.2
  rw [hfixed, hpointed, ← List.append_assoc, htrim, List.append_assoc]
  exact Decimal.isPlain_signText s ⟨whole, fraction, hw, hf, rfl⟩

end Double

namespace Single

/-- The power of ten with the places of a coordinate for its exponent. -/
theorem exists_factor (places : UInt8) :
    ∃ v, (Double.pow 10 places.toNat).Is v ∧ 1 ≤ v ∧ v ≤ 2 ^ 892 :=
  Double.exists_pow_ten places.toNat_lt

/-- A coordinate times a power of ten is finite. -/
theorem exists_scaled {x : Single} (hx : x.isFinite = true) (places : UInt8) :
    ∃ r, (x.widen * Double.pow 10 places.toNat).Is r ∧ |r| ≤ 2 ^ 1020 := by
  obtain ⟨q, hq, havailable⟩ := exists_is hx
  obtain ⟨v, hv, hv₀, hv₁⟩ := exists_factor places
  have hbound := Double.available_two_pow (k := 1020) (by decide)
  have hq' : |q| ≤ 2 ^ 128 := havailable.abs_lt.le
  have hprod : |q * v| ≤ 2 ^ 1020 := by
    rw [abs_mul, abs_of_nonneg (by linarith : 0 ≤ v),
      show (2 : ℚ) ^ 1020 = 2 ^ 128 * 2 ^ 892 from pow_add 2 128 892]
    exact mul_le_mul hq' hv₁ (by linarith) (by positivity)
  obtain ⟨hlow, hhigh⟩ := abs_le.1 hprod
  obtain ⟨r, hr, hr₀, hr₁⟩ := hq.widen.exists_mul hv hbound.neg hbound hlow hhigh
  exact ⟨r, hr, abs_le.2 ⟨hr₀, hr₁⟩⟩

/-- Rounding to decimal places gives a finite number. -/
theorem exists_rounded {x : Single} (hx : x.isFinite = true) (places : UInt8) :
    ∃ q, Double.Is (Double.round (x.widen * Double.pow 10 places.toNat)
      / Double.pow 10 places.toNat) q := by
  obtain ⟨v, hv, hv₀, hv₁⟩ := exists_factor places
  obtain ⟨r, hr, hr'⟩ := exists_scaled hx places
  obtain ⟨n, hn, hn'⟩ := hr.exists_round
  have hbound := Double.available_two_pow (k := 1021) (by decide)
  have hquotient : |(n : ℚ) / v| ≤ 2 ^ 1021 := by
    have hn₁ : |(n : ℚ)| ≤ 2 ^ 1020 + 1 / 2 := by
      calc |(n : ℚ)| = |r + (n - r)| := by rw [add_sub_cancel]
        _ ≤ |r| + |n - r| := abs_add_le _ _
        _ ≤ 2 ^ 1020 + 1 / 2 := add_le_add hr' hn'
    rw [abs_div, abs_of_nonneg (by linarith : 0 ≤ v)]
    calc |(n : ℚ)| / v ≤ |(n : ℚ)| := div_le_self (abs_nonneg _) hv₀
      _ ≤ 2 ^ 1020 + 1 / 2 := hn₁
      _ ≤ 2 ^ 1020 + 2 ^ 1020 :=
        add_le_add le_rfl ((by norm_num : (1 / 2 : ℚ) ≤ 1).trans (one_le_pow₀ one_le_two))
      _ = 2 ^ 1021 := by rw [pow_succ 2 1020, mul_two]
  obtain ⟨hlow, hhigh⟩ := abs_le.1 hquotient
  obtain ⟨q, hq, -⟩ := hn.exists_div hv (by linarith) hbound.neg hbound hlow hhigh
  exact ⟨q, hq⟩

/-- A number that is rounded to a whole one is printed as an integer. -/
theorem chars_of_rounded_int {x : Single} (hx : x.isFinite = true) {places : UInt8} {n : ℤ}
    (hn : Double.Is (Double.round (x.widen * Double.pow 10 places.toNat)
      / Double.pow 10 places.toNat) n) :
    x.chars places = Double.intText (Double.truncate (Double.round
      (Double.round (x.widen * Double.pow 10 places.toNat) / Double.pow 10 places.toNat))) := by
  obtain ⟨v, hv, hv₀, hv₁⟩ := exists_factor places
  have hpos : 0 < v := by linarith
  -- half a place is positive, though it may be rounded
  have hhalf : ∃ h, Double.Is (0.5 / Double.pow 10 places.toNat) h ∧ 0 < h := by
    have hlow : Available .binary64 ((2 : ℚ) ^ (-893 : ℤ)) :=
      available_two_zpow (by decide) (by decide)
    have hbound : (2 : ℚ) ^ (-893 : ℤ) ≤ 1 / 2 / v := by
      rw [le_div_iff₀ hpos]
      calc (2 : ℚ) ^ (-893 : ℤ) * v ≤ 2 ^ (-893 : ℤ) * 2 ^ (892 : ℤ) :=
            mul_le_mul_of_nonneg_left (by exact_mod_cast hv₁) (two_zpow_pos _).le
        _ = 1 / 2 := by
            rw [← zpow_add₀ two_ne_zero]
            norm_num
    obtain ⟨h, hh, hh₀, -⟩ := Double.is_half.exists_div hv hpos.ne' hlow Double.available_one hbound
      ((div_le_self (by norm_num) hv₀).trans (by norm_num))
    exact ⟨h, hh, (two_zpow_pos _).trans_le hh₀⟩
  obtain ⟨h, hh, hh₀⟩ := hhalf
  have hzero : Available .binary64 ((n : ℚ) - n) := by
    rw [sub_self]
    exact_mod_cast Double.available_intCast (n := 0) (by decide)
  have hdiff := (hn.sub hn.round_int hzero).abs
  rw [sub_self, abs_zero] at hdiff
  rw [chars, if_pos hx]
  exact if_pos ((hdiff.lt_iff hh).2 hh₀)

/-- Without decimal places every coordinate is printed as an integer. -/
theorem exists_rounded_zero {x : Single} (hx : x.isFinite = true) :
    ∃ n : ℤ, Double.Is (Double.round (x.widen * Double.pow 10 (0 : UInt8).toNat)
      / Double.pow 10 (0 : UInt8).toNat) n := by
  obtain ⟨q, hq, -⟩ := exists_is hx
  have hwiden := hq.widen
  have hone : Double.Is (Double.pow 10 (0 : UInt8).toNat) 1 := by
    rw [UInt8.toNat_zero, Double.pow, Double.pow.go]
    exact Double.is_one
  have hscaled := hwiden.mul hone (by rw [mul_one]; exact hwiden.available)
  obtain ⟨n, hn, -⟩ := hscaled.exists_round
  have hquotient := hn.div hone one_ne_zero (by rw [div_one]; exact hn.available)
  rw [div_one] at hquotient
  exact ⟨n, hquotient⟩

/-- The text of a finite coordinate is a plain literal. -/
theorem isPlain_chars {x : Single} (hx : x.isFinite = true) (places : UInt8) :
    Decimal.IsPlain (x.chars places) := by
  rcases eq_or_ne places 0 with rfl | hp
  · obtain ⟨n, hn⟩ := exists_rounded_zero hx
    rw [chars_of_rounded_int hx hn]
    exact Decimal.isPlain_intText _
  · obtain ⟨q, hq⟩ := exists_rounded hx places
    rw [chars, if_pos hx]
    simp only
    split
    · exact Decimal.isPlain_intText _
    · split
      · next h => exact Double.isPlain_of_shortest? h
      · exact Double.isPlain_trimmed_fixed hq fun h => hp (UInt8.toNat_inj.1 h)

/-! ## Whole coordinates -/

/-- A whole number of up to 25 bits times a power of ten with up to twelve zeros. -/
theorem available_mul_pow_ten {n : ℤ} (hn : n.natAbs ≤ 2 ^ 24) {k : ℕ} (hk : k ≤ 12) :
    Available .binary64 (n * (10 ^ k : ℕ)) := by
  have hn' : |(n : ℚ)| ≤ 2 ^ 24 := by
    rw [← Int.cast_abs, ← Int.natCast_natAbs]
    exact_mod_cast hn
  have habs : |(n : ℚ) * (10 ^ k : ℕ)| = (n.natAbs * 5 ^ k : ℕ) * 2 ^ (k : ℤ) := by
    rw [abs_mul, zpow_natCast, Nat.abs_cast, show 10 = 5 * 2 from rfl, mul_pow]
    push_cast [Nat.cast_natAbs, Int.cast_abs]
    ring
  refine ⟨⟨n.natAbs * 5 ^ k, k, ?_, ?_, habs⟩, ?_⟩
  · calc n.natAbs * 5 ^ k ≤ 2 ^ 24 * 5 ^ 12 :=
          Nat.mul_le_mul hn (Nat.pow_le_pow_right (by decide) hk)
      _ < 2 ^ Float.Model.Format.binary64.mantissaBits := by decide
  · exact le_trans (by decide) (Int.natCast_nonneg k)
  · rw [abs_mul]
    calc |(n : ℚ)| * |((10 ^ k : ℕ) : ℚ)| ≤ 2 ^ 24 * 2 ^ 40 := by
          refine mul_le_mul hn' ?_ (abs_nonneg _) (by positivity)
          rw [Nat.abs_cast]
          exact_mod_cast (Nat.pow_le_pow_right (by decide) hk).trans (by decide : 10 ^ 12 ≤ 2 ^ 40)
      _ = 2 ^ (64 : ℤ) := by norm_num
      _ < overflow .binary64 := zpow_lt_zpow_right₀ one_lt_two (by decide)

/-- A whole coordinate is printed as the integer it is. -/
theorem chars_of_int {x : Single} {n : ℤ} (hx : x.Is n) (hn : n.natAbs ≤ 2 ^ 24)
    {places : UInt8} (hp : places ≤ 12) : x.chars places = Double.intText n := by
  have hp : places.toNat ≤ 12 := UInt8.le_iff_toNat_le.1 hp
  have hten : Double.Is 10 ((10 : ℕ) : ℤ) := by exact_mod_cast Double.is_ten
  have hpow : 10 ^ places.toNat ≤ 2 ^ 53 :=
    (Nat.pow_le_pow_right (by decide) hp).trans (by decide)
  have hfactor : Double.Is (Double.pow 10 places.toNat) ((10 ^ places.toNat : ℕ) : ℚ) := by
    exact_mod_cast Double.is_pow hten (by decide) hpow
  have hne : ((10 ^ places.toNat : ℕ) : ℚ) ≠ 0 := by positivity
  have hscaled := hx.widen.mul hfactor (available_mul_pow_ten hn hp)
  have hscaled : Double.Is (x.widen * Double.pow 10 places.toNat)
      ((n * (10 ^ places.toNat : ℕ) : ℤ) : ℚ) := by exact_mod_cast hscaled
  have hquotient : ((n * (10 ^ places.toNat : ℕ) : ℤ) : ℚ) / (10 ^ places.toNat : ℕ) = n := by
    push_cast at hne ⊢
    field_simp
  have hrounded := hscaled.round_int.div hfactor hne
    (by rw [hquotient]; exact Double.available_intCast (hn.trans (by decide)))
  rw [hquotient] at hrounded
  rw [chars_of_rounded_int hx.isFinite hrounded,
    hrounded.round_int.truncate (hn.trans_lt (by decide))]

end Single

/-! ## Reading plain literals -/

namespace Decimal

theorem toLower_of_isDigit {c : Char} (h : c.isDigit = true) : c.toLower = c := by
  simp only [Char.isDigit, Bool.and_eq_true, decide_eq_true_eq] at h
  rw [Char.toLower, dif_neg]
  rintro ⟨hlow, -⟩
  exact absurd (UInt32.le_trans hlow h.2) (by decide)

/-- Digits are taken up to the first character that is none. -/
theorem takeDigits_of_digits {ds rest : List Char} (hd : ∀ c ∈ ds, c.isDigit = true)
    (hrest : ∀ c, rest.head? = some c → c.isDigit = false) :
    takeDigits (ds ++ rest) = (ds, rest) := by
  rw [takeDigits, List.takeWhile_append_of_pos hd, List.dropWhile_append_of_pos hd]
  cases rest with
  | nil => simp
  | cons c cs =>
    have := hrest c rfl
    rw [List.takeWhile_cons_of_neg (by rw [this]; exact Bool.false_ne_true),
      List.dropWhile_cons_of_neg (by rw [this]; exact Bool.false_ne_true), List.append_nil]

theorem head?_isFraction {fraction : List Char} (hf : IsFraction fraction) {c : Char}
    (h : fraction.head? = some c) : c = '.' := by
  obtain rfl | ⟨ds, -, rfl⟩ := hf
  · exact absurd h nofun
  · exact (Option.some.inj h).symm

/-- A literal without a sign is read as its digits over a power of ten. -/
theorem ofLiteral?_append {whole fraction : List Char} (hw : IsDigits whole)
    (hf : IsFraction fraction) :
    ofLiteral? (whole ++ fraction)
      = some ⟨natOfDigits (whole ++ fraction.tail), -(fraction.tail.length : ℤ)⟩ := by
  have hfraction : takeFraction fraction = (fraction.tail, []) := by
    obtain rfl | ⟨ds, hd, rfl⟩ := hf
    · rfl
    · rw [takeFraction, List.tail_cons]
      have : takeDigits (ds ++ []) = (ds, []) :=
        takeDigits_of_digits hd.2 fun c h => absurd h nofun
      rwa [List.append_nil] at this
  rw [ofLiteral?, takeDigits_of_digits hw.2 fun c h => by rw [head?_isFraction hf h]; rfl]
  simp only [hfraction, hw.1, false_and, if_false, power?, Option.map_some, zero_sub]

end Decimal

namespace Single

/-- A text that begins with a digit is none of the words for the numbers that are not finite. -/
theorem ofUnsigned?_of_isDigit {c : Char} {cs : List Char} (hc : c.isDigit = true) :
    ofUnsigned? (c :: cs) = (Decimal.ofLiteral? (c :: cs)).map Decimal.toSingle := by
  have hne (word : String) (hw : (word.toList.head?.any Char.isDigit) = false) :
      String.ofList ((c :: cs).map Char.toLower) ≠ word := by
    rintro rfl
    rw [String.toList_ofList, List.map_cons, List.head?_cons, Option.any_some,
      Decimal.toLower_of_isDigit hc, hc] at hw
    exact absurd hw (by decide)
  simp only [ofUnsigned?, hne "inf" rfl, hne "infinity" rfl, hne "nan" rfl, or_self, if_false]

theorem ofUnsigned?_append {whole fraction : List Char} (hw : Decimal.IsDigits whole)
    (hf : Decimal.IsFraction fraction) :
    ofUnsigned? (whole ++ fraction) = some (Decimal.toSingle
      ⟨Decimal.natOfDigits (whole ++ fraction.tail), -(fraction.tail.length : ℤ)⟩) := by
  rw [← Option.map_some, ← Decimal.ofLiteral?_append hw hf]
  cases whole with
  | nil => exact absurd rfl hw.1
  | cons c cs => exact ofUnsigned?_of_isDigit (hw.2 c List.mem_cons_self)

/-- Without a sign in front the literal is read as it stands. -/
theorem ofLiteral?_of_isDigit {c : Char} {cs : List Char} (hc : c.isDigit = true) :
    ofLiteral? (c :: cs) = ofUnsigned? (c :: cs) := by
  rw [ofLiteral?]
  · rintro ds h
    rw [(List.cons.inj h).1] at hc
    exact absurd hc (by decide)
  · rintro ds h
    rw [(List.cons.inj h).1] at hc
    exact absurd hc (by decide)

/-- Every plain literal is read as a number. -/
theorem ofLiteral?_plain {cs : List Char} (h : Decimal.IsPlain cs) :
    ∃ x, ofLiteral? cs = some x := by
  obtain ⟨whole, fraction, hw, hf, rfl⟩ | ⟨_, ⟨whole, fraction, hw, hf, rfl⟩, rfl⟩ := h
  · refine ⟨_, Eq.trans ?_ (ofUnsigned?_append hw hf)⟩
    cases whole with
    | nil => exact absurd rfl hw.1
    | cons c cs => exact ofLiteral?_of_isDigit (hw.2 c List.mem_cons_self)
  · rw [ofLiteral?, ofUnsigned?_append hw hf]
    exact ⟨_, rfl⟩

/-- The digits of a natural number of up to 25 bits are read as that number. -/
theorem is_toSingle {n : ℕ} (hn : n ≤ 2 ^ 24) : (Decimal.toSingle ⟨n, 0⟩).Is (n : ℤ) := by
  have hrounds := rounds_ofScientific (f := .binary32) (m := n) (e := 0)
    (neg_nonpos.2 (by positivity)) (by positivity)
  rw [zpow_zero, mul_one] at hrounds
  exact hrounds.is_repack (by decide)
    (by exact_mod_cast available_intCast (n := n) (by rwa [Int.natAbs_natCast]))

/-- The text of an integer of up to 25 bits is read as that integer. -/
theorem exists_ofLiteral?_intText {n : ℤ} (hn : n.natAbs ≤ 2 ^ 24) :
    ∃ x, ofLiteral? (Double.intText n) = some x ∧ x.Is n := by
  have hdigits := Decimal.isDigits_digitsOfNat n.natAbs
  have hread := ofUnsigned?_append hdigits (.inl rfl)
  rw [List.append_nil, List.tail_nil, List.append_nil, Decimal.natOfDigits_digitsOfNat,
    List.length_nil, Nat.cast_zero, neg_zero] at hread
  have hvalue := is_toSingle hn
  rw [Double.intText]
  split
  · next hneg =>
    rw [ofLiteral?, hread]
    refine ⟨_, rfl, ?_⟩
    have := hvalue.neg
    rwa [← Int.cast_neg, Int.ofNat_natAbs_of_nonpos hneg.le, neg_neg] at this
  · next hnonneg =>
    rw [Int.natAbs_of_nonneg (not_lt.1 hnonneg)] at hvalue
    refine ⟨_, Eq.trans ?_ hread, hvalue⟩
    generalize Decimal.digitsOfNat n.natAbs = ds at hdigits
    cases ds with
    | nil => exact absurd rfl hdigits.1
    | cons c cs => exact ofLiteral?_of_isDigit (hdigits.2 c List.mem_cons_self)

end Single

end VectorGraphics
