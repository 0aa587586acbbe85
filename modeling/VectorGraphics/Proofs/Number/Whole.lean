import VectorGraphics.Proofs.Number.Exact

/-!
# Whole numbers

`Double.round` gives a whole number within half a unit (`Double.Is.exists_round`), and a whole
number itself; `Double.truncate` gives the integer that a whole number is. Powers of whole numbers
are exact as long as they have no more bits than a mantissa (`Double.is_pow`), and the powers of
ten with a `UInt8` for their exponent stay far from the overflow (`Double.exists_pow_ten`).
-/

namespace VectorGraphics

open Float.Model.UnpackedFloat
open Packing Rounding

theorem Single.is_zero : Single.Is 0 0 := by
  have : (0 : Single).toModel.unpack = .zero .positive := rfl
  rw [Single.Is, this]
  exact ⟨rfl, trivial, rfl⟩

theorem Single.is_one : Single.Is 1 1 := by
  have : (1 : Single).toModel.unpack = .finite .positive (2 ^ 23) (-23) (by decide) := rfl
  rw [Single.Is, this]
  exact ⟨rfl, ⟨by decide, by decide, by decide⟩, by norm_num [Rounding.value, sign]⟩

theorem Single.available_intCast {n : ℤ} (h : n.natAbs ≤ 2 ^ 24) : Available .binary32 n :=
  Rounding.available_intCast (by decide) h

namespace Single.Is

variable {x y : Single} {a b : ℤ}

theorem add_int (hx : x.Is a) (hy : y.Is b) (h : (a + b).natAbs ≤ 2 ^ 24) :
    (x + y).Is (a + b : ℤ) := by
  have := hx.add hy (by exact_mod_cast available_intCast h)
  rwa [← Int.cast_add] at this

theorem sub_int (hx : x.Is a) (hy : y.Is b) (h : (a - b).natAbs ≤ 2 ^ 24) :
    (x - y).Is (a - b : ℤ) := by
  have := hx.sub hy (by exact_mod_cast available_intCast h)
  rwa [← Int.cast_sub] at this

theorem neg_int (hx : x.Is a) : (-x).Is (-a : ℤ) := by
  have := hx.neg
  rwa [← Int.cast_neg] at this

theorem beq_int (hx : x.Is a) (hy : y.Is b) : (x == y) = (a == b) := by
  rw [Bool.eq_iff_iff, hx.beq_iff hy, Int.cast_inj, beq_iff_eq]

theorem int_unique (hx : x.Is a) (hx' : x.Is b) : a = b := by
  have := hx.value_eq.symm.trans hx'.value_eq
  exact_mod_cast this

/-- A whole number within a bound below one is zero. -/
theorem eq_zero_of_abs_le {t : Single} (hx : x.Is a) (ht : t < 1) (h : x.abs ≤ t) : a = 0 := by
  have ht : t.toModel.unpack.lt (1 : Single).toModel.unpack = true := decide_eq_true_iff.1 ht
  have h : x.abs.toModel.unpack.le t.toModel.unpack = true := decide_eq_true_iff.1 h
  obtain ⟨q, hq⟩ : ∃ q, t.Is q := by
    cases hcase : t.toModel.unpack with
    | notANumber =>
      rw [hcase] at ht
      exact absurd ht Bool.false_ne_true
    | infinity s =>
      rw [hcase] at ht h
      cases s with
      | positive => exact absurd ht Bool.false_ne_true
      | negative =>
        have hfinite := (Single.Is.abs hx).isFinite
        cases hx' : x.abs.toModel.unpack <;> rw [hx'] at h hfinite <;>
          first | exact absurd h Bool.false_ne_true | exact absurd hfinite Bool.false_ne_true
    | zero s | finite s m e hm =>
      have hfinite : t.isFinite = true := by
        rw [Float32.isFinite, Float32.Model.isFinite, hcase]
        rfl
      obtain ⟨q, hq, -⟩ := exists_is hfinite
      exact ⟨q, hq⟩
  have hlt : |(a : ℚ)| < 1 := lt_of_le_of_lt ((Single.Is.abs hx).le_iff hq |>.1 ‹x.abs ≤ t›)
    ((hq.lt_iff is_one).1 ‹t < 1›)
  exact Int.abs_lt_one_iff.1 (by exact_mod_cast hlt)

end Single.Is

namespace Double

theorem available_intCast {n : ℤ} (h : n.natAbs ≤ 2 ^ 53) : Available .binary64 n :=
  Rounding.available_intCast (by decide) h

/-! ## Rounding to a whole number -/

theorem nearestNat_of_nonneg (m : ℕ) {e : ℤ} (he : 0 ≤ e) :
    (nearestNat m e : ℚ) = m * 2 ^ e := by
  rw [nearestNat, if_pos he]
  push_cast
  rw [← zpow_natCast, Int.toNat_of_nonneg he]

theorem nearestNat_of_neg (m : ℕ) {e : ℤ} (he : e < 0) :
    (nearestNat m e : ℚ) ≤ m * 2 ^ e + 1 / 2 ∧ m * 2 ^ e - 1 / 2 ≤ (nearestNat m e : ℚ) := by
  rw [nearestNat, if_neg (not_le.2 he)]
  obtain ⟨k, rfl⟩ : ∃ k : ℕ, e = -k := ⟨(-e).toNat, by omega⟩
  rw [neg_neg, Int.toNat_natCast, zpow_neg, zpow_natCast, pow_succ]
  have hpos : (0 : ℚ) < 2 ^ k := by positivity
  have hlow := Nat.div_mul_le_self (2 * m + 2 ^ k) (2 ^ k * 2)
  have hhigh := Nat.lt_div_mul_add (a := 2 * m + 2 ^ k) (b := 2 ^ k * 2) (by positivity)
  generalize (2 * m + 2 ^ k) / (2 ^ k * 2) = n at hlow hhigh
  have hlow : (n : ℚ) * (2 ^ k * 2) ≤ 2 * m + 2 ^ k := by exact_mod_cast hlow
  have hhigh : (2 * m + 2 ^ k : ℚ) < n * (2 ^ k * 2) + 2 ^ k * 2 := by exact_mod_cast hhigh
  have hquotient : (m : ℚ) * (2 ^ k)⁻¹ * 2 ^ k = m := by field_simp
  constructor <;> nlinarith

/-- The nearest whole number of a double is one itself. -/
theorem available_nearestNat {s : Sign} {m : ℕ} {e : ℤ} (hm : 0 < m)
    (hc : Canonical .binary64 (.finite s m e hm))
    (ha : Available .binary64 (value (.finite s m e hm))) :
    Available .binary64 (nearestNat m e : ℤ) := by
  rcases le_or_gt 0 e with he | he
  · have := ha.abs
    rw [abs_value_finite, ← nearestNat_of_nonneg m he] at this
    exact_mod_cast this
  · refine available_intCast ?_
    have hm : (m : ℚ) ≤ 2 ^ 53 := by exact_mod_cast hc.1.le
    have he : (2 : ℚ) ^ e ≤ 2 ^ (-1 : ℤ) := zpow_le_zpow_right₀ one_le_two (by omega)
    have hle : (nearestNat m e : ℚ) ≤ 2 ^ 53 := by
      calc (nearestNat m e : ℚ) ≤ m * 2 ^ e + 1 / 2 := (nearestNat_of_neg m ‹e < 0›).1
        _ ≤ 2 ^ 53 * 2 ^ (-1 : ℤ) + 1 / 2 :=
          add_le_add_left (mul_le_mul hm he (two_zpow_pos e).le (by positivity)) _
        _ ≤ 2 ^ 53 := by norm_num
    rw [Int.natAbs_natCast]
    exact_mod_cast hle

/-- The nearest whole number of a finite double. -/
theorem is_nearestNat {s : Sign} {m : ℕ} {e : ℤ} (hm : 0 < m)
    (hc : Canonical .binary64 (.finite s m e hm))
    (ha : Available .binary64 (value (.finite s m e hm))) :
    (ofBinary s (nearestNat m e) 0).Is (s.apply (nearestNat m e) : ℤ) := by
  refine is_pack ?_ ?_
  · have := rounds_round (f := .binary64) s (nearestNat m e) 0
    rwa [zpow_zero, mul_one, ← Int.cast_natCast, ← apply_cast] at this
  · have := available_nearestNat hm hc ha
    cases s with
    | positive => exact this
    | negative =>
      have := this.neg
      rwa [← Int.cast_neg] at this

/-- Rounding gives a whole number within half a unit. -/
theorem Is.exists_round {x : Double} {q : ℚ} (hx : x.Is q) :
    ∃ n : ℤ, Is x.round n ∧ |(n : ℚ) - q| ≤ 1 / 2 := by
  have havailable := hx.available
  obtain ⟨hfinite, hc, rfl⟩ := hx
  rw [round]
  split
  · next s m e hm hu =>
    rw [hu] at havailable hc ⊢
    refine ⟨s.apply (nearestNat m e), is_nearestNat hm hc havailable, ?_⟩
    rw [apply_cast, value, ← mul_sub, abs_sign_mul, Int.cast_natCast, abs_le]
    rcases le_or_gt 0 e with he | he
    · rw [nearestNat_of_nonneg m he]
      norm_num
    · obtain ⟨hhigh, hlow⟩ := nearestNat_of_neg m he
      constructor <;> linarith
  · next hu =>
    cases hcase : x.toModel.unpack with
    | finite s m e hm => exact absurd hcase (hu s m e hm)
    | infinity s | notANumber =>
      rw [hcase] at hfinite
      exact absurd hfinite Bool.false_ne_true
    | zero s =>
      rw [hcase] at havailable
      refine ⟨0, is_pack ?_ ?_, by norm_num⟩
      · exact_mod_cast rounds_zero s
      · exact_mod_cast havailable

/-- A whole number is its own rounding. -/
theorem Is.round_int {x : Double} {n : ℤ} (hx : x.Is n) : Is x.round n := by
  obtain ⟨k, hk, hdist⟩ := hx.exists_round
  have : |((k - n : ℤ) : ℚ)| < 1 := by
    push_cast
    linarith
  have : k - n = 0 := Int.abs_lt_one_iff.1 (by exact_mod_cast this)
  rwa [sub_eq_zero.1 this] at hk

/-- A rounded number is the one made of its integer, unless that is zero and may have a sign. -/
theorem Is.round_eq_ofInt {x : Double} {q : ℚ} {n : ℤ} (hx : x.Is q) (hn : Is x.round n)
    (hne : n ≠ 0) : x.round = ofInt n := by
  have havailable := hx.available
  obtain ⟨hfinite, hc, rfl⟩ := hx
  rw [round] at hn ⊢
  cases hcase : x.toModel.unpack with
  | infinity s | notANumber =>
    rw [hcase] at hfinite
    exact absurd hfinite Bool.false_ne_true
  | zero s =>
    rw [hcase] at hn havailable
    have hzero : Is (pack (.zero s)) 0 := is_pack (rounds_zero s) havailable
    exact absurd (by exact_mod_cast hn.value_eq.symm.trans hzero.value_eq) hne
  | finite s m e hm =>
    rw [hcase] at hn hc havailable
    have hnearest : n = s.apply (nearestNat m e) := by
      exact_mod_cast hn.value_eq.symm.trans (is_nearestNat hm hc havailable).value_eq
    dsimp only
    rw [ofInt]
    cases s with
    | positive =>
      rw [Sign.apply] at hnearest
      rw [if_neg (by omega), hnearest, Int.natAbs_natCast]
    | negative =>
      rw [Sign.apply] at hnearest
      rw [if_pos (by omega), hnearest, Int.natAbs_neg, Int.natAbs_natCast]

/-! ## The integer in a whole number -/

theorem wholeNat_eq {m k : ℕ} {e : ℤ} (h : (m : ℚ) * 2 ^ e = k) : wholeNat m e = k := by
  rw [wholeNat]
  have hsplit : (2 : ℚ) ^ e * 2 ^ (-e).toNat = 2 ^ e.toNat := by
    rw [← zpow_natCast, ← zpow_natCast, ← zpow_add₀ two_ne_zero]
    congr 1
    omega
  refine Nat.div_eq_of_eq_mul_left (by positivity) ?_
  have : (m : ℚ) * 2 ^ e.toNat = k * 2 ^ (-e).toNat := by rw [← hsplit, ← mul_assoc, h]
  exact_mod_cast this

/-- The nearest 64-bit integer. -/
def saturate (n : ℤ) : ℤ := min (max n (-(2 ^ 63))) (2 ^ 63 - 1)

/-- Truncating a whole number gives the nearest 64-bit integer. -/
theorem Is.truncate_eq {x : Double} {n : ℤ} (hx : x.Is n) : x.truncate = saturate n := by
  obtain ⟨hfinite, -, hvalue⟩ := hx
  rw [Double.truncate]
  cases hcase : x.toModel.unpack with
  | infinity s | notANumber =>
    rw [hcase] at hfinite
    exact absurd hfinite Bool.false_ne_true
  | zero s =>
    rw [hcase, value_zero] at hvalue
    have hn : n = 0 := by exact_mod_cast hvalue.symm
    rw [hn]
    rfl
  | finite s m e hm =>
    rw [hcase] at hvalue
    have hmagnitude : (m : ℚ) * 2 ^ e = n.natAbs := by
      rw [← abs_value_finite s m e hm, hvalue, Nat.cast_natAbs, Int.cast_abs]
    have happly : s.apply (wholeNat m e) = n := by
      rw [wholeNat_eq hmagnitude]
      have : ((s.apply (n.natAbs) : ℤ) : ℚ) = n := by
        rw [apply_cast, Int.cast_natCast, ← hmagnitude]
        exact hvalue
      exact_mod_cast this
    simp only [happly, saturate]

/-- Truncating a whole number gives the integer, if it has no more than 63 bits. -/
theorem Is.truncate {x : Double} {n : ℤ} (hx : x.Is n) (hn : n.natAbs < 2 ^ 63) :
    x.truncate = n := by
  rw [hx.truncate_eq, saturate]
  omega

/-! ## Powers -/

theorem is_one : Is 1 1 := by
  have : (1 : Double).toModel.unpack = .finite .positive (2 ^ 52) (-52) (by decide) := rfl
  rw [Is, this]
  exact ⟨rfl, ⟨by decide, by decide, by decide⟩, by norm_num [value, sign]⟩

theorem is_ten : Is 10 10 := by
  have : (10 : Double).toModel.unpack = .finite .positive (10 * 2 ^ 49) (-49) (by decide) := rfl
  rw [Is, this]
  exact ⟨rfl, ⟨by decide, by decide, by decide⟩, by norm_num [value, sign]⟩

theorem is_half : Is 0.5 (1 / 2) := by
  have : (0.5 : Double).toModel.unpack = .finite .positive (2 ^ 52) (-53) (by decide) := rfl
  rw [Is, this]
  exact ⟨rfl, ⟨by decide, by decide, by decide⟩, by norm_num [value, sign]⟩

/-- A product of whole numbers with no more bits than a mantissa. -/
theorem Is.mul_int {x y : Double} {a b : ℤ} (hx : x.Is a) (hy : y.Is b)
    (h : (a * b).natAbs ≤ 2 ^ 53) : (x * y).Is (a * b : ℤ) := by
  have := hx.mul hy (by exact_mod_cast available_intCast h)
  rwa [← Int.cast_mul] at this

theorem is_go {r b : Double} {a c n : ℕ} (hr : r.Is (a : ℤ)) (hb : b.Is (c : ℤ)) (ha : 0 < a)
    (hc : 0 < c) (h : a * c ^ n ≤ 2 ^ 53) : (pow.go r b n).Is (a * c ^ n : ℕ) := by
  induction n using Nat.strong_induction_on generalizing r b a c with
  | _ n ih =>
    have hsplit : c ^ n = c ^ (n % 2) * (c * c) ^ (n / 2) := by
      rw [← pow_two, ← pow_mul, ← pow_add, Nat.mod_add_div]
    -- the running product takes the factor of the lowest bit
    have hstep : Is (if n % 2 = 1 then r * b else r) ((a * c ^ (n % 2) : ℕ) : ℤ) := by
      rcases Nat.mod_two_eq_zero_or_one n with hn | hn
      · rwa [hn, if_neg (by decide), pow_zero, mul_one]
      · rw [if_pos hn]
        rw [hn, pow_one] at hsplit ⊢
        have hle : a * c ≤ 2 ^ 53 := by
          refine le_trans ?_ h
          rw [hsplit, ← mul_assoc]
          exact Nat.le_mul_of_pos_right _ (by positivity)
        have := hr.mul_int hb (by rwa [← Int.natCast_mul, Int.natAbs_natCast])
        rwa [← Int.natCast_mul] at this
    rw [pow.go]
    split
    · next hn =>
      rw [hsplit, hn, pow_zero, mul_one]
      exact_mod_cast hstep
    · next hn =>
      rw [hsplit, ← mul_assoc] at h ⊢
      have hsquare : c * c ≤ 2 ^ 53 := by
        refine le_trans ?_ h
        calc c * c ≤ (c * c) ^ (n / 2) := Nat.le_self_pow hn _
          _ ≤ a * c ^ (n % 2) * (c * c) ^ (n / 2) := Nat.le_mul_of_pos_left _ (by positivity)
      have hb := hb.mul_int hb (by rwa [← Int.natCast_mul, Int.natAbs_natCast])
      rw [← Int.natCast_mul] at hb
      exact ih (n / 2) (by omega) hstep hb (by positivity) (by positivity) h

/-- A power of a whole number, if it has no more bits than a mantissa. -/
theorem is_pow {b : Double} {c n : ℕ} (hb : b.Is (c : ℤ)) (hc : 0 < c) (h : c ^ n ≤ 2 ^ 53) :
    (pow b n).Is (c ^ n : ℕ) := by
  have := is_go (a := 1) (n := n) (by exact_mod_cast is_one) hb one_pos hc (by rwa [one_mul])
  rwa [one_mul] at this

theorem available_one : Available .binary64 1 := is_one.available

theorem available_two_pow {k : ℕ} (h : k < 1024) : Available .binary64 (2 ^ k) := by
  have : Available .binary64 ((2 : ℚ) ^ (k : ℤ)) :=
    available_two_zpow (le_trans (by decide : _ ≤ (0 : ℤ)) (Int.natCast_nonneg k))
      (lt_of_lt_of_le (by exact_mod_cast h : (k : ℤ) < 1024) (by decide))
  rwa [zpow_natCast] at this

/-- A product of numbers from one up to a power of two. -/
theorem Is.exists_mul_two_pow {x y : Double} {p q : ℚ} {i j : ℕ} (hx : x.Is p) (hy : y.Is q)
    (hp : 1 ≤ p ∧ p ≤ 2 ^ i) (hq : 1 ≤ q ∧ q ≤ 2 ^ j) (h : i + j < 1024) :
    ∃ r, (x * y).Is r ∧ 1 ≤ r ∧ r ≤ 2 ^ (i + j) := by
  refine hx.exists_mul hy available_one (available_two_pow h) ?_ ?_
  · exact one_le_mul_of_one_le_of_one_le hp.1 hq.1
  · rw [pow_add]
    exact mul_le_mul hp.2 hq.2 (zero_le_one.trans hq.1) (by positivity)

/-- A power stays between one and the same power of a bound on the base. -/
theorem exists_go {r b : Double} {p q : ℚ} {i j n : ℕ} (hr : r.Is p) (hb : b.Is q)
    (hp : 1 ≤ p ∧ p ≤ 2 ^ i) (hq : 1 ≤ q ∧ q ≤ 2 ^ j) (h : i + j * n < 1024) :
    ∃ v, (pow.go r b n).Is v ∧ 1 ≤ v ∧ v ≤ 2 ^ (i + j * n) := by
  induction n using Nat.strong_induction_on generalizing r b p q i j with
  | _ n ih =>
    have hsplit : i + j * n = i + j * (n % 2) + (j + j) * (n / 2) := by
      calc i + j * n = i + j * (n % 2 + 2 * (n / 2)) := by rw [Nat.mod_add_div]
        _ = i + j * (n % 2) + (j + j) * (n / 2) := by ring
    rw [hsplit] at h ⊢
    have hstep : ∃ p', Is (if n % 2 = 1 then r * b else r) p'
        ∧ 1 ≤ p' ∧ p' ≤ 2 ^ (i + j * (n % 2)) := by
      rcases Nat.mod_two_eq_zero_or_one n with hn | hn
      · rw [hn, if_neg (by decide), Nat.mul_zero, Nat.add_zero]
        exact ⟨p, hr, hp⟩
      · rw [hn, if_pos rfl, Nat.mul_one]
        rw [hn, Nat.mul_one] at h
        exact hr.exists_mul_two_pow hb hp hq (by omega)
    obtain ⟨p', hr', hp'⟩ := hstep
    rw [pow.go]
    split
    · next hn =>
      rw [hn, Nat.mul_zero, Nat.add_zero]
      exact ⟨p', hr', hp'⟩
    · next hn =>
      have hle : j + j ≤ (j + j) * (n / 2) := Nat.le_mul_of_pos_right _ (Nat.pos_of_ne_zero hn)
      obtain ⟨q', hb', hq'⟩ := hb.exists_mul_two_pow hb hq hq (by omega)
      exact ih (n / 2) (by omega) hr' hb' hp' hq' h

/-- The powers of ten with an exponent of one byte. Four factors of ten take fourteen bits. -/
theorem exists_pow_ten {n : ℕ} (hn : n < 256) :
    ∃ v, (pow 10 n).Is v ∧ 1 ≤ v ∧ v ≤ 2 ^ 892 := by
  have hone : Is 1 (1 : ℤ) := by exact_mod_cast is_one
  have hten : Is 10 (10 : ℤ) := by exact_mod_cast is_ten
  have hhundred : Is (10 * 10) (100 : ℤ) := hten.mul_int hten (by decide)
  have hsquare : Is (10 * 10 * (10 * 10)) (10000 : ℤ) := hhundred.mul_int hhundred (by decide)
  rcases Nat.lt_or_ge n 4 with hsmall | hlarge
  · have hle : 10 ^ n ≤ 10 ^ 3 := Nat.pow_le_pow_right (by decide) (by omega)
    refine ⟨_, is_pow (c := 10) (n := n) hten (by decide) (hle.trans (by decide)), ?_, ?_⟩
    · exact_mod_cast Nat.one_le_pow _ _ (by decide)
    · calc ((10 ^ n : ℕ) : ℚ) ≤ (10 ^ 3 : ℕ) := by exact_mod_cast hle
        _ ≤ 2 ^ 10 := by norm_num
        _ ≤ 2 ^ 892 := pow_le_pow_right₀ one_le_two (by decide)
  · -- the product of the two lowest bits of the exponent
    have hlow : ∃ k : ℤ, Is (if n / 2 % 2 = 1 then (if n % 2 = 1 then 1 * 10 else 1) * (10 * 10)
        else if n % 2 = 1 then 1 * 10 else 1) k ∧ 1 ≤ k ∧ k ≤ 1000 := by
      have hfirst : Is (1 * 10) (10 : ℤ) := hone.mul_int hten (by decide)
      split <;> split
      · exact ⟨1000, hfirst.mul_int hhundred (by decide), by decide, by decide⟩
      · exact ⟨100, hone.mul_int hhundred (by decide), by decide, by decide⟩
      · exact ⟨10, hfirst, by decide, by decide⟩
      · exact ⟨1, hone, by decide, by decide⟩
    obtain ⟨k, hk, hk₀, hk₁⟩ := hlow
    have hk₀ : (1 : ℚ) ≤ k := by exact_mod_cast hk₀
    have hk₁ : (k : ℚ) ≤ 1000 := by exact_mod_cast hk₁
    rw [pow, pow.go, if_neg (by omega), pow.go, if_neg (by omega)]
    obtain ⟨v, hv, hv₀, hv₁⟩ := exists_go (i := 10) (j := 14) (n := n / 2 / 2) hk hsquare
      ⟨hk₀, hk₁.trans (by norm_num)⟩ (by norm_num) (by omega)
    refine ⟨v, hv, hv₀, hv₁.trans (pow_le_pow_right₀ one_le_two (by omega))⟩

end Double

end VectorGraphics
