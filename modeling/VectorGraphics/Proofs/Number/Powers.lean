import VectorGraphics.Proofs.Number.Precision
import VectorGraphics.Proofs.Number.Values
import VectorGraphics.Proofs.Number.Whole

/-!
# Powers of ten in double precision

Far from the smallest doubles a rounding is off by little, compared to the number
(`Rounds.abs_value_sub_le_mul`). A power that is made by repeated squaring is off by one rounding
for every factor (`Double.go_off`), so that the powers of ten with a `UInt8` for their exponent are
as good as exact (`Double.exists_pow_ten_near`), and the shorter ones are exact
(`Double.is_pow_ten`).
-/

namespace VectorGraphics

open Float.Model.UnpackedFloat hiding round
open Float.Model (UnpackedFloat)
open Rounding

/-! ## Relative errors -/

namespace Rounding

/-- Far from the smallest doubles, and at zero, a rounding is off by little, compared to the
number. -/
theorem Rounds.abs_value_sub_le_mul {q : ℚ} {u : UnpackedFloat} (h : Rounds .binary64 q u)
    (hq : q ≠ 0 → 2 ^ (-1022 : ℤ) ≤ |q|) : |value u - q| ≤ 1 / 2 ^ 52 * |q| := by
  obtain rfl | hne := eq_or_ne q 0
  · rw [h.value_eq (representable_value (u := .zero .positive) trivial), sub_self, abs_zero,
      mul_zero]
  have herror : |(value u : ℝ) - q| ≤ 2 ^ (-53 : ℤ) * |(q : ℝ)| + 2 ^ (-1075 : ℤ) :=
    h.nearest_real.abs_sub_le
  have herror : |value u - q| ≤ 2 ^ (-53 : ℤ) * |q| + 2 ^ (-1075 : ℤ) := by
    rw [← Rat.cast_le (K := ℝ)]
    simpa only [Rat.cast_abs, Rat.cast_sub, Rat.cast_add, Rat.cast_mul, Rat.cast_zpow,
      Rat.cast_ofNat] using herror
  have hsmall : (2 : ℚ) ^ (-1075 : ℤ) ≤ 2 ^ (-53 : ℤ) * |q| := by
    calc (2 : ℚ) ^ (-1075 : ℤ) = 2 ^ (-53 : ℤ) * 2 ^ (-1022 : ℤ) := by
          rw [← zpow_add₀ two_ne_zero]
          rfl
      _ ≤ 2 ^ (-53 : ℤ) * |q| := by
          gcongr
          exact hq hne
  have hdouble : (1 / 2 ^ 52 : ℚ) = 2 * 2 ^ (-53 : ℤ) := by norm_num
  rw [hdouble]
  linarith

/-- A rounding whose packed form has a value has that value itself. -/
theorem Rounds.eq_of_is_repack {f : Float.Model.Format} {q v : ℚ} {u : UnpackedFloat}
    (h : Rounds f q u) (hv : Is f (repack f u) v) : value u = v := by
  rw [← repack_eq h.canonical hv.isFinite]
  exact hv.value_eq

/-- The first number is the second after at most `n` roundings. -/
structure Off (n : ℕ) (v q : ℚ) : Prop where
  low : q * (1 - 1 / 2 ^ 52) ^ n ≤ v
  high : v ≤ q * (1 + 1 / 2 ^ 52) ^ n

namespace Off

variable {m n : ℕ} {v w q p : ℚ}

theorem of_eq (h : v = q) : Off 0 v q := ⟨by simp [h], by simp [h]⟩

theorem mul (hv : Off m v q) (hw : Off n w p) (hq : 0 ≤ q) (hp : 0 ≤ p) :
    Off (m + n) (v * w) (q * p) := by
  have hlow : (0 : ℚ) ≤ 1 - 1 / 2 ^ 52 := by norm_num
  have hlow' : (0 : ℚ) ≤ q * (1 - 1 / 2 ^ 52) ^ m := by positivity
  have hw₀ : 0 ≤ w := le_trans (by positivity) hw.low
  constructor
  · calc q * p * (1 - 1 / 2 ^ 52) ^ (m + n)
        = q * (1 - 1 / 2 ^ 52) ^ m * (p * (1 - 1 / 2 ^ 52) ^ n) := by ring
      _ ≤ v * w := mul_le_mul hv.low hw.low (by positivity) (hlow'.trans hv.low)
  · calc v * w ≤ q * (1 + 1 / 2 ^ 52) ^ m * (p * (1 + 1 / 2 ^ 52) ^ n) :=
          mul_le_mul hv.high hw.high hw₀ (by positivity)
      _ = q * p * (1 + 1 / 2 ^ 52) ^ (m + n) := by ring

/-- One rounding more. -/
theorem succ (hv : Off n v q) (hv₀ : 0 ≤ v) (h : |w - v| ≤ 1 / 2 ^ 52 * |v|) :
    Off (n + 1) w q := by
  rw [abs_of_nonneg hv₀] at h
  obtain ⟨hlow, hhigh⟩ := abs_le.1 h
  constructor
  · calc q * (1 - 1 / 2 ^ 52) ^ (n + 1) = q * (1 - 1 / 2 ^ 52) ^ n * (1 - 1 / 2 ^ 52) := by ring
      _ ≤ v * (1 - 1 / 2 ^ 52) := mul_le_mul_of_nonneg_right hv.low (by norm_num)
      _ ≤ w := by linarith
  · calc w ≤ v * (1 + 1 / 2 ^ 52) := by linarith
      _ ≤ q * (1 + 1 / 2 ^ 52) ^ n * (1 + 1 / 2 ^ 52) :=
        mul_le_mul_of_nonneg_right hv.high (by norm_num)
      _ = q * (1 + 1 / 2 ^ 52) ^ (n + 1) := by ring

/-- A few hundred roundings do not amount to much. -/
theorem abs_sub_le (h : Off n v q) (hq : 0 ≤ q) (hn : n ≤ 256) : |v - q| ≤ 1 / 2 ^ 43 * q := by
  have hlow : (1 - 1 / 2 ^ 43 : ℚ) ≤ (1 - 1 / 2 ^ 52) ^ n := by
    calc (1 - 1 / 2 ^ 43 : ℚ) ≤ (1 - 1 / 2 ^ 52) ^ 256 := by norm_num
      _ ≤ (1 - 1 / 2 ^ 52) ^ n := pow_le_pow_of_le_one (by norm_num) (by norm_num) hn
  have hhigh : ((1 + 1 / 2 ^ 52) ^ n : ℚ) ≤ 1 + 1 / 2 ^ 43 := by
    calc ((1 + 1 / 2 ^ 52) ^ n : ℚ) ≤ (1 + 1 / 2 ^ 52) ^ 256 := by gcongr; norm_num
      _ ≤ 1 + 1 / 2 ^ 43 := by norm_num
  have hlow := (mul_le_mul_of_nonneg_left hlow hq).trans h.low
  have hhigh := h.high.trans (mul_le_mul_of_nonneg_left hhigh hq)
  exact abs_le.2 ⟨by linarith, by linarith⟩

end Off

end Rounding

/-! ## Powers -/

namespace Double

variable {r b x y : Double} {p q v A c : ℚ} {i j n : ℕ}

theorem is_of_isFinite (h : x.isFinite = true) : ∃ q, x.Is q := ⟨_, h, x.canonical, rfl⟩

/-- A product of numbers from one up is rounded once. -/
theorem Is.off_mul (hx : x.Is p) (hy : y.Is q) (hv : (x * y).Is v) (hp : 1 ≤ p) (hq : 1 ≤ q)
    (hp' : Off i p A) (hq' : Off j q c) (hA : 0 ≤ A) (hc : 0 ≤ c) :
    1 ≤ v ∧ Off (i + j + 1) v (A * c) := by
  have hone : 1 ≤ p * q := one_le_mul_of_one_le_of_one_le hp hq
  have hrounds := hx.rounds_mul hy
  rw [← hrounds.eq_of_is_repack hv]
  refine ⟨hrounds.le_value available_one.representable hone, ?_⟩
  refine (hp'.mul hq' hA hc).succ (by linarith) (hrounds.abs_value_sub_le_mul fun _ => ?_)
  rw [abs_of_nonneg (by linarith)]
  exact (zpow_le_one_of_nonpos₀ one_le_two (by decide)).trans hone

/-- What a power is made of is finite if the power is. -/
theorem isFinite_of_go (h : (pow.go r b n).isFinite = true) :
    r.isFinite = true ∧ (n ≠ 0 → b.isFinite = true) := by
  induction n using Nat.strong_induction_on generalizing r b with
  | _ n ih =>
    rw [pow.go] at h
    have hstep (h : Float.isFinite (if n % 2 = 1 then r * b else r) = true) :
        r.isFinite = true ∧ (n % 2 = 1 → b.isFinite = true) := by
      split at h
      · exact ⟨(isFinite_of_mul h).1, fun _ => (isFinite_of_mul h).2⟩
      · next hn => exact ⟨h, fun hn' => absurd hn' hn⟩
    split at h
    · next hn =>
      obtain ⟨hr, hb⟩ := hstep h
      exact ⟨hr, fun hn' => hb (by omega)⟩
    · next hn =>
      obtain ⟨hr, hb⟩ := ih (n / 2) (by omega) h
      exact ⟨(hstep hr).1, fun _ => (isFinite_of_mul (hb hn)).1⟩

/-- A power is off by one rounding for every factor, and by those of the base once more. -/
theorem go_off (hr : r.Is p) (hb : b.Is q) (hv : (pow.go r b n).Is v) (hp : 1 ≤ p) (hq : 1 ≤ q)
    (hp' : Off i p A) (hq' : Off j q c) (hA : 0 ≤ A) (hc : 0 ≤ c) :
    Off (i + (j + 1) * n) v (A * c ^ n) := by
  induction n using Nat.strong_induction_on generalizing r b p q i j A c with
  | _ n ih =>
    -- the running product takes the factor of the lowest bit
    have hstep (hfinite : Float.isFinite (if n % 2 = 1 then r * b else r) = true) :
        ∃ p', Is (if n % 2 = 1 then r * b else r) p' ∧ 1 ≤ p'
          ∧ Off (i + (j + 1) * (n % 2)) p' (A * c ^ (n % 2)) := by
      obtain hn | hn := Nat.mod_two_eq_zero_or_one n
      · rw [hn, if_neg (by decide)]
        simpa using ⟨p, hr, hp, hp'⟩
      · rw [hn, if_pos rfl] at hfinite ⊢
        obtain ⟨p', hmul⟩ := is_of_isFinite hfinite
        obtain ⟨hone, hoff⟩ := hr.off_mul hb hmul hp hq hp' hq' hA hc
        exact ⟨p', hmul, hone, by simpa [add_assoc] using hoff⟩
    have hpower : A * c ^ n = A * c ^ (n % 2) * (c * c) ^ (n / 2) := by
      rw [mul_assoc, ← pow_two, ← pow_mul, ← pow_add, Nat.mod_add_div]
    rw [pow.go] at hv
    split at hv
    · next hn =>
      obtain ⟨p', hmul, -, hoff⟩ := hstep hv.isFinite
      have hsmall : n % 2 = n := by omega
      rw [hsmall] at hoff
      exact hv.value_eq.symm.trans hmul.value_eq ▸ hoff
    · next hn =>
      obtain ⟨hr', hb'⟩ := isFinite_of_go hv.isFinite
      obtain ⟨p', hr', hone, hoff⟩ := hstep hr'
      obtain ⟨q', hb'⟩ := is_of_isFinite (hb' hn)
      obtain ⟨hone', hoff'⟩ := hb.off_mul hb hb' hq hq hq' hq' hc hc
      have hresult := ih (n / 2) (by omega) hr' hb' hv hone hone' hoff hoff' (by positivity)
        (by positivity)
      rw [hpower]
      have hcount : i + (j + 1) * n
          = i + (j + 1) * (n % 2) + (j + j + 1 + 1) * (n / 2) := by
        calc i + (j + 1) * n = i + (j + 1) * (n % 2 + 2 * (n / 2)) := by rw [Nat.mod_add_div]
          _ = i + (j + 1) * (n % 2) + (j + j + 1 + 1) * (n / 2) := by ring
      rwa [hcount]

/-- The first powers of ten are exact. -/
theorem is_pow_ten (hn : n ≤ 15) : (pow 10 n).Is (10 ^ n) := by
  have hten : Is 10 ((10 : ℕ) : ℤ) := by exact_mod_cast is_ten
  have hpow : 10 ^ n ≤ 2 ^ 53 := (Nat.pow_le_pow_right (by decide) hn).trans (by decide)
  exact_mod_cast is_pow hten (by decide) hpow

/-- The powers of ten with an exponent of one byte are as good as exact. -/
theorem exists_pow_ten_near (hn : n < 256) : ∃ v, (pow 10 n).Is v ∧ 1 ≤ v ∧ v ≤ 2 ^ 892
    ∧ |v - 10 ^ n| ≤ 1 / 2 ^ 43 * 10 ^ n := by
  obtain ⟨v, hv, hv₀, hv₁⟩ := exists_pow_ten hn
  refine ⟨v, hv, hv₀, hv₁, ?_⟩
  have hoff := go_off is_one is_ten hv le_rfl (by norm_num) (.of_eq rfl) (.of_eq rfl) zero_le_one
    (by norm_num)
  rw [one_mul] at hoff
  exact hoff.abs_sub_le (by positivity) (by omega)

end Double

end VectorGraphics
