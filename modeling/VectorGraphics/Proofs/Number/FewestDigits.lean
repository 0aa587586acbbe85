import VectorGraphics.Number.Shortest
import VectorGraphics.Proofs.Number.Exact

/-!
# The decimal with the fewest digits

The comparison of a decimal with a binary number is that of their values
(`RoundingInterval.compareBinary_eq`), so that a decimal which an interval holds lies between its
ends (`RoundingInterval.mem_of_holds`). A grid that is as fine as the lower half of the interval
has a point in it, and the search stops at the first grid with a point
(`RoundingInterval.search_holds`). For a double with a fraction and a full mantissa twenty grids are
enough, and the decimal that is found is as near to the double as the interval is wide
(`RoundingInterval.abs_shortest_sub_le`).
-/

namespace VectorGraphics

open Rounding (two_zpow_pos)

/-- The rational that a decimal stands for. -/
def Decimal.value (d : Decimal) : ℚ := d.digits * 10 ^ d.exponent

namespace RoundingInterval

variable {r : RoundingInterval} {d : ℕ} {k : ℤ}

/-- The least number of the interval. -/
def low (r : RoundingInterval) : ℚ := r.lower * 2 ^ r.exponent

/-- The number itself. -/
def center (r : RoundingInterval) : ℚ := r.value * 2 ^ r.exponent

/-- The greatest number of the interval. -/
def high (r : RoundingInterval) : ℚ := r.upper * 2 ^ r.exponent

/-! ## Comparing -/

/-- A power with an exponent of either sign, cleared of the denominator. -/
theorem pow_toNat_eq {b : ℚ} (hb : b ≠ 0) (k : ℤ) : b ^ k.toNat = b ^ k * b ^ (-k).toNat := by
  rw [← zpow_natCast, ← zpow_natCast, ← zpow_add₀ hb]
  congr 1
  omega

theorem compareBinary_eq (d : ℕ) (k : ℤ) (n : ℕ) (q : ℤ) :
    compareBinary d k n q = compare ((d : ℚ) * 10 ^ k) (n * 2 ^ q) := by
  have hpos : (0 : ℚ) < 10 ^ (-k).toNat * 2 ^ (-q).toNat := by positivity
  have hleft : ((d * 10 ^ k.toNat * 2 ^ (-q).toNat : ℕ) : ℚ)
      = d * 10 ^ k * (10 ^ (-k).toNat * 2 ^ (-q).toNat) := by
    push_cast
    rw [pow_toNat_eq (by norm_num : (10 : ℚ) ≠ 0) k]
    ring
  have hright : ((n * 2 ^ q.toNat * 10 ^ (-k).toNat : ℕ) : ℚ)
      = n * 2 ^ q * (10 ^ (-k).toNat * 2 ^ (-q).toNat) := by
    push_cast
    rw [pow_toNat_eq (by norm_num : (2 : ℚ) ≠ 0) q]
    ring
  rw [compareBinary, ← cmp_eq_compare, ← cmp_eq_compare, ← Nat.strictMono_cast.cmp_map_eq (β := ℚ),
    hleft, hright, cmp_mul_pos_right hpos]

/-- The interval holds what lies between its ends, which belong to it or not. -/
theorem holds_iff : r.holds d k = true ↔ if r.closed = true
    then r.low ≤ d * 10 ^ k ∧ (d : ℚ) * 10 ^ k ≤ r.high
    else r.low < d * 10 ^ k ∧ (d : ℚ) * 10 ^ k < r.high := by
  simp only [holds, compareBinary_eq]
  split
  · rw [Bool.and_eq_true_iff, Ordering.isGE_iff_ne_lt, Ordering.isLE_iff_ne_gt]
    exact and_congr compare_ge_iff_ge compare_le_iff_le
  · rw [Bool.and_eq_true_iff, Ordering.isGT_iff_eq_gt, Ordering.isLT_iff_eq_lt]
    exact and_congr compare_gt_iff_gt compare_lt_iff_lt

theorem mem_of_holds (h : r.holds d k = true) :
    r.low ≤ d * 10 ^ k ∧ (d : ℚ) * 10 ^ k ≤ r.high := by
  rw [holds_iff] at h
  split at h
  · exact h
  · exact ⟨h.1.le, h.2.le⟩

theorem holds_of_mem (hlow : r.low < d * 10 ^ k) (hhigh : (d : ℚ) * 10 ^ k < r.high) :
    r.holds d k = true := by
  rw [holds_iff]
  split
  · exact ⟨hlow.le, hhigh.le⟩
  · exact ⟨hlow, hhigh⟩

/-! ## Grids -/

/-- The number lies in the cell of its grid that starts at the point found. -/
theorem floorOnGrid_bounds (r : RoundingInterval) (k : ℤ) :
    (r.floorOnGrid k : ℚ) * 10 ^ k ≤ r.center ∧ r.center < (r.floorOnGrid k + 1 : ℕ) * 10 ^ k := by
  have hpos : (0 : ℚ) < 10 ^ (-k).toNat * 2 ^ (-r.exponent).toNat := by positivity
  have hcell : 0 < 10 ^ k.toNat * 2 ^ (-r.exponent).toNat := by positivity
  have hnum : ((r.value * 2 ^ r.exponent.toNat * 10 ^ (-k).toNat : ℕ) : ℚ)
      = r.center * (10 ^ (-k).toNat * 2 ^ (-r.exponent).toNat) := by
    push_cast
    rw [center, pow_toNat_eq (by norm_num : (2 : ℚ) ≠ 0) r.exponent]
    ring
  have hden (d : ℕ) : ((d * (10 ^ k.toNat * 2 ^ (-r.exponent).toNat) : ℕ) : ℚ)
      = d * 10 ^ k * (10 ^ (-k).toNat * 2 ^ (-r.exponent).toNat) := by
    push_cast
    rw [pow_toNat_eq (by norm_num : (10 : ℚ) ≠ 0) k]
    ring
  constructor
  · refine le_of_mul_le_mul_right ?_ hpos
    rw [← hden, ← hnum, Nat.cast_le]
    exact Nat.div_mul_le_self _ _
  · refine lt_of_mul_lt_mul_right ?_ hpos.le
    rw [← hden, ← hnum, Nat.cast_lt]
    exact Nat.lt_mul_of_div_lt (Nat.lt_succ_self _) hcell

theorem holds_of_onGrid? {tie : Tie} (h : r.onGrid? tie k = some d) : r.holds d k = true := by
  unfold onGrid? at h
  dsimp only at h
  split at h
  · cases h
  · next hd _ =>
    rwa [← Option.some.inj h]
  · next hd =>
    rwa [← Option.some.inj h]
  · next hd hd' =>
    split at h
    · rwa [← Option.some.inj h]
    · rwa [← Option.some.inj h]
    · split at h
      · rwa [← Option.some.inj h]
      · split at h
        · rwa [← Option.some.inj h]
        · rwa [← Option.some.inj h]

/-- One of the neighbours of the number lies in the interval. -/
theorem isSome_onGrid?_of_or (tie : Tie)
    (h : r.holds (r.floorOnGrid k) k = true ∨ r.holds (r.floorOnGrid k + 1) k = true) :
    (r.onGrid? tie k).isSome = true := by
  unfold onGrid?
  dsimp only
  split
  · next h₀ h₁ =>
    rw [h₀, h₁] at h
    simp at h
  · rfl
  · rfl
  · split
    · rfl
    · rfl
    · cases tie <;> rfl

/-- A grid that is as fine as the lower half of the interval has a point in it. -/
theorem isSome_onGrid? (tie : Tie) (hlow : (10 : ℚ) ^ k ≤ r.center - r.low)
    (hhigh : r.center < r.high) : (r.onGrid? tie k).isSome = true := by
  obtain ⟨hfloor, hcell⟩ := r.floorOnGrid_bounds k
  refine isSome_onGrid?_of_or tie (.inl (holds_of_mem ?_ (hfloor.trans_lt hhigh)))
  push_cast at hcell
  linarith

/-- If any point of the grid lies strictly between the ends, a neighbour of the number does. -/
theorem isSome_onGrid?_of_mem (tie : Tie) (hlow : r.low < r.center) (hhigh : r.center < r.high)
    (hd : r.low < d * 10 ^ k) (hd' : (d : ℚ) * 10 ^ k < r.high) :
    (r.onGrid? tie k).isSome = true := by
  obtain ⟨hfloor, hcell⟩ := r.floorOnGrid_bounds k
  have hpos : (0 : ℚ) < 10 ^ k := by positivity
  refine isSome_onGrid?_of_or tie ?_
  obtain hle | hlt := le_or_gt d (r.floorOnGrid k)
  · left
    refine holds_of_mem (hd.trans_le ?_) (hfloor.trans_lt hhigh)
    gcongr
  · right
    refine holds_of_mem (hlow.trans hcell) (lt_of_le_of_lt ?_ hd')
    gcongr
    exact hlt

/-- Of the grids with a point in the interval the search stops on one that is no finer than the
others. -/
theorem search_holds {tie : Tie} {n : ℕ} {k : ℤ} {j : ℕ} (hj : j < n)
    (h : (r.onGrid? tie (k - j)).isSome = true) :
    r.holds (r.search tie n k).digits (r.search tie n k).exponent = true
      ∧ k - j ≤ (r.search tie n k).exponent ∧ (r.search tie n k).exponent ≤ k := by
  induction n generalizing k j with
  | zero => exact absurd hj (Nat.not_lt_zero j)
  | succ n ih =>
    rw [search]
    split
    · next d hd => exact ⟨holds_of_onGrid? hd, sub_le_self k (Int.natCast_nonneg j), le_rfl⟩
    · next hnone =>
      cases j with
      | zero =>
        rw [Nat.cast_zero, sub_zero, hnone] at h
        cases h
      | succ j =>
        have hk : k - (j + 1 : ℕ) = k - 1 - j := by push_cast; ring
        rw [hk] at h
        obtain ⟨hholds, hlow, hhigh⟩ := ih (Nat.lt_of_succ_lt_succ hj) h
        refine ⟨hholds, ?_, ?_⟩
        · push_cast
          omega
        · omega

/-! ## Doubles -/

/-- What the twentieth grid below a double is needed for: it is finer than a quarter of a unit in
the last place. -/
theorem ten_zpow_le (n : ℕ) (hn : n ≤ 1074) :
    (10 : ℚ) ^ ((53 - n : ℤ) * 1234 / 4096 + 1 - 19) ≤ 2 ^ (-n - 2 : ℤ) := by
  have hnat : ∀ n : ℕ, n < 1075 → 2 ^ (n + 2) ≤ 10 ^ (18 - (53 - n : ℤ) * 1234 / 4096).toNat
      ∧ 0 ≤ 18 - (53 - n : ℤ) * 1234 / 4096 := by decide +kernel
  obtain ⟨hpow, hsign⟩ := hnat n (Nat.lt_succ_of_le hn)
  have hten : (53 - n : ℤ) * 1234 / 4096 + 1 - 19
      = -((18 - (53 - n : ℤ) * 1234 / 4096).toNat : ℤ) := by
    rw [Int.toNat_of_nonneg hsign]
    ring
  have htwo : (-n - 2 : ℤ) = -((n + 2 : ℕ) : ℤ) := by
    push_cast
    ring
  rw [hten, htwo, zpow_neg, zpow_neg, zpow_natCast, zpow_natCast]
  exact inv_anti₀ (by positivity) (by exact_mod_cast hpow)

section

variable {m : ℕ} {e : ℤ}

theorem center_ofBinary (m : ℕ) (e : ℤ) : (ofBinary .binary64 m e).center = m * 2 ^ e := by
  have htwo : (2 : ℚ) ^ e = 4 * 2 ^ (e - 2) := by
    rw [zpow_sub₀ two_ne_zero]
    ring
  simp only [center, ofBinary]
  rw [htwo]
  push_cast
  ring

/-- The interval reaches half a unit in the last place above the number. -/
theorem high_ofBinary (m : ℕ) (e : ℤ) :
    (ofBinary .binary64 m e).high = (ofBinary .binary64 m e).center + 2 * 2 ^ (e - 2) := by
  simp only [high, center, ofBinary]
  push_cast
  ring

/-- Below the number it reaches half a unit, or a quarter if the next number is that near. -/
theorem low_ofBinary_bounds (hm : 0 < m) (e : ℤ) :
    (ofBinary .binary64 m e).center - 2 * 2 ^ (e - 2) ≤ (ofBinary .binary64 m e).low
      ∧ (ofBinary .binary64 m e).low ≤ (ofBinary .binary64 m e).center - 2 ^ (e - 2) := by
  have hpos := two_zpow_pos (e - 2)
  simp only [low, center, ofBinary]
  split <;> rw [Nat.cast_sub (by omega)] <;> push_cast <;> constructor <;> linarith

theorem topExponent_ofBinary (hm : 2 ^ 52 ≤ m) (hm' : m < 2 ^ 53) (e : ℤ) :
    (ofBinary .binary64 m e).topExponent = (53 + e) * 1234 / 4096 + 1 := by
  have hlog : (ofBinary .binary64 m e).value.log2 = 54 := by
    simp only [ofBinary]
    rw [Nat.log2_eq_iff (by omega)]
    omega
  rw [topExponent, hlog]
  simp only [ofBinary]
  congr 3
  push_cast
  ring

/-- The decimal with the fewest digits is nearer to a double than the next double. -/
theorem abs_shortest_sub_le (tie : Tie) (hm : 2 ^ 52 ≤ m) (hm' : m < 2 ^ 53) (he : -1074 ≤ e)
    (he' : e ≤ 0) :
    |((ofBinary .binary64 m e).shortest tie).value - m * 2 ^ e| ≤ 2 ^ (e - 1)
      ∧ (53 + e) * 1234 / 4096 - 18 ≤ ((ofBinary .binary64 m e).shortest tie).exponent := by
  obtain ⟨n, rfl⟩ : ∃ n : ℕ, e = -n := ⟨(-e).toNat, by omega⟩
  have hcenter := center_ofBinary m (-n)
  have hhigh := high_ofBinary m (-n)
  have hlow := low_ofBinary_bounds (Nat.lt_of_lt_of_le (by decide) hm) (-n)
  have htop := topExponent_ofBinary hm hm' (-n)
  rw [← sub_eq_add_neg] at htop
  set r := ofBinary .binary64 m (-n)
  have hpos := two_zpow_pos (-n - 2)
  have hgrid : (r.onGrid? tie (r.topExponent - (19 : ℕ))).isSome = true := by
    refine isSome_onGrid? tie ?_ (by linarith)
    rw [htop]
    exact (ten_zpow_le n (by omega)).trans (by linarith)
  obtain ⟨hholds, hfine, -⟩ := search_holds (by decide : 19 < 20) hgrid
  obtain ⟨h₀, h₁⟩ := mem_of_holds hholds
  refine ⟨?_, ?_⟩
  · have hhalf : (2 : ℚ) ^ (-n - 1 : ℤ) = 2 * 2 ^ (-n - 2 : ℤ) := by
      rw [← zpow_one_add₀ two_ne_zero]
      congr 1
      ring
    rw [← hcenter, hhalf, abs_le, Decimal.value, shortest]
    constructor <;> linarith
  · rw [htop] at hfine
    rw [shortest, htop]
    push_cast at hfine
    rw [← sub_eq_add_neg]
    omega

end

end RoundingInterval

end VectorGraphics
