import VectorGraphics.Proofs.Number.Precision

/-!
# The distance between representable numbers

Two different representable numbers lie apart, compared to their size
(`Representable.abs_le_mul_abs_sub`). A number lies in a cell with representable ends, and what else
is representable stays away from these (`exists_cell`). So if the numbers that round to `d` leave
out about half of `δ` to both sides of it, a cell is about as wide as `δ`
(`exists_cell_width_near`).
-/

namespace VectorGraphics.Rounding

variable {f : Float.Model.Format} {x y d : ℚ}

/-- A magnitude with an exponent is a multiple of every smaller power of two. -/
theorem exists_eq_intCast_mul {m : ℕ} {e i : ℤ} (hx : |x| = m * 2 ^ e) (hi : i ≤ e) :
    ∃ z : ℤ, x = z * 2 ^ i := by
  rw [two_zpow_natCast_sub hi, ← mul_assoc] at hx
  obtain h | h := abs_choice x
  · refine ⟨(m * 2 ^ (e - i).toNat : ℕ), ?_⟩
    push_cast
    exact h.symm.trans hx
  · refine ⟨-(m * 2 ^ (e - i).toNat : ℕ), ?_⟩
    push_cast
    rw [neg_mul, ← hx, h, neg_neg]

/-- Different multiples of a power of two lie apart by that power. -/
theorem two_zpow_le_abs_sub {a b i : ℤ} (h : (a * 2 ^ i : ℚ) ≠ b * 2 ^ i) :
    (2 : ℚ) ^ i ≤ |(a : ℚ) * 2 ^ i - b * 2 ^ i| := by
  have hne : a - b ≠ 0 := fun hzero => h (by rw [sub_eq_zero.1 hzero])
  have hone : (1 : ℚ) ≤ |((a - b : ℤ) : ℚ)| := by exact_mod_cast Int.one_le_abs hne
  rw [← sub_mul, abs_mul, abs_of_pos (two_zpow_pos i), ← Int.cast_sub]
  exact le_mul_of_one_le_left (two_zpow_pos i).le hone

/-- A representable number other than zero is no smaller than the smallest of them. -/
theorem Representable.two_zpow_le_abs (hx : Representable f x) (hne : x ≠ 0) :
    (2 : ℚ) ^ f.minExponent ≤ |x| := by
  obtain ⟨m, e, -, he, hx⟩ := hx
  have hm : (1 : ℚ) ≤ m := by
    have : m ≠ 0 := by
      rintro rfl
      rw [Nat.cast_zero, zero_mul] at hx
      exact hne (abs_eq_zero.1 hx)
    exact_mod_cast Nat.one_le_iff_ne_zero.2 this
  calc (2 : ℚ) ^ f.minExponent ≤ 2 ^ e := zpow_le_zpow_right₀ one_le_two he
    _ ≤ m * 2 ^ e := le_mul_of_one_le_left (two_zpow_pos e).le hm
    _ = |x| := hx.symm

/-- A representable number with a fraction is less than the mantissas go. -/
theorem Representable.abs_lt_of_ne_int (hx : Representable f x) (hne : ∀ n : ℤ, x ≠ n) :
    |x| < 2 ^ f.mantissaBits := by
  obtain ⟨m, e, hm, -, hx⟩ := hx
  obtain he | he := le_or_gt 0 e
  · obtain ⟨z, hz⟩ := exists_eq_intCast_mul hx he
    exact absurd (hz.trans (by rw [zpow_zero, mul_one])) (hne z)
  · have hm : (m : ℚ) < 2 ^ f.mantissaBits := by exact_mod_cast hm
    calc |x| = m * 2 ^ e := hx
      _ ≤ m * 1 := mul_le_mul_of_nonneg_left (zpow_le_one_of_nonpos₀ one_le_two he.le)
          (Nat.cast_nonneg m)
      _ < 2 ^ f.mantissaBits := by rwa [mul_one]

/-- Different representable numbers lie apart, compared to their size. -/
theorem Representable.abs_le_mul_abs_sub (hx : Representable f x) (hy : Representable f y)
    (hne : x ≠ y) : |x| ≤ 2 ^ (f.mantissaBits + 1) * |x - y| := by
  obtain ⟨m, e, hm, -, hx⟩ := hx
  obtain ⟨n, k, hn, -, hy⟩ := hy
  obtain ⟨i, hi⟩ : ∃ i, i = min e k := ⟨_, rfl⟩
  obtain ⟨a, ha⟩ := exists_eq_intCast_mul hx (hi ▸ min_le_left e k)
  obtain ⟨b, hb⟩ := exists_eq_intCast_mul hy (hi ▸ min_le_right e k)
  have happart : (2 : ℚ) ^ i ≤ |x - y| := by
    rw [ha, hb] at hne ⊢
    exact two_zpow_le_abs_sub hne
  -- one of the two is short enough for the exponent they have in common
  have hshort {l : ℕ} (hl : l < 2 ^ f.mantissaBits) :
      (l : ℚ) * 2 ^ i ≤ 2 ^ f.mantissaBits * |x - y| := by
    have hl : (l : ℚ) ≤ 2 ^ f.mantissaBits := by exact_mod_cast hl.le
    exact mul_le_mul hl happart (two_zpow_pos i).le (by positivity)
  have hone : |x - y| ≤ 2 ^ f.mantissaBits * |x - y| :=
    le_mul_of_one_le_left (abs_nonneg _) (one_le_pow₀ one_le_two)
  have hdouble : (2 : ℚ) ^ (f.mantissaBits + 1) * |x - y|
      = 2 ^ f.mantissaBits * |x - y| + 2 ^ f.mantissaBits * |x - y| := by
    rw [pow_succ]
    ring
  rw [hdouble]
  obtain hmin | hmin := min_choice e k
  · have := hshort hm
    rw [hi, hmin, ← hx] at this
    linarith [abs_nonneg (x - y)]
  · have := hshort hn
    rw [hi, hmin, ← hy] at this
    linarith [abs_sub_abs_le_abs_sub x y]

theorem mantissaBits_eq (f : Float.Model.Format) :
    f.mantissaBits = f.mantissaBitsWithoutImplicit + 1 :=
  Nat.add_comm _ _

/-- A positive number is a number of units that a mantissa counts, but for less than a unit. The
mantissa is full, or the unit the smallest. -/
theorem exists_floor (f : Float.Model.Format) (hd : 0 < d) :
    ∃ (a : ℕ) (j : ℤ), f.minExponent ≤ j ∧ a * 2 ^ j ≤ d ∧ d < (a + 1) * 2 ^ j
      ∧ a + 1 ≤ 2 ^ f.mantissaBits
      ∧ (f.minExponent < j → 2 ^ f.mantissaBitsWithoutImplicit ≤ a) := by
  -- the exponent at which the mantissa of the number is full
  obtain ⟨j, hj⟩ : ∃ j, j = max (Int.log 2 d + 1 - f.mantissaBits) f.minExponent := ⟨_, rfl⟩
  have hmin : f.minExponent ≤ j := hj ▸ le_max_right _ _
  have hpos := two_zpow_pos j
  have hbits := mantissaBits_eq f
  obtain ⟨a, ha⟩ : ∃ a, a = ⌊d / 2 ^ j⌋₊ := ⟨_, rfl⟩
  have hlow : (a : ℚ) ≤ d / 2 ^ j := ha ▸ Nat.floor_le (div_pos hd hpos).le
  have hhigh : d / 2 ^ j < a + 1 := ha ▸ Nat.lt_floor_add_one _
  rw [le_div_iff₀ hpos] at hlow
  rw [div_lt_iff₀ hpos] at hhigh
  have hshort : a + 1 ≤ 2 ^ f.mantissaBits := by
    have hlog : d < 2 ^ (Int.log 2 d + 1) := by
      exact_mod_cast Int.lt_zpow_succ_log_self one_lt_two d
    have hlt : (a : ℚ) * 2 ^ j < 2 ^ f.mantissaBits * 2 ^ j := by
      calc (a : ℚ) * 2 ^ j ≤ d := hlow
        _ < 2 ^ (Int.log 2 d + 1) := hlog
        _ ≤ 2 ^ (f.mantissaBits + j : ℤ) := zpow_le_zpow_right₀ one_le_two (by omega)
        _ = 2 ^ f.mantissaBits * 2 ^ j := by rw [zpow_add₀ two_ne_zero, zpow_natCast]
    exact_mod_cast lt_of_mul_lt_mul_right hlt hpos.le
  have hfull (h : f.minExponent < j) : 2 ^ f.mantissaBitsWithoutImplicit ≤ a := by
    have hlog : (2 : ℚ) ^ Int.log 2 d ≤ d := by exact_mod_cast Int.zpow_log_le_self one_lt_two hd
    have hlt : (2 : ℚ) ^ f.mantissaBitsWithoutImplicit * 2 ^ j < (a + 1) * 2 ^ j := by
      calc (2 : ℚ) ^ f.mantissaBitsWithoutImplicit * 2 ^ j
          = 2 ^ (f.mantissaBitsWithoutImplicit + j : ℤ) := by
            rw [zpow_add₀ two_ne_zero, zpow_natCast]
        _ ≤ 2 ^ Int.log 2 d := zpow_le_zpow_right₀ one_le_two (by omega)
        _ ≤ d := hlog
        _ < (a + 1) * 2 ^ j := hhigh
    exact Nat.lt_succ_iff.1 (by exact_mod_cast lt_of_mul_lt_mul_right hlt hpos.le)
  exact ⟨a, j, hmin, hlow, hhigh, hshort, hfull⟩

/-- What is representable stays half a cell away from the ends of a cell with a full mantissa. -/
theorem Representable.cell_cases (hx : Representable f x) {a : ℕ} {j : ℤ}
    (hfull : f.minExponent < j → 2 ^ f.mantissaBitsWithoutImplicit ≤ a) :
    x ≤ (a - 1 / 2) * 2 ^ j ∨ x = a * 2 ^ j ∨ x = (a + 1) * 2 ^ j ∨ (a + 2) * 2 ^ j ≤ x := by
  obtain ⟨m, e, hm, he, hx⟩ := hx
  have hpos := two_zpow_pos j
  obtain hle | hlt := le_or_gt j e
  · -- the multiples of the width of the cell
    obtain ⟨z, rfl⟩ := exists_eq_intCast_mul hx hle
    have hcases : z + 1 ≤ a ∨ z = a ∨ z = a + 1 ∨ a + 2 ≤ z := by omega
    obtain h | rfl | rfl | h := hcases
    · left
      have h : (z : ℚ) + 1 ≤ a := by exact_mod_cast h
      exact mul_le_mul_of_nonneg_right (by linarith) hpos.le
    · right; left
      rw [Int.cast_natCast]
    · right; right; left
      push_cast
      rfl
    · right; right; right
      have h : (a : ℚ) + 2 ≤ z := by exact_mod_cast h
      exact mul_le_mul_of_nonneg_right h hpos.le
  · -- what has a smaller exponent does not reach the cell
    left
    have hfull : (2 : ℚ) ^ f.mantissaBitsWithoutImplicit ≤ a := by
      exact_mod_cast hfull (he.trans_lt hlt)
    have hm : (m : ℚ) ≤ 2 * 2 ^ f.mantissaBitsWithoutImplicit - 1 := by
      rw [mantissaBits_eq, pow_succ] at hm
      have : m + 1 ≤ 2 * 2 ^ f.mantissaBitsWithoutImplicit := by omega
      rw [le_sub_iff_add_le]
      exact_mod_cast this
    calc x ≤ |x| := le_abs_self x
      _ = m * 2 ^ e := hx
      _ ≤ (2 * a - 1) * 2 ^ (j - 1) :=
        mul_le_mul (by linarith) (zpow_le_zpow_right₀ one_le_two (by omega))
          (two_zpow_pos e).le (by linarith [(Nat.cast_nonneg m : (0 : ℚ) ≤ m)])
      _ = (a - 1 / 2) * 2 ^ j := by
        rw [zpow_sub_one₀ two_ne_zero]
        ring

/-- A positive number lies in a cell with representable ends. What else is representable is at least
half a cell away from them. -/
theorem exists_cell (f : Float.Model.Format) (hd : 0 < d) :
    ∃ (a : ℕ) (j : ℤ), f.minExponent ≤ j ∧ a * 2 ^ j ≤ d ∧ d < (a + 1) * 2 ^ j
      ∧ Representable f (a * 2 ^ j) ∧ Representable f ((a + 1) * 2 ^ j)
      ∧ ∀ x, Representable f x → x ≤ (a - 1 / 2) * 2 ^ j ∨ x = a * 2 ^ j ∨ x = (a + 1) * 2 ^ j
        ∨ (a + 2) * 2 ^ j ≤ x := by
  obtain ⟨a, j, hmin, hlow, hhigh, hshort, hfull⟩ := exists_floor f hd
  refine ⟨a, j, hmin, hlow, hhigh, ?_, ?_, fun x hx => hx.cell_cases hfull⟩
  · exact_mod_cast representable_intCast_mul (n := a) (by omega) hmin
  · exact_mod_cast representable_intCast_mul (n := a + 1) (by omega) hmin

/-- If a representable number lies half of `δ` away from a positive number, and so does the nearest
one, which is another, then the cell is as wide as `δ`, and the number is not its end. -/
theorem exists_cell_width_near_of_pos (hd : 0 < d) (hx : Representable f x)
    (hy : Representable f y) (hnearest : ∀ c, Representable f c → |y - d| ≤ |c - d|) (hne : x ≠ y)
    (δ η : ℚ) (hη : 8 * η < δ) (hx' : |x - d| ≤ δ / 2 + η) (hy' : δ / 2 - η ≤ |y - d|) :
    ∃ j, f.minExponent ≤ j ∧ |2 ^ j - δ| ≤ 2 * η ∧ ∀ z : ℤ, d ≠ z * 2 ^ j := by
  obtain ⟨a, j, hj, hlow, hhigh, ha, ha', hcell⟩ := exists_cell f hd
  have hpow := two_zpow_pos j
  have hδ : 0 < δ := by linarith [abs_nonneg (x - d)]
  have hupper : (a + 1 : ℚ) * 2 ^ j = a * 2 ^ j + 2 ^ j := by ring
  have hbelow : (a - 1 / 2 : ℚ) * 2 ^ j = a * 2 ^ j - 2 ^ j / 2 := by ring
  have habove : (a + 2 : ℚ) * 2 ^ j = a * 2 ^ j + 2 * 2 ^ j := by ring
  rw [hbelow, hupper, habove] at hcell
  -- the nearest number leaves half of `δ` out to both sides
  have hleft := hnearest _ ha
  have hright := hnearest _ ha'
  rw [hupper] at hright hhigh
  rw [abs_of_nonpos (sub_nonpos.2 hlow)] at hleft
  rw [abs_of_nonneg (sub_nonneg.2 hhigh.le)] at hright
  have hyx := hnearest x hx
  have hend {c : ℚ} (hc : Representable f c) (h : |c - d| ≤ δ / 2 + η) :
      c = a * 2 ^ j ∨ c = a * 2 ^ j + 2 ^ j := by
    obtain ⟨h₀, h₁⟩ := abs_le.1 h
    obtain hout | h | h | hout := hcell c hc
    · exfalso
      linarith
    · exact .inl h
    · exact .inr h
    · exfalso
      linarith
  refine ⟨j, hj, ?_, fun z hz => ?_⟩
  · have hwidth : 2 ^ j ≤ |x - d| + |y - d| := by
      have hdiff : |x - y| ≤ |x - d| + |y - d| := by
        rw [abs_sub_comm y]
        exact abs_sub_le x d y
      refine le_trans ?_ hdiff
      obtain h | h := hend hx hx' <;> obtain h' | h' := hend hy (hyx.trans hx')
      · exact absurd (h.trans h'.symm) hne
      · rw [h, h', sub_add_cancel_left, abs_neg, abs_of_pos hpow]
      · rw [h, h', add_sub_cancel_left, abs_of_pos hpow]
      · exact absurd (h.trans h'.symm) hne
    rw [abs_le]
    constructor <;> linarith
  · -- a multiple of the width of the cell in it is its lower end, and the number itself nearest
    rw [hz] at hlow hhigh
    have hlow : (a : ℚ) ≤ z := le_of_mul_le_mul_right hlow hpow
    have hhigh : (z : ℚ) < a + 1 := lt_of_mul_lt_mul_right (by rwa [hupper]) hpow.le
    have hza : z = a := by
      have hlow : (a : ℤ) ≤ z := by exact_mod_cast hlow
      have hhigh : z < a + 1 := by exact_mod_cast hhigh
      omega
    have hda : d = a * 2 ^ j := by rw [hz, hza, Int.cast_natCast]
    linarith

/-- If a representable number lies half of `δ` away from a number, and so does the nearest one,
which is another, then a cell is as wide as `δ`, and the number is no end of a cell. -/
theorem exists_cell_width_near (hd : d ≠ 0) (hx : Representable f x) (hy : Representable f y)
    (hnearest : ∀ c, Representable f c → |y - d| ≤ |c - d|) (hne : x ≠ y) (δ η : ℚ)
    (hη : 8 * η < δ) (hx' : |x - d| ≤ δ / 2 + η) (hy' : δ / 2 - η ≤ |y - d|) :
    ∃ j, f.minExponent ≤ j ∧ |2 ^ j - δ| ≤ 2 * η ∧ ∀ z : ℤ, d ≠ z * 2 ^ j := by
  obtain hneg | hpos := hd.lt_or_gt
  · have hflip (c : ℚ) : |-c - -d| = |c - d| := by rw [neg_sub_neg, abs_sub_comm]
    have hnearest (c : ℚ) (hc : Representable f c) : |-y - -d| ≤ |c - -d| := by
      rw [hflip, ← neg_neg c, hflip]
      exact hnearest (-c) hc.neg
    obtain ⟨j, hj, hwidth, hends⟩ := exists_cell_width_near_of_pos (neg_pos.2 hneg) hx.neg hy.neg
      hnearest (fun h => hne (neg_inj.1 h)) δ η hη (by rwa [hflip]) (by rwa [hflip])
    refine ⟨j, hj, hwidth, fun z hz => hends (-z) ?_⟩
    rw [hz]
    push_cast
    ring
  · exact exists_cell_width_near_of_pos hpos hx hy hnearest hne δ η hη hx' hy'

end VectorGraphics.Rounding
