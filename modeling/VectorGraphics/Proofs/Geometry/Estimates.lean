import VectorGraphics.Geometry.Point
import VectorGraphics.Proofs.Number.Errors

/-!
# Estimates of coordinates

While points are computed with, errors are counted in roundings of the largest coordinate `M` in
sight: a number that `Estimates M n y` is off from the real number `y` by at most `n` of them, if
it is finite at all. Each operation adds what its operands are off by and a few roundings of its
own; a number that is finite in the end was finite all along, so that nothing has to be known of
the sizes of what is computed on the way.
-/

namespace VectorGraphics

/-! ## Counting roundings -/

theorem roundoff_pos (y : ℝ) : 0 < roundoff y := by
  have : (0 : ℝ) < 2 ^ (-150 : ℤ) := zpow_pos two_pos _
  have : (0 : ℝ) ≤ 2 ^ (-24 : ℤ) * |y| := by positivity
  rw [roundoff]
  linarith

/-- Rounding what is near a number `k` times as large as `M`. -/
theorem roundoff_le {M k n s t : ℝ} (hM : 0 ≤ M) (hk : 1 ≤ k) (hsize : |t| ≤ k * M)
    (hn : n ≤ 2 ^ 24) (h : |s - t| ≤ n * roundoff M) : roundoff s ≤ (k + 1) * roundoff M := by
  have hpos := roundoff_pos M
  have hs : |s| ≤ k * M + 2 ^ 24 * roundoff M := by
    have := abs_sub_abs_le_abs_sub s t
    have : n * roundoff M ≤ 2 ^ 24 * roundoff M := by gcongr
    linarith
  have hk : (2 : ℝ) ^ (-150 : ℤ) ≤ k * 2 ^ (-150 : ℤ) := le_mul_of_one_le_left (by positivity) hk
  calc roundoff s = 2 ^ (-24 : ℤ) * |s| + 2 ^ (-150 : ℤ) := rfl
    _ ≤ 2 ^ (-24 : ℤ) * (k * M + 2 ^ 24 * roundoff M) + k * 2 ^ (-150 : ℤ) := by gcongr
    _ = k * (2 ^ (-24 : ℤ) * |M| + 2 ^ (-150 : ℤ)) + roundoff M := by
      rw [abs_of_nonneg hM]
      norm_num
      ring
    _ = (k + 1) * roundoff M := by rw [← roundoff]; ring

/-- A result that is rounded is off by what the operands are off by, and by the rounding. -/
theorem abs_sub_le_of_rounded {M k n r s t : ℝ} (hM : 0 ≤ M) (hk : 1 ≤ k) (hsize : |t| ≤ k * M)
    (hn : n ≤ 2 ^ 24) (hoperands : |s - t| ≤ n * roundoff M) (hresult : |r - s| ≤ roundoff s) :
    |r - t| ≤ (n + (k + 1)) * roundoff M := by
  have := abs_sub_le r s t
  linarith [roundoff_le hM hk hsize hn hoperands]

/-- The number is off from `y` by at most `n` roundings of `M`, unless it is not finite. -/
def Single.Estimates (M n : ℝ) (x : Single) (y : ℝ) : Prop :=
  x.isFinite = true → |(x.value : ℝ) - y| ≤ n * roundoff M

/-- The lengths of two vectors differ by no more than their coordinates together. -/
theorem abs_length_sub_length_le (a b c d : ℝ) :
    |√(a * a + b * b) - √(c * c + d * d)| ≤ |a - c| + |b - d| := by
  have hnorm (x y : ℝ) : √(x * x + y * y) = ‖(⟨x, y⟩ : ℂ)‖ :=
    (Complex.norm_def ⟨x, y⟩).symm
  rw [hnorm, hnorm]
  exact (abs_norm_sub_norm_le _ _).trans (Complex.norm_le_abs_re_add_abs_im _)

namespace Single.Estimates

variable {M k m n a b v : ℝ} {x y w : Single}

theorem self (x : Single) : x.Estimates M 0 x.value := fun _ => by
  rw [sub_self, abs_zero, zero_mul]

theorem mono (h : x.Estimates M m a) (hmn : m ≤ n) : x.Estimates M n a := fun hx =>
  (h hx).trans (mul_le_mul_of_nonneg_right hmn (roundoff_pos M).le)

/-- What is estimated may be replaced by something near. -/
theorem near (h : x.Estimates M n a) (hab : |a - b| ≤ m * roundoff M) :
    x.Estimates M (n + m) b := fun hx => by
  have := abs_sub_le (x.value : ℝ) a b
  rw [add_mul]
  linarith [h hx]

theorem add (hx : x.Estimates M m a) (hy : y.Estimates M n b) (hM : 0 ≤ M) (hk : 1 ≤ k)
    (hsize : |a + b| ≤ k * M) (hmn : m + n ≤ 2 ^ 24) :
    (x + y).Estimates M (m + n + (k + 1)) (a + b) := fun h => by
  obtain ⟨hx', hy'⟩ := isFinite_of_add h
  have hoperands : |(x.value : ℝ) + y.value - (a + b)| ≤ (m + n) * roundoff M := by
    have := abs_add_le ((x.value : ℝ) - a) (y.value - b)
    rw [add_sub_add_comm, add_mul]
    linarith [hx hx', hy hy']
  exact abs_sub_le_of_rounded hM hk hsize hmn hoperands (abs_value_add_sub_le h)

theorem sub (hx : x.Estimates M m a) (hy : y.Estimates M n b) (hM : 0 ≤ M) (hk : 1 ≤ k)
    (hsize : |a - b| ≤ k * M) (hmn : m + n ≤ 2 ^ 24) :
    (x - y).Estimates M (m + n + (k + 1)) (a - b) := fun h => by
  obtain ⟨hx', hy'⟩ := isFinite_of_sub h
  have hoperands : |(x.value : ℝ) - y.value - (a - b)| ≤ (m + n) * roundoff M := by
    have := abs_sub ((x.value : ℝ) - a) (y.value - b)
    rw [sub_sub_sub_comm, add_mul]
    linarith [hx hx', hy hy']
  exact abs_sub_le_of_rounded hM hk hsize hmn hoperands (abs_value_sub_sub_le h)

/-- A product with a known weight. -/
theorem mul_weight {v : ℚ} (hx : x.Estimates M n a) (hw : w.Is v) (hv : (0 : ℝ) ≤ v) (hM : 0 ≤ M)
    (hk : 1 ≤ k) (hsize : |a * v| ≤ k * M) (hn : v * n ≤ 2 ^ 24) :
    (x * w).Estimates M (v * n + (k + 1)) (a * v) := fun h => by
  obtain ⟨hx', -⟩ := isFinite_of_mul h
  have hresult := abs_value_mul_sub_le h
  rw [hw.value_eq] at hresult
  have hoperands : |(x.value : ℝ) * v - a * v| ≤ v * n * roundoff M := by
    rw [← sub_mul, abs_mul, abs_of_nonneg hv, mul_comm, mul_assoc]
    exact mul_le_mul_of_nonneg_left (hx hx') hv
  exact abs_sub_le_of_rounded hM hk hsize hn hoperands hresult

theorem hypot (hx : x.Estimates M m a) (hy : y.Estimates M n b) (hM : 0 ≤ M) (hk : 1 ≤ k)
    (hsize : √(a * a + b * b) ≤ k * M) (hmn : m + n ≤ 2 ^ 24) :
    (Single.hypot x y).Estimates M (m + n + 2 * (k + 1)) √(a * a + b * b) := fun h => by
  obtain ⟨hx', hy'⟩ := isFinite_of_hypot h
  have hoperands : |√((x.value : ℝ) * x.value + y.value * y.value) - √(a * a + b * b)|
      ≤ (m + n) * roundoff M := by
    have := abs_length_sub_length_le x.value y.value a b
    rw [add_mul]
    linarith [hx hx', hy hy']
  have hresult := abs_value_hypot_sub_le h
  rw [← abs_of_nonneg (Real.sqrt_nonneg _)] at hsize
  have hround := roundoff_le hM hk hsize hmn hoperands
  have := abs_sub_le ((Single.hypot x y).value : ℝ) √(x.value * x.value + y.value * y.value)
    √(a * a + b * b)
  linarith

end Single.Estimates

end VectorGraphics
