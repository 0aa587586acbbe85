import VectorGraphics.Geometry.Point
import VectorGraphics.Proofs.Number.Values

/-!
# Bézier curves and circles

A `PolynomialCurve` is a curve of the plane with polynomial coordinates, such as the Bézier curve
with given control points (`bezier`). How far it strays from a circle (`strays`) cannot be more
than at its ends and where its distance to the center turns (`strays_le_iff`). These are at most
`2 n + 1` parameters for a curve of degree `n` (`card_turns_le`).
-/

open Polynomial

namespace VectorGraphics

/-- A curve of the plane with polynomial coordinates, drawn over the parameters from 0 to 1. -/
structure PolynomialCurve where
  x : ℝ[X]
  y : ℝ[X]

/-! ## Bézier curves -/

/-- A coordinate of the Bézier curve whose control points have the coordinates `cs`. -/
noncomputable def bezierCoordinate (cs : List ℝ) : ℝ[X] :=
  ∑ i : Fin cs.length, C (cs.get i) * bernsteinPolynomial ℝ (cs.length - 1) i

/-- The Bézier curve with the given control points, ends included. -/
noncomputable def bezier (points : List Point) : PolynomialCurve where
  x := bezierCoordinate (points.map fun p => p.x.value)
  y := bezierCoordinate (points.map fun p => p.y.value)

theorem bezier_eq (points : List Point) (xs ys : List ℚ) (hx : points.map (·.x.value) = xs)
    (hy : points.map (·.y.value) = ys) : bezier points
      = ⟨bezierCoordinate (xs.map ((↑) : ℚ → ℝ)), bezierCoordinate (ys.map ((↑) : ℚ → ℝ))⟩ := by
  rw [← hx, ← hy, List.map_map, List.map_map]
  rfl

theorem eval_bezierCoordinate_quadratic (a b c u : ℝ) :
    (bezierCoordinate [a, b, c]).eval u
      = a * (1 - u) ^ 2 + b * (2 * u * (1 - u)) + c * u ^ 2 := by
  simp [bezierCoordinate, bernsteinPolynomial, Fin.sum_univ_three]

theorem eval_bezierCoordinate_cubic (a b c d u : ℝ) :
    (bezierCoordinate [a, b, c, d]).eval u
      = a * (1 - u) ^ 3 + b * (3 * (1 - u) ^ 2 * u) + c * (3 * (1 - u) * u ^ 2) + d * u ^ 3 := by
  simp [bezierCoordinate, bernsteinPolynomial, Fin.sum_univ_four]
  ring

theorem natDegree_bernsteinPolynomial_le {n i : ℕ} (h : i ≤ n) :
    (bernsteinPolynomial ℝ n i).natDegree ≤ n := by
  rw [bernsteinPolynomial]
  compute_degree
  omega

theorem natDegree_bezierCoordinate_le (cs : List ℝ) :
    (bezierCoordinate cs).natDegree ≤ cs.length - 1 := by
  refine natDegree_sum_le_of_forall_le _ _ fun i _ => ?_
  exact (natDegree_C_mul_le _ _).trans
    (natDegree_bernsteinPolynomial_le (Nat.le_sub_one_of_lt i.isLt))

theorem eval_zero_bezierCoordinate (c : ℝ) (cs : List ℝ) :
    (bezierCoordinate (c :: cs)).eval 0 = c := by
  simp [bezierCoordinate, eval_finsetSum, bernsteinPolynomial.eval_at_0, Fin.sum_univ_succ]

/-- A curve does not leave a convex set that its control points are in. -/
theorem eval_bezierCoordinate_mem {s : Set ℝ} {u : ℝ} {cs : List ℝ} (hs : Convex ℝ s)
    (h : ∀ c ∈ cs, c ∈ s) (hcs : cs ≠ []) (hu : u ∈ Set.Icc (0 : ℝ) 1) :
    (bezierCoordinate cs).eval u ∈ s := by
  have hnonneg (n i : ℕ) : 0 ≤ (bernsteinPolynomial ℝ n i).eval u := by
    have := hu.1
    have := sub_nonneg.2 hu.2
    simp only [bernsteinPolynomial, eval_mul, eval_natCast, eval_pow, eval_X, eval_sub, eval_one]
    positivity
  have hsum : ∑ i : Fin cs.length, (bernsteinPolynomial ℝ (cs.length - 1) i).eval u = 1 := by
    have hone := congrArg (eval u) (bernsteinPolynomial.sum ℝ (cs.length - 1))
    rw [Nat.sub_add_cancel (List.length_pos_iff.2 hcs), eval_finsetSum, eval_one] at hone
    rw [← hone, Finset.sum_range]
  have hmem := hs.sum_mem (fun (i : Fin cs.length) _ => hnonneg (cs.length - 1) i) hsum
    fun i _ => h _ (List.get_mem cs i)
  rw [bezierCoordinate, eval_finsetSum]
  simpa only [eval_mul, eval_C, smul_eq_mul, mul_comm] using hmem

theorem abs_eval_bezierCoordinate_le {M u : ℝ} {cs : List ℝ} (h : ∀ c ∈ cs, |c| ≤ M)
    (hcs : cs ≠ []) (hu : u ∈ Set.Icc (0 : ℝ) 1) : |(bezierCoordinate cs).eval u| ≤ M :=
  abs_le.2 (eval_bezierCoordinate_mem (convex_Icc (-M) M) (fun c hc => abs_le.1 (h c hc)) hcs hu)

/-! ## Distances from a circle -/

namespace PolynomialCurve

variable (c : PolynomialCurve) (center : Point)

/-- The squared distance from a point. -/
noncomputable def squaredDistance : ℝ[X] :=
  (c.x - C (center.x.value : ℝ)) ^ 2 + (c.y - C (center.y.value : ℝ)) ^ 2

/-- The distance of the curve at the parameter `u` from the circle about `center`. -/
noncomputable def strays (radius : Single) (u : ℝ) : ℝ :=
  |√((c.squaredDistance center).eval u) - radius.value|

/-- The ends of the curve, and the parameters between them at which its distance to `center` may
turn from growing to shrinking or back. -/
noncomputable def turns : Finset ℝ :=
  insert 0 (insert 1 (derivative (c.squaredDistance center)).roots.toFinset) |>.filter
    (· ∈ Set.Icc 0 1)

variable {c center}

theorem eval_squaredDistance (u : ℝ) : (c.squaredDistance center).eval u
    = (c.x.eval u - center.x.value) ^ 2 + (c.y.eval u - center.y.value) ^ 2 := by
  simp [squaredDistance]

theorem zero_mem_turns : 0 ∈ c.turns center := by simp [turns]

theorem one_mem_turns : 1 ∈ c.turns center := by simp [turns]

theorem mem_Icc_of_mem_turns {u : ℝ} (hu : u ∈ c.turns center) : u ∈ Set.Icc (0 : ℝ) 1 :=
  (Finset.mem_filter.1 hu).2

/-- A curve of degree `n` has no more than `2 n - 1` turns between its ends. -/
theorem card_turns_le {n : ℕ} (hx : c.x.natDegree ≤ n) (hy : c.y.natDegree ≤ n) (hn : 0 < n) :
    (c.turns center).card ≤ 2 * n + 1 := by
  have hdegree : (derivative (c.squaredDistance center)).natDegree ≤ 2 * n - 1 := by
    have hle : (c.squaredDistance center).natDegree ≤ 2 * n := by
      rw [squaredDistance]
      compute_degree
      omega
    exact (natDegree_derivative_le _).trans (Nat.sub_le_sub_right hle 1)
  have hroots := (Multiset.toFinset_card_le _).trans
    ((card_roots' (derivative (c.squaredDistance center))).trans hdegree)
  have hzero := Finset.card_insert_le (0 : ℝ)
    (insert 1 (derivative (c.squaredDistance center)).roots.toFinset)
  have hone := Finset.card_insert_le (1 : ℝ)
    (derivative (c.squaredDistance center)).roots.toFinset
  exact (Finset.card_filter_le _ _).trans (by omega)

/-- Where the distance is extreme, it is as large as at a turn. -/
theorem exists_turn_eq {u : ℝ} (hu : u ∈ Set.Icc (0 : ℝ) 1)
    (h : IsExtrOn (fun v => (c.squaredDistance center).eval v) (Set.Icc 0 1) u) :
    ∃ v ∈ c.turns center,
      (c.squaredDistance center).eval v = (c.squaredDistance center).eval u := by
  obtain rfl | h₀ := hu.1.eq_or_lt
  · exact ⟨0, zero_mem_turns, rfl⟩
  obtain rfl | h₁ := hu.2.eq_or_lt
  · exact ⟨1, one_mem_turns, rfl⟩
  have hderiv : (derivative (c.squaredDistance center)).eval u = 0 := by
    rw [← Polynomial.deriv]
    exact (h.isLocalExtr (Icc_mem_nhds h₀ h₁)).deriv_eq_zero
  by_cases hzero : derivative (c.squaredDistance center) = 0
  · -- the distance is the same everywhere, so that no root has to be taken
    have hconst := eq_C_of_derivative_eq_zero hzero
    refine ⟨0, zero_mem_turns, ?_⟩
    rw [hconst, eval_C, eval_C]
  · refine ⟨u, ?_, rfl⟩
    rw [turns, Finset.mem_filter, Finset.mem_insert, Finset.mem_insert, Multiset.mem_toFinset,
      mem_roots hzero]
    exact ⟨.inr (.inr hderiv), hu⟩

/-- A curve stays as near to a circle as its ends do and the points where its distance to the
center turns. -/
theorem strays_le_iff {radius : Single} {bound : ℝ} :
    (∀ u ∈ Set.Icc (0 : ℝ) 1, c.strays center radius u ≤ bound)
      ↔ ∀ u ∈ c.turns center, c.strays center radius u ≤ bound := by
  refine ⟨fun h u hu => h u (mem_Icc_of_mem_turns hu), fun h u hu => ?_⟩
  have hcontinuous : ContinuousOn (fun v => (c.squaredDistance center).eval v) (Set.Icc 0 1) :=
    (c.squaredDistance center).continuous.continuousOn
  have hnonempty : (Set.Icc (0 : ℝ) 1).Nonempty := Set.nonempty_Icc.2 zero_le_one
  obtain ⟨v, hv, hmin⟩ := isCompact_Icc.exists_isMinOn hnonempty hcontinuous
  obtain ⟨w, hw, hmax⟩ := isCompact_Icc.exists_isMaxOn hnonempty hcontinuous
  obtain ⟨v', hv', hveq⟩ := exists_turn_eq hv (.inl hmin)
  obtain ⟨w', hw', hweq⟩ := exists_turn_eq hw (.inr hmax)
  have hlow := (abs_le.1 (h v' hv')).1
  have hhigh := (abs_le.1 (h w' hw')).2
  have hvu := Real.sqrt_le_sqrt (hveq.trans_le (hmin hu))
  have huw := Real.sqrt_le_sqrt ((hmax hu).trans hweq.ge)
  exact abs_le.2 ⟨by linarith, by linarith⟩

end PolynomialCurve

end VectorGraphics
