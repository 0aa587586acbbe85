import Mathlib.Analysis.Normed.Affine.AddTorsor
import Mathlib.Analysis.SpecialFunctions.Complex.Arg
import Mathlib.Analysis.SpecialFunctions.Trigonometric.Complex

/-!
# Arcs of ellipses

An arc is given by its ends, the half-axes and the angle of its ellipse, and two flags that choose
one of the arcs there are (`Ellipse.DrawsArc`). Half-axes that are too small to reach from one end
to the other are scaled up until they do (`Ellipse.fitted`).

Two points of an ellipse are no farther apart than its longer axis (`Ellipse.abs_point_sub_le`). So
an arc stays near its start, unless its half-axes have been scaled up. In that case it is half of
an ellipse around the middle of its ends (`Ellipse.drawsArc_iff_of_strained`), and a box that
contains its ends contains all of it if and only if it contains the corner `Ellipse.bow`
(`Ellipse.forall_drawsArc_iff`).
-/

open Real

namespace VectorGraphics

/-- A vector turned by an angle. -/
noncomputable def turn (φ : ℝ) (v : ℝ × ℝ) : ℝ × ℝ :=
  (v.1 * cos φ - v.2 * sin φ, v.1 * sin φ + v.2 * cos φ)

theorem turn_neg_turn (φ : ℝ) (v : ℝ × ℝ) : turn (-φ) (turn φ v) = v := by
  have h := sin_sq_add_cos_sq φ
  ext
  · simp only [turn, cos_neg, sin_neg]
    linear_combination v.1 * h
  · simp only [turn, cos_neg, sin_neg]
    linear_combination v.2 * h

theorem turn_turn_neg (φ : ℝ) (v : ℝ × ℝ) : turn φ (turn (-φ) v) = v := by
  have h := turn_neg_turn (-φ) v
  rwa [neg_neg] at h

theorem sq_turn (φ : ℝ) (v : ℝ × ℝ) : (turn φ v).1 ^ 2 + (turn φ v).2 ^ 2 = v.1 ^ 2 + v.2 ^ 2 := by
  simp only [turn]
  linear_combination (v.1 ^ 2 + v.2 ^ 2) * sin_sq_add_cos_sq φ

/-- Two coordinates of a point on the unit circle are the cosine and the sine of an angle. -/
theorem exists_cos_sin {x y : ℝ} (h : x ^ 2 + y ^ 2 = 1) : ∃ θ, cos θ = x ∧ sin θ = y := by
  have hnorm : ‖(⟨x, y⟩ : ℂ)‖ = 1 := by
    rw [Complex.norm_def, Complex.normSq_mk, ← sq, ← sq, h, sqrt_one]
  have hne : (⟨x, y⟩ : ℂ) ≠ 0 := fun hzero => by
    rw [hzero, norm_zero] at hnorm
    exact zero_ne_one hnorm
  refine ⟨Complex.arg ⟨x, y⟩, ?_, ?_⟩
  · rw [Complex.cos_arg hne, hnorm, div_one]
  · rw [Complex.sin_arg, hnorm, div_one]

theorem sin_eq_zero_of_cos_eq {δ : ℝ} (h : cos δ = -1) : sin δ = 0 := by
  have hsq := sin_sq_add_cos_sq δ
  rw [h] at hsq
  nlinarith

theorem midpoint_eq (p q : ℝ × ℝ) :
    midpoint ℝ p q = ((p.1 + q.1) / 2, (p.2 + q.2) / 2) := by
  rw [midpoint_eq_smul_add]
  ext <;> simp only [invOf_eq_inv, Prod.smul_fst, Prod.smul_snd, Prod.fst_add, Prod.snd_add,
    smul_eq_mul] <;> ring

theorem sub_midpoint (p q : ℝ × ℝ) :
    p - midpoint ℝ p q = ((p.1 - q.1) / 2, (p.2 - q.2) / 2) := by
  rw [midpoint_eq]
  ext <;> simp only [Prod.fst_sub, Prod.snd_sub] <;> ring

/-- The half-axes of an ellipse, and the angle of the first one to the x axis. -/
structure Ellipse where
  radiusX : ℝ
  radiusY : ℝ
  angle : ℝ

namespace Ellipse

variable (e : Ellipse) (start stop : ℝ × ℝ)

/-- A point of the ellipse around a center. -/
noncomputable def point (center : ℝ × ℝ) (θ : ℝ) : ℝ × ℝ :=
  center + turn e.angle (e.radiusX * cos θ, e.radiusY * sin θ)

/-- The way from the middle of two points to the first one, in the directions of the axes. -/
noncomputable def halfChord : ℝ × ℝ := turn (-e.angle) (start - midpoint ℝ start stop)

/-- The square of the factor by which the half-axes have to be scaled to reach from one point just
to the other. -/
noncomputable def strain : ℝ :=
  ((e.halfChord start stop).1 / e.radiusX) ^ 2 + ((e.halfChord start stop).2 / e.radiusY) ^ 2

/-- The ellipse with half-axes that are long enough to reach from one point to the other. -/
noncomputable def fitted : Ellipse where
  radiusX := max 1 √(e.strain start stop) * |e.radiusX|
  radiusY := max 1 √(e.strain start stop) * |e.radiusY|
  angle := e.angle

/-- A point of the arc with the given flags from one point to another: large arcs go at least half
around the ellipse, clockwise ones in the direction of growing angles. -/
def DrawsArc (large clockwise : Bool) (p : ℝ × ℝ) : Prop :=
  ∃ center θ δ, (e.fitted start stop).point center θ = start
    ∧ (e.fitted start stop).point center (θ + δ) = stop
    ∧ (if clockwise then 0 ≤ δ else δ ≤ 0) ∧ |δ| < 2 • π ∧ (if large then π ≤ |δ| else |δ| ≤ π)
    ∧ ∃ u ∈ Set.Icc (0 : ℝ) 1, p = (e.fitted start stop).point center (θ + u * δ)

/-! ## How far an ellipse reaches -/

theorem abs_turn_le {M : ℝ} (hx : |e.radiusX| ≤ M) (hy : |e.radiusY| ≤ M) (φ θ : ℝ) :
    |(turn φ (e.radiusX * cos θ, e.radiusY * sin θ)).1| ≤ M
      ∧ |(turn φ (e.radiusX * cos θ, e.radiusY * sin θ)).2| ≤ M := by
  have hM : 0 ≤ M := (abs_nonneg _).trans hx
  have hsq := sq_turn φ (e.radiusX * cos θ, e.radiusY * sin θ)
  have hbound : (e.radiusX * cos θ) ^ 2 + (e.radiusY * sin θ) ^ 2 ≤ M ^ 2 := by
    have hx := sq_le_sq' (abs_le.1 hx).1 (abs_le.1 hx).2
    have hy := sq_le_sq' (abs_le.1 hy).1 (abs_le.1 hy).2
    nlinarith [sin_sq_add_cos_sq θ, sq_nonneg (cos θ), sq_nonneg (sin θ)]
  generalize turn φ (e.radiusX * cos θ, e.radiusY * sin θ) = v at hsq ⊢
  exact ⟨abs_le_of_sq_le_sq (by nlinarith [sq_nonneg v.2]) hM,
    abs_le_of_sq_le_sq (by nlinarith [sq_nonneg v.1]) hM⟩

/-- Two points of an ellipse are no farther apart than its longer axis. -/
theorem abs_point_sub_le {M : ℝ} (hx : |e.radiusX| ≤ M) (hy : |e.radiusY| ≤ M) (c : ℝ × ℝ)
    (θ θ' : ℝ) : |(e.point c θ).1 - (e.point c θ').1| ≤ 2 * M
      ∧ |(e.point c θ).2 - (e.point c θ').2| ≤ 2 * M := by
  obtain ⟨h₁, h₂⟩ := e.abs_turn_le hx hy e.angle θ
  obtain ⟨h₁', h₂'⟩ := e.abs_turn_le hx hy e.angle θ'
  simp only [point, Prod.fst_add, Prod.snd_add]
  constructor
  · rw [abs_le] at h₁ h₁' ⊢
    constructor <;> linarith
  · rw [abs_le] at h₂ h₂' ⊢
    constructor <;> linarith

/-! ## Half of an ellipse -/

/-- Half of the axis that is conjugate to the chord of two points. -/
noncomputable def conjugate : ℝ × ℝ :=
  turn e.angle (-(|e.radiusX| / |e.radiusY| * (e.halfChord start stop).2),
    |e.radiusY| / |e.radiusX| * (e.halfChord start stop).1)

/-- The point of the ellipse around the middle of two points that it reaches just, by its angle from
the first one. -/
noncomputable def onHalf (t : ℝ) : ℝ × ℝ :=
  midpoint ℝ start stop + cos t • (start - midpoint ℝ start stop)
    + sin t • e.conjugate start stop

theorem onHalf_eq (t : ℝ) : e.onHalf start stop t
    = ((start.1 + stop.1) / 2 + (start.1 - stop.1) / 2 * cos t
        + (e.conjugate start stop).1 * sin t,
      (start.2 + stop.2) / 2 + (start.2 - stop.2) / 2 * cos t
        + (e.conjugate start stop).2 * sin t) := by
  rw [onHalf, sub_midpoint, midpoint_eq]
  ext <;> simp only [Prod.fst_add, Prod.snd_add, Prod.smul_fst, Prod.smul_snd, smul_eq_mul] <;> ring

section

variable {e start stop} {c : ℝ × ℝ} {θ δ : ℝ}

/-- The chord of two points of an ellipse, in the directions of the axes. -/
theorem halfChord_of_point (hstart : e.point c θ = start) (hstop : e.point c (θ + δ) = stop) :
    e.halfChord start stop = (e.radiusX * (cos θ - cos (θ + δ)) / 2,
      e.radiusY * (sin θ - sin (θ + δ)) / 2) := by
  have hchord : start - midpoint ℝ start stop
      = turn e.angle (e.radiusX * (cos θ - cos (θ + δ)) / 2,
        e.radiusY * (sin θ - sin (θ + δ)) / 2) := by
    rw [sub_midpoint, ← hstart, ← hstop]
    ext <;> simp only [point, turn, Prod.fst_add, Prod.snd_add] <;> ring
  rw [halfChord, hchord, turn_neg_turn]

/-- Two points that an ellipse reaches just lie on opposite sides of it. -/
theorem cos_eq_of_strain (hx : e.radiusX ≠ 0) (hy : e.radiusY ≠ 0)
    (h : e.strain start stop = 1) (hstart : e.point c θ = start)
    (hstop : e.point c (θ + δ) = stop) : cos δ = -1 := by
  rw [strain, halfChord_of_point hstart hstop] at h
  have hcos := sin_sq_add_cos_sq θ
  have hcos' := sin_sq_add_cos_sq (θ + δ)
  have hδ := cos_sub (θ + δ) θ
  rw [add_sub_cancel_left] at hδ
  field_simp at h
  linear_combination hδ - 1 / 2 * h + 1 / 2 * hcos + 1 / 2 * hcos'

/-- The way from one of two points to the other that lies opposite. -/
theorem point_add (hx : 0 < e.radiusX) (hy : 0 < e.radiusY) (hstart : e.point c θ = start)
    (hstop : e.point c (θ + δ) = stop) (hδ : cos δ = -1) (t : ℝ) :
    e.point c (θ + t) = e.onHalf start stop t := by
  have hsin := sin_eq_zero_of_cos_eq hδ
  have hchord := halfChord_of_point hstart hstop
  rw [cos_add, sin_add, hδ, hsin] at hchord
  rw [onHalf_eq, conjugate, hchord, abs_of_pos hx, abs_of_pos hy, ← hstart, ← hstop]
  ext
  · simp only [point, turn, Prod.fst_add, cos_add, sin_add, hδ, hsin]
    field_simp
    ring
  · simp only [point, turn, Prod.snd_add, cos_add, sin_add, hδ, hsin]
    field_simp
    ring

/-- An ellipse that reaches just from one point to another goes through both, if its center is in
the middle. -/
theorem exists_point (hx : e.radiusX ≠ 0) (hy : e.radiusY ≠ 0) (h : e.strain start stop = 1) :
    ∃ c θ, e.point c θ = start ∧ ∀ δ, cos δ = -1 → e.point c (θ + δ) = stop := by
  obtain ⟨θ, hcos, hsin⟩ := exists_cos_sin h
  have hhalf : turn e.angle (e.radiusX * cos θ, e.radiusY * sin θ)
      = ((start.1 - stop.1) / 2, (start.2 - stop.2) / 2) := by
    rw [hcos, hsin, mul_div_cancel₀ _ hx, mul_div_cancel₀ _ hy, ← sub_midpoint]
    exact turn_turn_neg _ _
  refine ⟨((start.1 + stop.1) / 2, (start.2 + stop.2) / 2), θ, ?_, fun δ hδ => ?_⟩
  · rw [point, hhalf]
    ext
    · simp only [Prod.fst_add]
      ring
    · simp only [Prod.snd_add]
      ring
  · have hsinδ : sin δ = 0 := sin_eq_zero_of_cos_eq hδ
    have hopposite : turn e.angle (e.radiusX * cos (θ + δ), e.radiusY * sin (θ + δ))
        = -turn e.angle (e.radiusX * cos θ, e.radiusY * sin θ) := by
      rw [cos_add, sin_add, hδ, hsinδ]
      ext <;> simp only [turn, Prod.fst_neg, Prod.snd_neg] <;> ring
    rw [point, hopposite, hhalf]
    ext
    · simp only [Prod.fst_add, Prod.fst_neg]
      ring
    · simp only [Prod.snd_add, Prod.snd_neg]
      ring

end

/-! ## Half-axes that have been scaled up -/

/-- The half-axes are too small to reach from one point to the other. -/
def Strained : Prop := 1 < e.strain start stop

/-- The angle over which an arc goes that is half of an ellipse. -/
noncomputable def halfTurn (clockwise : Bool) : ℝ := if clockwise then π else -π

section

variable {e start stop}

theorem fitted_of_not_strained (h : ¬e.Strained start stop) :
    e.fitted start stop = ⟨|e.radiusX|, |e.radiusY|, e.angle⟩ := by
  rw [fitted, max_eq_left (sqrt_le_one.2 (not_lt.1 h)), one_mul, one_mul]

theorem fitted_pos (hx : e.radiusX ≠ 0) (hy : e.radiusY ≠ 0) :
    0 < (e.fitted start stop).radiusX ∧ 0 < (e.fitted start stop).radiusY := by
  have hs : 0 < max 1 √(e.strain start stop) := lt_max_of_lt_left one_pos
  exact ⟨mul_pos hs (abs_pos.2 hx), mul_pos hs (abs_pos.2 hy)⟩

/-- Half-axes that have been scaled up reach just from one point to the other. -/
theorem Strained.strain_fitted (h : e.Strained start stop) :
    (e.fitted start stop).strain start stop = 1 := by
  have hs : √(e.strain start stop) ^ 2 = e.strain start stop := sq_sqrt (one_pos.trans h).le
  have hmax : max 1 √(e.strain start stop) = √(e.strain start stop) :=
    max_eq_right (one_le_sqrt.2 h.le)
  have hhalf : (e.fitted start stop).halfChord start stop = e.halfChord start stop := rfl
  rw [strain, hhalf]
  simp only [fitted, hmax, mul_comm √_, ← div_div, div_pow, sq_abs, hs]
  rw [← add_div, ← div_pow, ← div_pow]
  exact div_self (one_pos.trans h).ne'

theorem conjugate_fitted : (e.fitted start stop).conjugate start stop = e.conjugate start stop := by
  have hs : max 1 √(e.strain start stop) ≠ 0 := (lt_max_of_lt_left one_pos).ne'
  have hhalf : (e.fitted start stop).halfChord start stop = e.halfChord start stop := rfl
  rw [conjugate, conjugate, hhalf]
  simp only [fitted, abs_mul, abs_abs, mul_div_mul_left _ _ (abs_ne_zero.2 hs)]

theorem cos_halfTurn (clockwise : Bool) : cos (halfTurn clockwise) = -1 := by
  cases clockwise
  · exact (cos_neg π).trans cos_pi
  · exact cos_pi

theorem abs_halfTurn (clockwise : Bool) : |halfTurn clockwise| = π := by
  cases clockwise
  · exact (abs_neg π).trans (abs_of_pos pi_pos)
  · exact abs_of_pos pi_pos

theorem eq_halfTurn {clockwise : Bool} {δ : ℝ} (hδ : cos δ = -1) (habs : |δ| < 2 • π)
    (hsign : if clockwise then 0 ≤ δ else δ ≤ 0) : δ = halfTurn clockwise := by
  have hpi := pi_pos
  rw [two_nsmul] at habs
  have heq : |δ| = π := by
    obtain ⟨k, hk⟩ := cos_eq_neg_one_iff.1 ((cos_abs δ).trans hδ)
    have hlow : (-1 : ℝ) < k := by nlinarith [abs_nonneg δ]
    have hhigh : (k : ℝ) < 1 := by nlinarith
    obtain rfl : k = 0 := by
      have hlow : (-1 : ℤ) < k := by exact_mod_cast hlow
      have hhigh : k < 1 := by exact_mod_cast hhigh
      omega
    rw [← hk, Int.cast_zero, zero_mul, add_zero]
  cases clockwise with
  | true => exact (abs_of_nonneg hsign).symm.trans heq
  | false => exact (neg_eq_iff_eq_neg.1 ((abs_of_nonpos hsign).symm.trans heq))

/-- **Arcs with half-axes that are too small** are halves of an ellipse. -/
theorem Strained.drawsArc_iff (h : e.Strained start stop) (hx : e.radiusX ≠ 0)
    (hy : e.radiusY ≠ 0) {large clockwise : Bool} {p : ℝ × ℝ} :
    e.DrawsArc start stop large clockwise p
      ↔ ∃ u ∈ Set.Icc (0 : ℝ) 1, p = e.onHalf start stop (u * halfTurn clockwise) := by
  obtain ⟨hX, hY⟩ : 0 < (e.fitted start stop).radiusX ∧ 0 < (e.fitted start stop).radiusY :=
    fitted_pos hx hy
  have hhalf (t : ℝ) : (e.fitted start stop).onHalf start stop t = e.onHalf start stop t := by
    rw [onHalf, onHalf, conjugate_fitted]
  constructor
  · rintro ⟨c, θ, δ, hstart, hstop, hsign, habs, -, u, hu, rfl⟩
    have hcos := cos_eq_of_strain hX.ne' hY.ne' h.strain_fitted hstart hstop
    rw [point_add hX hY hstart hstop hcos, hhalf, eq_halfTurn hcos habs hsign]
    exact ⟨u, hu, rfl⟩
  · rintro ⟨u, hu, rfl⟩
    obtain ⟨c, θ, hstart, hstop⟩ := exists_point hX.ne' hY.ne' h.strain_fitted
    have hcos := cos_halfTurn clockwise
    refine ⟨c, θ, halfTurn clockwise, hstart, hstop _ hcos, ?_, ?_, ?_, u, hu, ?_⟩
    · cases clockwise
      · exact neg_nonpos.2 pi_pos.le
      · exact pi_pos.le
    · rw [abs_halfTurn, two_nsmul]
      linarith [pi_pos]
    · rw [abs_halfTurn]
      cases large <;> exact le_rfl
    · rw [point_add hX hY hstart (hstop _ hcos) hcos, hhalf]

end

end Ellipse

/-! ## How far half of an ellipse reaches -/

/-- The farthest coordinate on half of an ellipse around `middle`, on the side of `w`: its ends are
`h` away from the middle, and its vertex is `w` away. -/
noncomputable def farthest (middle h w : ℝ) : ℝ :=
  if 0 ≤ w then middle + √(h ^ 2 + w ^ 2) else middle - √(h ^ 2 + w ^ 2)

/-- On half of an ellipse no coordinate is farther away than the farthest one. -/
theorem abs_mul_cos_add_mul_sin_le (h w t : ℝ) : |h * cos t + w * sin t| ≤ √(h ^ 2 + w ^ 2) := by
  refine abs_le_sqrt ?_
  nlinarith [sin_sq_add_cos_sq t, sq_nonneg (h * sin t - w * cos t)]

/-- Half of an ellipse reaches its farthest coordinate. -/
theorem exists_eq_sqrt (h : ℝ) {w : ℝ} (hw : 0 ≤ w) :
    ∃ t ∈ Set.Icc 0 π, h * cos t + w * sin t = √(h ^ 2 + w ^ 2) := by
  obtain hzero | hpos := (sqrt_nonneg (h ^ 2 + w ^ 2)).eq_or_lt
  · have hsum := (sqrt_eq_zero (by positivity)).1 hzero.symm
    have hh : h = 0 := by nlinarith [sq_nonneg w]
    exact ⟨0, ⟨le_rfl, pi_pos.le⟩, by rw [← hzero, hh, sin_zero]; ring⟩
  · set r := √(h ^ 2 + w ^ 2) with hr
    have hsq : r ^ 2 = h ^ 2 + w ^ 2 := sq_sqrt (by positivity)
    have habs : |h / r| ≤ 1 := by
      rw [abs_div, abs_of_pos hpos, div_le_one hpos]
      exact abs_le_sqrt (by nlinarith [sq_nonneg w])
    have hsin : sin (arccos (h / r)) = w / r := by
      have hrest : 1 - (h / r) ^ 2 = (w / r) ^ 2 := by
        field_simp
        linarith
      rw [sin_arccos, hrest, sqrt_sq (div_nonneg hw hpos.le)]
    refine ⟨arccos (h / r), ⟨arccos_nonneg _, arccos_le_pi _⟩, ?_⟩
    rw [cos_arccos (abs_le.1 habs).1 (abs_le.1 habs).2, hsin]
    field_simp
    linarith

/-- An interval that contains the ends of half of an ellipse contains all of it if and only if it
contains the farthest coordinate. -/
theorem forall_mem_Icc_iff_farthest {low high middle h w : ℝ} (hlow : low ≤ middle - |h|)
    (hhigh : middle + |h| ≤ high) :
    (∀ t ∈ Set.Icc 0 π, middle + h * cos t + w * sin t ∈ Set.Icc low high)
      ↔ farthest middle h w ∈ Set.Icc low high := by
  unfold farthest
  constructor
  · intro hall
    split_ifs with hw
    · obtain ⟨t, ht, heq⟩ := exists_eq_sqrt h hw
      have hmem := hall t ht
      rwa [add_assoc, heq] at hmem
    · obtain ⟨t, ht, heq⟩ := exists_eq_sqrt (-h) (neg_nonneg.2 (not_le.1 hw).le)
      have hfarthest : middle - √(h ^ 2 + w ^ 2) = middle + h * cos t + w * sin t := by
        rw [neg_sq, neg_sq] at heq
        linarith
      rw [hfarthest]
      exact hall t ht
  · intro hmem t ht
    have hsin := sin_nonneg_of_mem_Icc ht
    have habs := abs_le.1 (abs_mul_cos_add_mul_sin_le h w t)
    have hcos : |h * cos t| ≤ |h| := by
      rw [abs_mul]
      exact mul_le_of_le_one_right (abs_nonneg h) (abs_cos_le_one t)
    obtain ⟨hcosLow, hcosHigh⟩ := abs_le.1 hcos
    split_ifs at hmem with hw
    · have hside := mul_nonneg hw hsin
      exact ⟨by linarith, by linarith [hmem.2]⟩
    · have hside := mul_nonneg_of_nonpos_of_nonpos (not_le.1 hw).le (neg_nonpos.2 hsin)
      exact ⟨by linarith [hmem.1], by linarith⟩

theorem sub_abs_le_add_abs {low high a b : ℝ} (ha : a ∈ Set.Icc low high)
    (hb : b ∈ Set.Icc low high) :
    low ≤ (a + b) / 2 - |(a - b) / 2| ∧ (a + b) / 2 + |(a - b) / 2| ≤ high := by
  obtain ⟨ha, ha'⟩ := ha
  obtain ⟨hb, hb'⟩ := hb
  obtain h | h := abs_cases ((a - b) / 2) <;> constructor <;> linarith

namespace Ellipse

variable (e : Ellipse) (start stop : ℝ × ℝ)

/-- Half of the axis that is conjugate to the chord, on the side on which an arc runs that is half
of the ellipse. -/
noncomputable def side (clockwise : Bool) : ℝ × ℝ :=
  if clockwise then e.conjugate start stop else -e.conjugate start stop

/-- The corner of a box around an arc that is half of an ellipse. -/
noncomputable def bow (clockwise : Bool) : ℝ × ℝ :=
  (farthest (midpoint ℝ start stop).1 (start - midpoint ℝ start stop).1
      (e.side start stop clockwise).1,
    farthest (midpoint ℝ start stop).2 (start - midpoint ℝ start stop).2
      (e.side start stop clockwise).2)

theorem bow_eq (clockwise : Bool) : e.bow start stop clockwise
    = (farthest ((start.1 + stop.1) / 2) ((start.1 - stop.1) / 2) (e.side start stop clockwise).1,
      farthest ((start.2 + stop.2) / 2) ((start.2 - stop.2) / 2)
        (e.side start stop clockwise).2) := by
  rw [bow, sub_midpoint, midpoint_eq]

theorem onHalf_mul_halfTurn (clockwise : Bool) (u : ℝ) :
    e.onHalf start stop (u * halfTurn clockwise)
      = ((start.1 + stop.1) / 2 + (start.1 - stop.1) / 2 * cos (u * π)
          + (e.side start stop clockwise).1 * sin (u * π),
        (start.2 + stop.2) / 2 + (start.2 - stop.2) / 2 * cos (u * π)
          + (e.side start stop clockwise).2 * sin (u * π)) := by
  cases clockwise with
  | true => exact e.onHalf_eq start stop _
  | false =>
    simp only [onHalf_eq, halfTurn, side, Bool.false_eq_true, if_false, mul_neg, cos_neg, sin_neg,
      neg_mul, Prod.fst_neg, Prod.snd_neg]

variable {e start stop}

/-- **A box around half of an ellipse.** A box that contains the ends of an arc with half-axes that
are too small contains all of it if and only if it contains the corner at its bow. -/
theorem Strained.forall_drawsArc_iff (h : e.Strained start stop) (hx : e.radiusX ≠ 0)
    (hy : e.radiusY ≠ 0) {large clockwise : Bool} {low high : ℝ × ℝ}
    (hstart : start ∈ Set.Icc low high) (hstop : stop ∈ Set.Icc low high) :
    (∀ p, e.DrawsArc start stop large clockwise p → p ∈ Set.Icc low high)
      ↔ e.bow start stop clockwise ∈ Set.Icc low high := by
  rw [← Prod.mk.eta (p := low), ← Prod.mk.eta (p := high), ← Set.Icc_prod_Icc] at *
  obtain ⟨hlowX, hhighX⟩ := sub_abs_le_add_abs hstart.1 hstop.1
  obtain ⟨hlowY, hhighY⟩ := sub_abs_le_add_abs hstart.2 hstop.2
  rw [Set.mem_prod, bow_eq, ← forall_mem_Icc_iff_farthest hlowX hhighX,
    ← forall_mem_Icc_iff_farthest hlowY hhighY]
  have hangle {t : ℝ} (ht : t ∈ Set.Icc 0 π) : t / π ∈ Set.Icc (0 : ℝ) 1 :=
    ⟨div_nonneg ht.1 pi_pos.le, div_le_one_of_le₀ ht.2 pi_pos.le⟩
  constructor
  · intro hall
    have hpoint {t : ℝ} (ht : t ∈ Set.Icc 0 π) := hall _ ((h.drawsArc_iff hx hy).2
      ⟨t / π, hangle ht, rfl⟩)
    simp only [onHalf_mul_halfTurn, div_mul_cancel₀ _ pi_ne_zero] at hpoint
    exact ⟨fun t ht => (hpoint ht).1, fun t ht => (hpoint ht).2⟩
  · rintro ⟨hallX, hallY⟩ p hp
    obtain ⟨u, hu, rfl⟩ := (h.drawsArc_iff hx hy).1 hp
    have ht : u * π ∈ Set.Icc 0 π :=
      ⟨mul_nonneg hu.1 pi_pos.le, mul_le_of_le_one_left pi_pos.le hu.2⟩
    rw [onHalf_mul_halfTurn]
    exact ⟨hallX _ ht, hallY _ ht⟩

/-- Other arcs reach no farther from their start than the longer axis. -/
theorem abs_sub_le_of_drawsArc (h : ¬e.Strained start stop) {large clockwise : Bool} {p : ℝ × ℝ}
    (hp : e.DrawsArc start stop large clockwise p) :
    |p.1 - start.1| ≤ 2 * max |e.radiusX| |e.radiusY|
      ∧ |p.2 - start.2| ≤ 2 * max |e.radiusX| |e.radiusY| := by
  obtain ⟨c, θ, δ, hstart, -, -, -, -, u, -, rfl⟩ := hp
  have hreach := (e.fitted start stop).abs_point_sub_le
    (M := max |e.radiusX| |e.radiusY|) (by simp [fitted_of_not_strained h])
    (by simp [fitted_of_not_strained h]) c (θ + u * δ) θ
  rwa [hstart] at hreach

end Ellipse

end VectorGraphics
