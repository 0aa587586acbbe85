import VectorGraphics.Path.Arcs
import VectorGraphics.Proofs.Geometry.Beziers
import VectorGraphics.Proofs.Geometry.Estimates

/-!
# Points of the curves in a path

A single curve of a path has its control points (`Command.curvePoints?`) and the cubic curve that
is computed with (`Command.fittedCubic?`), which for a quadratic curve is the elevated one. What is
computed for a quarter of the way, or three, is a point of the Bézier curve up to a few roundings
(`estimates_pointAt`).
-/

open Polynomial

namespace VectorGraphics.Path

/-! ## The curves of a path -/

/-- The control points of a single curve drawn from `pen`, ends included. -/
def Command.curvePoints? (pen : Point) : Command → Option (List Point)
  | .draw .cubic m [g] =>
    let a := Kind.cubic.absolute m pen g
    some [pen, a.control1, a.control2, a.stop]
  | .draw .quadratic m [g] =>
    let a := Kind.quadratic.absolute m pen g
    some [pen, a.control, a.stop]
  | _ => none

/-- The cubic curve that an arc is fitted to, where the command is a single curve. -/
def Command.fittedCubic? (pen : Point) : Command → Option CubicGroup
  | .draw .cubic m [g] => some (Kind.cubic.absolute m pen g)
  | .draw .quadratic m [g] => some (elevate pen (Kind.quadratic.absolute m pen g))
  | _ => none

/-! ## Weights that are not rounded -/

/-- The weights of the control points at the parameter `t` are those at `u`. -/
structure ExactWeights (t : Single) (u : ℚ) : Prop where
  start : ((1 - t) * (1 - t) * (1 - t)).Is ((1 - u) ^ 3)
  control1 : (3 * (1 - t) * (1 - t) * t).Is (3 * (1 - u) ^ 2 * u)
  control2 : (3 * (1 - t) * t * t).Is (3 * (1 - u) * u ^ 2)
  stop : (t * t * t).Is (u ^ 3)

theorem exactWeights_quarter : ExactWeights 0.25 (1 / 4) := by
  constructor <;> decide +kernel

theorem exactWeights_threeQuarters : ExactWeights 0.75 (3 / 4) := by
  constructor <;> decide +kernel

/-! ## Coordinates -/

section

variable {M : ℝ} {t : Single} {u : ℚ}

/-- A mean of four coordinates, of which those in the middle are estimates themselves. -/
theorem estimates_mean {w₀ w₁ w₂ w₃ p q r s : Single} {v₀ v₁ v₂ v₃ : ℚ} {a b c d : ℝ}
    (hw₀ : w₀.Is v₀) (hw₁ : w₁.Is v₁) (hw₂ : w₂.Is v₂) (hw₃ : w₃.Is v₃) (h₀ : 0 ≤ v₀)
    (h₁ : 0 ≤ v₁) (h₂ : 0 ≤ v₂) (h₃ : 0 ≤ v₃) (hsum : v₀ + v₁ + v₂ + v₃ = 1)
    (hmiddle : v₁ + v₂ ≤ 3 / 4) (hM : 0 ≤ M) (hp : p.Estimates M 0 a) (hq : q.Estimates M 9 b)
    (hr : r.Estimates M 9 c) (hs : s.Estimates M 0 d) (ha : |a| ≤ M) (hb : |b| ≤ M)
    (hc : |c| ≤ M) (hd : |d| ≤ M) :
    (p * w₀ + q * w₁ + r * w₂ + s * w₃).Estimates M 21 (a * v₀ + b * v₁ + c * v₂ + d * v₃) := by
  have h₀ : (0 : ℝ) ≤ v₀ := by exact_mod_cast h₀
  have h₁ : (0 : ℝ) ≤ v₁ := by exact_mod_cast h₁
  have h₂ : (0 : ℝ) ≤ v₂ := by exact_mod_cast h₂
  have h₃ : (0 : ℝ) ≤ v₃ := by exact_mod_cast h₃
  have hsum : (v₀ : ℝ) + v₁ + v₂ + v₃ = 1 := by exact_mod_cast hsum
  have hmiddle : (v₁ : ℝ) + v₂ ≤ 3 / 4 := by
    have := (Rat.cast_le (K := ℝ)).2 hmiddle
    push_cast at this
    exact this
  have hweight {x v : ℝ} (hx : |x| ≤ M) (hv : 0 ≤ v) : |x * v| ≤ v * M := by
    rw [abs_mul, abs_of_nonneg hv, mul_comm]
    gcongr
  have hpart {x v : ℝ} (hx : |x| ≤ v * M) (hv : v ≤ 1) : |x| ≤ 1 * M := by
    refine hx.trans ?_
    gcongr
  have hp := hp.mul_weight hw₀ h₀ hM le_rfl (hpart (hweight ha h₀) (by linarith)) (by norm_num)
  have hq := hq.mul_weight hw₁ h₁ hM le_rfl (hpart (hweight hb h₁) (by linarith)) (by linarith)
  have hr := hr.mul_weight hw₂ h₂ hM le_rfl (hpart (hweight hc h₂) (by linarith)) (by linarith)
  have hs := hs.mul_weight hw₃ h₃ hM le_rfl (hpart (hweight hd h₃) (by linarith)) (by norm_num)
  have hab : |a * v₀ + b * v₁| ≤ (v₀ + v₁) * M := by
    linarith [abs_add_le (a * v₀) (b * v₁), hweight ha h₀, hweight hb h₁]
  have habc : |a * v₀ + b * v₁ + c * v₂| ≤ (v₀ + v₁ + v₂) * M := by
    linarith [abs_add_le (a * v₀ + b * v₁) (c * v₂), hweight hc h₂]
  have habcd : |a * v₀ + b * v₁ + c * v₂ + d * v₃| ≤ (v₀ + v₁ + v₂ + v₃) * M := by
    linarith [abs_add_le (a * v₀ + b * v₁ + c * v₂) (d * v₃), hweight hd h₃]
  have hpq := hp.add hq hM le_rfl (hpart hab (by linarith)) (by linarith)
  have hpqr := hpq.add hr hM le_rfl (hpart habc (by linarith)) (by linarith)
  have hpqrs := hpqr.add hs hM le_rfl (hpart habcd (by linarith)) (by linarith)
  exact hpqrs.mono (by linarith)

/-- A coordinate of a point on a cubic curve. -/
theorem estimates_cubic (hw : ExactWeights t u) (hu₀ : 0 ≤ u) (hu₁ : u ≤ 1) (hM : 0 ≤ M)
    {p q r s : Single} {a b c d : ℝ} (hp : p.Estimates M 0 a) (hq : q.Estimates M 9 b)
    (hr : r.Estimates M 9 c) (hs : s.Estimates M 0 d) (ha : |a| ≤ M) (hb : |b| ≤ M)
    (hc : |c| ≤ M) (hd : |d| ≤ M) :
    Single.Estimates M 21 (p * ((1 - t) * (1 - t) * (1 - t)) + q * (3 * (1 - t) * (1 - t) * t)
        + r * (3 * (1 - t) * t * t) + s * (t * t * t))
      ((bezierCoordinate [a, b, c, d]).eval (u : ℝ)) := by
  have hu₁' : 0 ≤ 1 - u := sub_nonneg.2 hu₁
  have h := estimates_mean hw.start hw.control1 hw.control2 hw.stop (by positivity) (by positivity)
    (by positivity) (by positivity) (by ring) (by nlinarith [sq_nonneg (2 * u - 1)]) hM hp hq hr hs
    ha hb hc hd
  push_cast at h
  rwa [eval_bezierCoordinate_cubic]

/-- A coordinate of a control point of an elevated curve. -/
theorem estimates_lerp (p q : Single) (hp : |(p.value : ℝ)| ≤ M) (hq : |(q.value : ℝ)| ≤ M) :
    (p + (q - p) * (2 / 3)).Estimates M 9 (p.value + (q.value - p.value) * (2 / 3))
      ∧ |(p.value : ℝ) + (q.value - p.value) * (2 / 3)| ≤ M := by
  have hM : 0 ≤ M := (abs_nonneg _).trans hp
  have hweight : (2 / 3 : Single).Is (11184811 / 16777216) := by decide +kernel
  have hdiff : |(q.value : ℝ) - p.value| ≤ 2 * M := by linarith [abs_sub (q.value : ℝ) p.value]
  have hsize : |(p.value : ℝ) + (q.value - p.value) * (2 / 3)| ≤ M := by
    rw [abs_le] at hp hq ⊢
    constructor <;> linarith
  refine ⟨?_, hsize⟩
  have hscaled : |((q.value : ℝ) - p.value) * (11184811 / 16777216 : ℚ)| ≤ 2 * M := by
    rw [abs_mul]
    exact (mul_le_of_le_one_right (abs_nonneg _) (by norm_num)).trans hdiff
  have hnear : |((q.value : ℝ) - p.value) * (11184811 / 16777216 : ℚ)
      - (q.value - p.value) * (2 / 3)| ≤ 1 * roundoff M := by
    have hweights : |((11184811 / 16777216 : ℚ) : ℝ) - 2 / 3| = 1 / 50331648 := by norm_num
    rw [← mul_sub, abs_mul, hweights, roundoff, abs_of_nonneg hM]
    norm_num
    linarith
  have h := ((Single.Estimates.self q).sub (.self p) hM one_le_two hdiff (by norm_num)).mul_weight
    hweight (by norm_num) hM one_le_two hscaled (by norm_num)
  have hpoint := (Single.Estimates.self p).add (h.near hnear) hM le_rfl (by rwa [one_mul])
    (by norm_num)
  exact hpoint.mono (by norm_num)

/-- A coordinate of a point on a quadratic curve that is elevated first. -/
theorem estimates_quadratic (hw : ExactWeights t u) (hu₀ : 0 ≤ u) (hu₁ : u ≤ 1) (p q r : Single)
    (hp : |(p.value : ℝ)| ≤ M) (hq : |(q.value : ℝ)| ≤ M) (hr : |(r.value : ℝ)| ≤ M) :
    Single.Estimates M 21 (p * ((1 - t) * (1 - t) * (1 - t))
        + (p + (q - p) * (2 / 3)) * (3 * (1 - t) * (1 - t) * t)
        + (r + (q - r) * (2 / 3)) * (3 * (1 - t) * t * t) + r * (t * t * t))
      ((bezierCoordinate [(p.value : ℝ), (q.value : ℝ), (r.value : ℝ)]).eval (u : ℝ)) := by
  obtain ⟨hfirst, hfirst'⟩ := estimates_lerp p q hp hq
  obtain ⟨hsecond, hsecond'⟩ := estimates_lerp r q hr hq
  have h := estimates_cubic hw hu₀ hu₁ ((abs_nonneg _).trans hp) (.self p) hfirst hsecond (.self r)
    hp hfirst' hsecond' hr
  have helevated : (bezierCoordinate [(p.value : ℝ), p.value + (q.value - p.value) * (2 / 3),
      r.value + (q.value - r.value) * (2 / 3), r.value]).eval (u : ℝ)
      = (bezierCoordinate [(p.value : ℝ), (q.value : ℝ), (r.value : ℝ)]).eval (u : ℝ) := by
    rw [eval_bezierCoordinate_cubic, eval_bezierCoordinate_quadratic]
    ring
  rwa [helevated] at h

end

/-! ## Points -/

/-- No coordinate is larger than `M`. -/
structure Point.Bounded (M : ℝ) (p : Point) : Prop where
  x : |(p.x.value : ℝ)| ≤ M
  y : |(p.y.value : ℝ)| ≤ M

/-- What is computed for a parameter with exact weights is on the curve, up to a few roundings. -/
theorem estimates_pointAt {M : ℝ} {t : Single} {u : ℚ} (hw : ExactWeights t u) (hu₀ : 0 ≤ u)
    (hu₁ : u ≤ 1) {pen : Point} {c : Command} {points : List Point} {g : CubicGroup}
    (hpoints : c.curvePoints? pen = some points) (hg : c.fittedCubic? pen = some g)
    (hM : ∀ p ∈ points, Point.Bounded M p) :
    (g.pointAt pen t).x.Estimates M 21 ((bezier points).x.eval (u : ℝ))
      ∧ (g.pointAt pen t).y.Estimates M 21 ((bezier points).y.eval (u : ℝ)) := by
  unfold Command.curvePoints? at hpoints
  split at hpoints
  · obtain rfl := Option.some.inj hpoints
    obtain rfl := Option.some.inj hg
    obtain ⟨hpen, hcontrol1, hcontrol2, hstop⟩ := by simpa using hM
    have hexact (x : Single) : x.Estimates M 9 x.value :=
      (Single.Estimates.self x).mono (by norm_num)
    have hM := (abs_nonneg _).trans hpen.x
    exact ⟨estimates_cubic hw hu₀ hu₁ hM (.self _) (hexact _) (hexact _) (.self _) hpen.x
        hcontrol1.x hcontrol2.x hstop.x,
      estimates_cubic hw hu₀ hu₁ hM (.self _) (hexact _) (hexact _) (.self _) hpen.y
        hcontrol1.y hcontrol2.y hstop.y⟩
  · obtain rfl := Option.some.inj hpoints
    obtain rfl := Option.some.inj hg
    obtain ⟨hpen, hcontrol, hstop⟩ := by simpa using hM
    exact ⟨estimates_quadratic hw hu₀ hu₁ _ _ _ hpen.x hcontrol.x hstop.x,
      estimates_quadratic hw hu₀ hu₁ _ _ _ hpen.y hcontrol.y hstop.y⟩
  · cases hpoints

end VectorGraphics.Path
