import VectorGraphics.Proofs.Path.CurvePoints
import VectorGraphics.Proofs.Path.Trajectories

/-!
# How near fitted arcs follow their curves

`convertToArcs` compares a curve with the circle through its ends and its middle at a quarter and
at three (`FitsCircle`). There, and at its start, the curve is as near to the circle as the
tolerance says, up to a few roundings (`FitsCircle.strays_le`); between these points nothing is
known of it. It stays near throughout exactly if it does at its ends and where its distance to the
center turns (`fitted_arc_follows_curve_iff`), and there are curves that do not
(`bulging_curve_becomes_arc`).
-/

open Polynomial

namespace VectorGraphics.Path

/-- The center of the circle through the ends of a single curve and its middle, as it is
computed. -/
def Command.fittedCenter? (pen : Point) (c : Command) : Option Point :=
  (c.fittedCubic? pen).bind fun g => circumcenter? pen (g.pointAt pen 0.5) g.stop

/-! ## What is checked of an arc -/

variable {tolerance : Single} {pen : Point}

/-- The point of the curve at `t` is within the tolerance of the circle, as it is computed. -/
def OnCircle (tolerance : Single) (pen center : Point) (g : CubicGroup) (t : Single) : Prop :=
  ((g.pointAt pen t).distance center - center.distance pen).abs ≤ tolerance

/-- The arc is one of the circle about `center` through the pen, which the curve has been compared
with at a quarter and at three. -/
structure FitsCircle (tolerance : Single) (pen : Point) (g : CubicGroup) (center : Point)
    (a : ArcGroup) : Prop where
  center_eq : circumcenter? pen (g.pointAt pen 0.5) g.stop = some center
  radiusX_eq : a.radiusX = center.distance pen
  radiusY_eq : a.radiusY = center.distance pen
  isFinite : (center.distance pen).isFinite = true
  not_le : ¬center.distance pen ≤ tolerance
  quarter : OnCircle tolerance pen center g 0.25
  threeQuarters : OnCircle tolerance pen center g 0.75

theorem exists_fitsCircle_of_fitArc? {g : CubicGroup} {a : ArcGroup}
    (h : fitArc? tolerance pen g = some a) : ∃ center, FitsCircle tolerance pen g center a := by
  rw [fitArc?] at h
  split at h
  · obtain ⟨center, hcenter, h⟩ := Option.bind_eq_some_iff.1 h
    dsimp only at h
    split at h
    · cases h
    · next hradius =>
      split at h
      · next hsamples =>
        obtain rfl := Option.some.inj h
        simp only [Bool.or_eq_true, Bool.not_eq_true', decide_eq_true_eq, not_or,
          Bool.not_eq_false] at hradius
        simp only [Bool.and_eq_true, decide_eq_true_eq] at hsamples
        exact ⟨center, hcenter, rfl, rfl, hradius.1, hradius.2, hsamples.1, hsamples.2⟩
      · cases h
  · cases h

/-- An arc in the place of a single curve has been fitted to it. -/
theorem exists_fitsCircle_of_mem_arcCandidates {next : Option Command} {c : Command} {m : Mode}
    {a : ArcGroup} (h : .draw .arc m [a] ∈ arcCandidates tolerance pen next c) :
    ∃ g center, c.fittedCubic? pen = some g ∧ FitsCircle tolerance pen g center a := by
  have key {mode : Mode} {g : CubicGroup} {stop : Point}
      (h : .draw .arc m [a] ∈ arcCandidates.arc tolerance pen mode g stop) :
      ∃ center, FitsCircle tolerance pen g center a := by
    rw [arcCandidates.arc] at h
    split at h
    · next b hb =>
      obtain ⟨center, hfits⟩ := exists_fitsCircle_of_fitArc? hb
      cases List.mem_singleton.1 h
      exact ⟨center, { hfits with }⟩
    · cases h
  unfold arcCandidates at h
  split at h
  · split at h
    · cases h
    · obtain ⟨center, hfits⟩ := key h
      exact ⟨_, center, rfl, hfits⟩
  · split at h
    · cases h
    · obtain ⟨center, hfits⟩ := key h
      exact ⟨_, center, rfl, hfits⟩
  · cases h

/-- Of one candidate and the command, the candidate is taken if it is printed no longer. -/
theorem shortestOf_singleton {places : UInt8} {c d : Command}
    (h : d.printedLength places ≤ c.printedLength places) : shortestOf places c [d] = d := by
  simp [shortestOf, h]

/-- A single cubic curve that can be fitted and is not printed shorter is replaced. -/
theorem getElem?_convertToArcs_of_fitArc? {places : UInt8} {cs : List Command} {i : ℕ} {m : Mode}
    {g : CubicGroup} {a : ArcGroup} (hc : cs[i]? = some (.draw .cubic m [g]))
    (hnext : cs[i + 1]?.any (·.isKind .smoothCubic) = false)
    (hfit : fitArc? tolerance (Pen.advanceAll {} (cs.take i)).point
      (Kind.cubic.absolute m (Pen.advanceAll {} (cs.take i)).point g) = some a)
    (hlength : (Command.draw .arc m [{ a with stop := g.stop }]).printedLength places
      ≤ (Command.draw .cubic m [g]).printedLength places) :
    (convertToArcs tolerance places cs)[i]? = some (.draw .arc m [{ a with stop := g.stop }]) := by
  rw [getElem?_convertToArcs, hc, Option.map_some, arcCandidates, hnext,
    if_neg Bool.false_ne_true, arcCandidates.arc, hfit]
  exact congrArg some (shortestOf_singleton hlength)

/-! ## What the checks say -/

/-- The distance between two points. -/
theorem estimates_distance {M n a b : ℝ} {p center : Point} (hx : p.x.Estimates M n a)
    (hy : p.y.Estimates M n b) (ha : |a| ≤ M) (hb : |b| ≤ M) (hcenter : Point.Bounded M center)
    (hn : n ≤ 2 ^ 20) :
    (p.distance center).Estimates M (2 * n + 14)
        √((a - center.x.value) ^ 2 + (b - center.y.value) ^ 2)
      ∧ √((a - center.x.value) ^ 2 + (b - center.y.value) ^ 2) ≤ 3 * M := by
  have hM := (abs_nonneg _).trans ha
  have hdx : |a - center.x.value| ≤ 2 * M := by linarith [abs_sub a center.x.value, hcenter.x]
  have hdy : |b - center.y.value| ≤ 2 * M := by linarith [abs_sub b center.y.value, hcenter.y]
  have hsize : √((a - center.x.value) ^ 2 + (b - center.y.value) ^ 2) ≤ 3 * M := by
    have hx := sq_le_sq.2 (hdx.trans (le_abs_self _))
    have hy := sq_le_sq.2 (hdy.trans (le_abs_self _))
    refine Real.sqrt_le_iff.2 ⟨by positivity, ?_⟩
    nlinarith
  refine ⟨?_, hsize⟩
  rw [sq, sq] at hsize ⊢
  have hdx := hx.sub (.self center.x) hM one_le_two hdx (by linarith)
  have hdy := hy.sub (.self center.y) hM one_le_two hdy (by linarith)
  exact (hdx.hypot hdy hM (by norm_num) hsize (by linarith)).mono (by linarith)

/-- What a check of computed distances says of the distances themselves. -/
theorem abs_sub_le_of_check {M D E : ℝ} {d r : Single} (hd : d.Estimates M 56 D)
    (hr : r.Estimates M 14 E) (hM : 0 ≤ M) (hD₀ : 0 ≤ D) (hD : D ≤ 3 * M) (hE₀ : 0 ≤ E)
    (hE : E ≤ 3 * M) (hcheck : (d - r).abs ≤ tolerance) (ht : tolerance.isFinite = true) :
    |D - r.value| ≤ tolerance.value + 64 * roundoff M := by
  have hfinite := Single.isFinite_of_abs_le hcheck ht
  obtain ⟨hdfinite, hrfinite⟩ := Single.isFinite_of_sub hfinite
  have hdD := hd hdfinite
  have hrE := hr hrfinite
  have hbound : |((d - r).value : ℝ)| ≤ tolerance.value := by
    exact_mod_cast Single.abs_value_le hcheck ht
  have hround : roundoff ((d.value : ℝ) - r.value) ≤ (3 + 1) * roundoff M := by
    have hsize : |D - E| ≤ 3 * M := abs_le.2 ⟨by linarith, by linarith⟩
    have hoperands : |(d.value : ℝ) - r.value - (D - E)| ≤ (56 + 14) * roundoff M := by
      have := abs_sub ((d.value : ℝ) - D) (r.value - E)
      rw [sub_sub_sub_comm]
      linarith
    exact roundoff_le hM (by norm_num) hsize (by norm_num) hoperands
  have hresult := Single.abs_value_sub_sub_le hfinite
  have hpos := roundoff_pos M
  rw [abs_le] at *
  constructor <;> linarith

/-- The bounds of the control points hold on the whole curve. -/
theorem abs_eval_bezier_le {M u : ℝ} {points : List Point} (hM : ∀ p ∈ points, Point.Bounded M p)
    (hpoints : points ≠ []) (hu : u ∈ Set.Icc (0 : ℝ) 1) :
    |(bezier points).x.eval u| ≤ M ∧ |(bezier points).y.eval u| ≤ M := by
  constructor
  · refine abs_eval_bezierCoordinate_le (fun x hx => ?_) (by simpa using hpoints) hu
    obtain ⟨p, hp, rfl⟩ := List.mem_map.1 hx
    exact (hM p hp).x
  · refine abs_eval_bezierCoordinate_le (fun y hy => ?_) (by simpa using hpoints) hu
    obtain ⟨p, hp, rfl⟩ := List.mem_map.1 hy
    exact (hM p hp).y

theorem Command.exists_cons_of_curvePoints? {c : Command} {points : List Point}
    (h : c.curvePoints? pen = some points) : ∃ rest, points = pen :: rest ∧ rest.length ≤ 3 := by
  unfold curvePoints? at h
  split at h
  · exact ⟨_, (Option.some.inj h).symm, le_rfl⟩
  · exact ⟨_, (Option.some.inj h).symm, Nat.le_succ 2⟩
  · cases h

/-- At the start, at a quarter and at three a curve is as near to the circle as it has to be, up to
roundings. -/
theorem FitsCircle.strays_le {g : CubicGroup} {center : Point} {a : ArcGroup} {c : Command}
    {points : List Point} (h : FitsCircle tolerance pen g center a)
    (hpoints : c.curvePoints? pen = some points) (hg : c.fittedCubic? pen = some g) {M : ℝ}
    (hM : ∀ p ∈ center :: points, Point.Bounded M p) :
    ∀ u ∈ ({0, 1 / 4, 3 / 4} : Set ℝ),
      (bezier points).strays center a.radiusX u ≤ tolerance.value + 64 * roundoff M := by
  obtain ⟨hcenter, hM⟩ := List.forall_mem_cons.1 hM
  obtain ⟨rest, rfl, -⟩ := Command.exists_cons_of_curvePoints? hpoints
  have hpen := hM pen List.mem_cons_self
  have hM₀ := (abs_nonneg _).trans hpen.x
  have ht := Single.isFinite_of_not_le h.quarter h.isFinite h.not_le
  obtain ⟨hradius, hradius'⟩ := estimates_distance (.self center.x) (.self center.y) hcenter.x
    hcenter.y hpen (by norm_num)
  have hsample {t : Single} {u : ℚ} (hw : ExactWeights t u) (hu₀ : 0 ≤ u) (hu₁ : u ≤ 1)
      (hcheck : OnCircle tolerance pen center g t) :
      (bezier (pen :: rest)).strays center a.radiusX u ≤ tolerance.value + 64 * roundoff M := by
    obtain ⟨hx, hy⟩ := estimates_pointAt hw hu₀ hu₁ hpoints hg hM
    obtain ⟨hx', hy'⟩ := abs_eval_bezier_le hM (List.cons_ne_nil _ _)
      (u := u) ⟨by exact_mod_cast hu₀, by exact_mod_cast hu₁⟩
    obtain ⟨hd, hd'⟩ := estimates_distance hx hy hx' hy' hcenter (by norm_num)
    rw [PolynomialCurve.strays, PolynomialCurve.eval_squaredDistance, h.radiusX_eq]
    exact abs_sub_le_of_check (hd.mono (by norm_num)) (hradius.mono (by norm_num)) hM₀
      (Real.sqrt_nonneg _) hd' (Real.sqrt_nonneg _) hradius' hcheck ht
  rintro u (rfl | rfl | rfl)
  · have hstart := hradius h.isFinite
    have htolerance : (0 : ℝ) ≤ tolerance.value := by
      exact_mod_cast (abs_nonneg _).trans (Single.abs_value_le h.quarter ht)
    have hpos := roundoff_pos M
    rw [PolynomialCurve.strays, PolynomialCurve.eval_squaredDistance, h.radiusX_eq, abs_sub_comm,
      bezier, List.map_cons, List.map_cons, eval_zero_bezierCoordinate, eval_zero_bezierCoordinate,
      sub_sq_comm, sub_sq_comm (pen.y.value : ℝ)]
    linarith
  · have := hsample exactWeights_quarter (by norm_num) (by norm_num) h.quarter
    push_cast at this
    exact this
  · have := hsample exactWeights_threeQuarters (by norm_num) (by norm_num) h.threeQuarters
    push_cast at this
    exact this

/-- A curve of a path has at most five turns between its ends. -/
theorem card_turns_bezier_le {c : Command} {points : List Point}
    (h : c.curvePoints? pen = some points) (center : Point) :
    ((bezier points).turns center).card ≤ 7 := by
  obtain ⟨rest, rfl, hlength⟩ := Command.exists_cons_of_curvePoints? h
  have hdegree (f : Point → ℝ) :
      (bezierCoordinate ((pen :: rest).map f)).natDegree ≤ 3 := by
    refine (natDegree_bezierCoordinate_le _).trans ?_
    rwa [List.length_map, List.length_cons, Nat.add_sub_cancel]
  have hx : (bezier (pen :: rest)).x.natDegree ≤ 3 := hdegree fun p => p.x.value
  have hy : (bezier (pen :: rest)).y.natDegree ≤ 3 := hdegree fun p => p.y.value
  exact (PolynomialCurve.card_turns_le hx hy three_pos).trans_eq rfl

/-- **A fitted arc follows its curve exactly if it does so where the distance turns.** If a single
curve is replaced by an arc, the arc is one of the circle about the fitted center through the pen.
Up to roundings, the curve is within the tolerance of that circle at its start, at a quarter and at
three. It is so throughout, with any slack for roundings, exactly if it is at its ends and at the
at most five parameters between them at which its distance to the center turns. -/
theorem fitted_arc_follows_curve_iff {tolerance : Single} {places : UInt8} {cs : List Command}
    {i : ℕ} {c : Command} {points : List Point} {m : Mode} {a : ArcGroup} (hc : cs[i]? = some c)
    (hpoints : c.curvePoints? (Pen.advanceAll {} (cs.take i)).point = some points)
    (harc : (convertToArcs tolerance places cs)[i]? = some (.draw .arc m [a])) :
    ∃ center, c.fittedCenter? (Pen.advanceAll {} (cs.take i)).point = some center
      ∧ a.radiusX = center.distance (Pen.advanceAll {} (cs.take i)).point
      ∧ a.radiusY = a.radiusX
      ∧ (∀ M, (∀ p ∈ center :: points, Point.Bounded M p) → ∀ u ∈ ({0, 1 / 4, 3 / 4} : Set ℝ),
          (bezier points).strays center a.radiusX u ≤ tolerance.value + 64 * roundoff M)
      ∧ ((bezier points).turns center).card ≤ 7
      ∧ ∀ slack : ℝ,
          (∀ u ∈ Set.Icc (0 : ℝ) 1,
            (bezier points).strays center a.radiusX u ≤ tolerance.value + slack)
          ↔ ∀ u ∈ (bezier points).turns center,
            (bezier points).strays center a.radiusX u ≤ tolerance.value + slack := by
  rw [getElem?_convertToArcs, hc, Option.map_some] at harc
  generalize (Pen.advanceAll {} (cs.take i)).point = pen at *
  obtain ⟨g, center, hg, hfits⟩ : ∃ g center, c.fittedCubic? pen = some g
      ∧ FitsCircle tolerance pen g center a := by
    have hmem := shortestOf_mem places c (arcCandidates tolerance pen cs[i + 1]? c)
    rw [Option.some.inj harc] at hmem
    obtain rfl | hmem := List.mem_cons.1 hmem
    · cases hpoints
    · exact exists_fitsCircle_of_mem_arcCandidates hmem
  refine ⟨center, ?_, hfits.radiusX_eq, hfits.radiusY_eq.trans hfits.radiusX_eq.symm,
    fun M hM => hfits.strays_le hpoints hg hM, card_turns_bezier_le hpoints center,
    fun slack => PolynomialCurve.strays_le_iff⟩
  rw [Command.fittedCenter?, hg]
  exact hfits.center_eq

deriving instance DecidableEq for Point, ArcGroup

/-- A curve near a circle of radius 75 about the origin. -/
theorem flat_curve_follows_arc :
    let c : Command := .draw .cubic .absolute [⟨⟨-7.25, 76⟩, ⟨7.25, 76⟩, ⟨21, 72⟩⟩]
    let cs := [.draw .move .absolute [⟨-21, 72⟩], c]
    let points : List Point := [⟨-21, 72⟩, ⟨-7.25, 76⟩, ⟨7.25, 76⟩, ⟨21, 72⟩]
    let a : ArcGroup := ⟨75, 75, 0, false, false, ⟨21, 72⟩⟩
    cs[1]? = some c
      ∧ c.curvePoints? (Pen.advanceAll {} (cs.take 1)).point = some points
      ∧ (convertToArcs 0.01 2 cs)[1]? = some (.draw .arc .absolute [a])
      ∧ ∃ center, c.fittedCenter? (Pen.advanceAll {} (cs.take 1)).point = some center
        ∧ ∀ slack : ℝ,
          (∀ u ∈ Set.Icc (0 : ℝ) 1,
            (bezier points).strays center a.radiusX u ≤ Single.value 0.01 + slack)
          ↔ ∀ u ∈ (bezier points).turns center,
            (bezier points).strays center a.radiusX u ≤ Single.value 0.01 + slack := by
  intro c cs points a
  have harc : (convertToArcs 0.01 2 cs)[1]? = some (.draw .arc .absolute [a]) := by
    refine getElem?_convertToArcs_of_fitArc? (a := a) (show cs[1]? = some c from rfl) rfl ?_ ?_
    · decide +kernel
    · decide +kernel
  obtain ⟨center, hcenter, -, -, -, -, hiff⟩ := fitted_arc_follows_curve_iff rfl rfl harc
  exact ⟨rfl, rfl, harc, center, hcenter, hiff⟩

/-- A curve that bulges between its start and the quarter: it crosses the circle through its ends
and its middle at the quarter and at three, and is nearly 20 units inside before and after. -/
theorem bulging_curve_becomes_arc :
    let c : Command := .draw .cubic .absolute [⟨⟨-240, 256⟩, ⟨288, 256⟩, ⟨48, 0⟩⟩]
    let cs := [.draw .move .absolute [⟨0, 0⟩], c]
    let points : List Point := [⟨0, 0⟩, ⟨-240, 256⟩, ⟨288, 256⟩, ⟨48, 0⟩]
    let a : ArcGroup := ⟨97.5, 97.5, 0, true, false, ⟨48, 0⟩⟩
    let center : Point := ⟨24, 94.5⟩
    cs[1]? = some c
      ∧ c.curvePoints? (Pen.advanceAll {} (cs.take 1)).point = some points
      ∧ (convertToArcs 0.01 2 cs)[1]? = some (.draw .arc .absolute [a])
      ∧ c.fittedCenter? (Pen.advanceAll {} (cs.take 1)).point = some center
      ∧ ¬∀ u ∈ Set.Icc (0 : ℝ) 1,
          (bezier points).strays center a.radiusX u ≤ Single.value 0.01 + 18 := by
  intro c cs points a center
  have harc : (convertToArcs 0.01 2 cs)[1]? = some (.draw .arc .absolute [a]) := by
    refine getElem?_convertToArcs_of_fitArc? (a := a) (show cs[1]? = some c from rfl) rfl ?_ ?_
    · decide +kernel
    · decide +kernel
  refine ⟨rfl, rfl, harc, by decide +kernel, fun hall => ?_⟩
  have h := hall (1 / 10) ⟨by norm_num, by norm_num⟩
  have hpoints := bezier_eq points [0, -240, 288, 48] [0, 256, 256, 0] (by decide +kernel)
    (by decide +kernel)
  have hx : (bezier points).x.eval (1 / 10 : ℝ) = -50.496 := by
    rw [hpoints]
    simp only [List.map_cons, List.map_nil, eval_bezierCoordinate_cubic]
    norm_num
  have hy : (bezier points).y.eval (1 / 10 : ℝ) = 69.12 := by
    rw [hpoints]
    simp only [List.map_cons, List.map_nil, eval_bezierCoordinate_cubic]
    norm_num
  have hcenter : center.x.value = 24 ∧ center.y.value = 189 / 2 := by decide +kernel
  have hradius : a.radiusX.value = 195 / 2 := by decide +kernel
  have htolerance : Single.value 0.01 ≤ 1 / 10 := by decide +kernel
  have htolerance : ((Single.value 0.01 : ℚ) : ℝ) ≤ 1 / 10 := by
    have := (Rat.cast_le (K := ℝ)).2 htolerance
    push_cast at this
    exact this
  rw [PolynomialCurve.strays, PolynomialCurve.eval_squaredDistance, hx, hy, hcenter.1, hcenter.2,
    hradius] at h
  have hroot : √((-50.496 - ((24 : ℚ) : ℝ)) ^ 2 + (69.12 - ((189 / 2 : ℚ) : ℝ)) ^ 2) ≤ 79 :=
    Real.sqrt_le_iff.2 ⟨by norm_num, by norm_num⟩
  have := (abs_le.1 h).1
  push_cast at this hroot
  linarith

end VectorGraphics.Path
