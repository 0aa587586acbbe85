import VectorGraphics.Proofs.Geometry.Ellipses
import VectorGraphics.Proofs.Path.ExactOutline

/-!
# What the box of a path contains

The box of a path is meant to contain its outline. If nothing is rounded it contains every line,
every Bézier curve, whether its control points are written or implied, every close and every arc
that runs on the ellipse it is written with.

An arc whose half-axes are too small to reach its end runs on a larger ellipse. Its box is put
around the start with twice the longer half-axis as it is written, or the distance of its ends, so
that it may be too small unless the half-axes are equal. The box of a path contains the whole
outline if and only if it contains the corner at the bow of each such arc
(`box_contains_outline_iff`).
-/

open Real

namespace VectorGraphics.Path

/-! ## Points of the outline -/

/-- A point of the Bézier curve with the given control points, ends included. -/
def OnCurve (points : List (Spot ℝ)) (p : Spot ℝ) : Prop :=
  ∃ u ∈ Set.Icc (0 : ℝ) 1, p = ((bezierCoordinate (points.map Prod.fst)).eval u,
    (bezierCoordinate (points.map Prod.snd)).eval u)

/-- The ellipse of an arc as it is written. -/
noncomputable def ArcShape.ellipse (e : ArcShape ℝ) : Ellipse :=
  ⟨e.radiusX, e.radiusY, e.angle * π / 180⟩

/-- The half-axes of an arc are too small to reach its end, so that they are scaled up. -/
def ArcShape.Overstretched (e : ArcShape ℝ) (start stop : Spot ℝ) : Prop :=
  e.radiusX ≠ 0 ∧ e.radiusY ≠ 0 ∧ e.ellipse.Strained start stop

/-- A point that a piece draws. An arc without a half-axis is a line. -/
def Piece.Draws : Piece ℝ → Spot ℝ → Prop
  | .move z, p => p = z
  | .curve a ps, p => OnCurve (a :: ps) p
  | .arc a e z, p =>
    if e.radiusX = 0 ∨ e.radiusY = 0 then OnCurve [a, z] p
    else e.ellipse.DrawsArc a z e.large e.clockwise p
  | .close a z, p => OnCurve [a, z] p

/-- The point is neither left nor right of the box, and neither above nor below. -/
def Box.Contains (b : Box ℝ) (p : Spot ℝ) : Prop := p ∈ Set.Icc b.low b.high

namespace Box

variable {b : Box ℝ} {p : Spot ℝ}

theorem contains_iff : b.Contains p
    ↔ (b.low.1 ≤ p.1 ∧ b.low.2 ≤ p.2) ∧ p.1 ≤ b.high.1 ∧ p.2 ≤ b.high.2 := Iff.rfl

/-- A box that contains all control points of a curve contains the curve. -/
theorem contains_of_onCurve {points : List (Spot ℝ)} (hne : points ≠ [])
    (h : ∀ q ∈ points, b.Contains q) (hp : OnCurve points p) : b.Contains p := by
  obtain ⟨u, hu, rfl⟩ := hp
  have hx : (bezierCoordinate (points.map Prod.fst)).eval u ∈ Set.Icc b.low.1 b.high.1 := by
    refine eval_bezierCoordinate_mem (convex_Icc _ _) (List.forall_mem_map.2 fun q hq => ?_)
      (by simpa using hne) hu
    exact ⟨(h q hq).1.1, (h q hq).2.1⟩
  have hy : (bezierCoordinate (points.map Prod.snd)).eval u ∈ Set.Icc b.low.2 b.high.2 := by
    refine eval_bezierCoordinate_mem (convex_Icc _ _) (List.forall_mem_map.2 fun q hq => ?_)
      (by simpa using hne) hu
    exact ⟨(h q hq).1.2, (h q hq).2.2⟩
  exact ⟨⟨hx.1, hy.1⟩, hx.2, hy.2⟩

theorem contains_insert (b : Box ℝ) (p : Spot ℝ) : (b.insert p).Contains p :=
  ⟨⟨min_le_right _ _, min_le_right _ _⟩, le_max_right _ _, le_max_right _ _⟩

theorem Contains.insert (h : b.Contains p) (q : Spot ℝ) : (b.insert q).Contains p :=
  ⟨⟨(min_le_left _ _).trans h.1.1, (min_le_left _ _).trans h.1.2⟩,
    h.2.1.trans (le_max_left _ _), h.2.2.trans (le_max_left _ _)⟩

theorem Contains.foldl_insert (h : b.Contains p) (ps : List (Spot ℝ)) :
    (ps.foldl Box.insert b).Contains p := by
  induction ps generalizing b with
  | nil => exact h
  | cons q qs ih => exact ih (h.insert q)

theorem contains_foldl_insert (b : Box ℝ) {ps : List (Spot ℝ)} (h : p ∈ ps) :
    (ps.foldl Box.insert b).Contains p := by
  induction ps generalizing b with
  | nil => cases h
  | cons q qs ih =>
    obtain rfl | h := List.mem_cons.1 h
    · exact (contains_insert b p).foldl_insert qs
    · exact ih _ h

/-- The box of some points contains each of them. -/
theorem contains_of? {ps : List (Spot ℝ)} (hb : Box.of? ps = some b) (h : p ∈ ps) :
    b.Contains p := by
  cases ps with
  | nil => cases h
  | cons q qs =>
    obtain rfl := Option.some.inj hb
    obtain rfl | h := List.mem_cons.1 h
    · have hself : (⟨p, p⟩ : Box ℝ).Contains p := ⟨le_rfl, le_rfl⟩
      exact hself.foldl_insert qs
    · exact contains_foldl_insert _ h

end Box

/-! ## One piece -/

/-- The points that a piece is given by, its start and what spans it. -/
noncomputable def Piece.points : Piece ℝ → List (Spot ℝ)
  | .move z => [z]
  | .curve a ps => a :: ps
  | .arc a e z => a :: (Piece.arc a e z).hull
  | .close a z => [a, z]

variable {b : Box ℝ} {p : Spot ℝ}

/-- The box of an arc contains what is no farther from its start than the longer axis. -/
theorem contains_of_abs_sub_le {e : ArcShape ℝ} {a z : Spot ℝ}
    (h : ∀ q ∈ (Piece.arc a e z).points, b.Contains q)
    (hp : |p.1 - a.1| ≤ 2 * max |e.radiusX| |e.radiusY|
      ∧ |p.2 - a.2| ≤ 2 * max |e.radiusX| |e.radiusY|) : b.Contains p := by
  have hreach : 2 * max |e.radiusX| |e.radiusY| ≤ e.reach a z := by
    refine le_trans (le_of_eq ?_) (le_max_left _ _)
    have htwo : (Arithmetic.ofSingle 2 : ℝ) = 2 := by
      change ((2 : Single).value : ℝ) = 2
      rw [Single.is_two.value_eq]
      norm_num
    rw [htwo]
    rfl
  obtain ⟨-, hlow, hhigh, -⟩ : b.Contains a ∧ b.Contains (a.1 - e.reach a z, a.2 - e.reach a z)
      ∧ b.Contains (a.1 + e.reach a z, a.2 + e.reach a z) ∧ b.Contains z := by
    simpa [Piece.points, Piece.hull] using h
  obtain ⟨hx, hy⟩ := hp
  rw [abs_le] at hx hy
  rw [Box.contains_iff] at *
  simp only at hlow hhigh
  exact ⟨⟨by linarith [hlow.1.1], by linarith [hlow.1.2]⟩, by linarith [hhigh.2.1],
    by linarith [hhigh.2.2]⟩

/-- A box that contains the points of a piece contains what it draws, unless it is an arc that is
scaled up and the corner at its bow is outside. -/
theorem Piece.forall_draws_iff {piece : Piece ℝ} (h : ∀ q ∈ piece.points, b.Contains q) :
    (∀ p, piece.Draws p → b.Contains p) ↔ ∀ a e z, piece = .arc a e z → e.Overstretched a z →
      b.Contains (e.ellipse.bow a z e.clockwise) := by
  cases piece with
  | move z => exact iff_of_true (by rintro p rfl; exact h p (by simp [points])) nofun
  | curve a ps =>
    exact iff_of_true (fun p hp => Box.contains_of_onCurve (List.cons_ne_nil _ _) h hp) nofun
  | close a z =>
    exact iff_of_true (fun p hp => Box.contains_of_onCurve (List.cons_ne_nil _ _) h hp) nofun
  | arc a e z =>
    have ha : b.Contains a := h a (by simp [points])
    have hz : b.Contains z := h z (by simp [points, hull])
    by_cases hover : e.Overstretched a z
    · obtain ⟨hx, hy, hstrained⟩ := hover
      have hdraws (p : Spot ℝ) : (Piece.arc a e z).Draws p
          ↔ e.ellipse.DrawsArc a z e.large e.clockwise p := by
        rw [Draws, if_neg (by tauto)]
      simp only [hdraws]
      refine (hstrained.forall_drawsArc_iff hx hy ha hz).trans ⟨?_, fun hall =>
        hall a e z rfl ⟨hx, hy, hstrained⟩⟩
      rintro hbow _ _ _ ⟨⟩ -
      exact hbow
    · refine iff_of_true (fun p hp => ?_) ?_
      · rw [Draws] at hp
        split at hp
        · refine Box.contains_of_onCurve (List.cons_ne_nil _ _) (fun q hq => ?_) hp
          obtain rfl | rfl := by simpa using hq
          · exact ha
          · exact hz
        · next hradii =>
          have hnot : ¬e.ellipse.Strained a z := by
            rw [ArcShape.Overstretched] at hover
            tauto
          exact contains_of_abs_sub_le h (Ellipse.abs_sub_le_of_drawsArc hnot hp)
      · rintro _ _ _ ⟨⟩ h
        exact absurd h hover

/-! ## Walking inside a box -/

/-- The pen and the start of the subpath are inside the box. -/
structure Walker.Inside (b : Box ℝ) (w : Walker ℝ) : Prop where
  point : b.Contains w.point
  start : ∀ s, w.start? = some s → b.Contains s

namespace Walker

variable {w : Walker ℝ}

/-- After a group that is spanned by points of the box, the pen is inside the box. -/
theorem Inside.pass (hw : w.Inside b) {m : Mode} {k : Kind} {g : k.Group}
    (h : ∀ q ∈ (w.draw m k g).hull, b.Contains q) : (w.pass m k g).Inside b := by
  cases k with
  | move =>
    have hstop : b.Contains (m.spot w.point g) := h _ (List.mem_singleton_self _)
    refine ⟨hstop, ?_⟩
    rintro _ ⟨⟩
    exact hstop
  | _ => exact ⟨h _ (by simp [draw, Piece.hull, Walker.pass]), hw.start⟩

/-- A group starts at the pen and goes on inside the box. -/
theorem Inside.points_draw (hw : w.Inside b) {m : Mode} {k : Kind} {g : k.Group}
    (h : ∀ q ∈ (w.draw m k g).hull, b.Contains q) :
    ∀ q ∈ (w.draw m k g).points, b.Contains q := by
  cases k with
  | move => exact h
  | _ => exact List.forall_mem_cons.2 ⟨hw.point, h⟩

/-- A walk from inside the box stays inside the box. -/
theorem Inside.walk (hw : w.Inside b) {as : List Action}
    (h : ∀ q ∈ (w.walk as).flatMap Piece.hull, b.Contains q) :
    ∀ piece ∈ w.walk as, ∀ q ∈ piece.points, b.Contains q := by
  induction as generalizing w with
  | nil => exact List.forall_mem_nil _
  | cons a as ih =>
    cases a with
    | draw k m g =>
      rw [Walker.walk, List.flatMap_cons] at h
      have hhull {q : Spot ℝ} (hq : q ∈ (w.draw m k g).hull) := h q (List.mem_append_left _ hq)
      exact List.forall_mem_cons.2 ⟨hw.points_draw fun q => hhull,
        ih (hw.pass fun q => hhull) fun q hq => h q (List.mem_append_right _ hq)⟩
    | skip k => exact ih ⟨hw.point, hw.start⟩ h
    | close =>
      have hback : b.Contains (w.start?.getD w.point) := by
        cases hs : w.start? with
        | none => exact hw.point
        | some s => exact hw.start s hs
      refine List.forall_mem_cons.2 ⟨?_, ih ⟨hback, hw.start⟩ h⟩
      simp only [Piece.points, List.forall_mem_cons]
      exact ⟨hw.point, hback, List.forall_mem_nil _⟩

end Walker

/-- Everything that a path draws that begins with a move is given by points of its box. -/
theorem exists_box?_points {cs : List Command} (hmove : BeginsWithMove cs) :
    ∃ b, box? ℝ cs = some b ∧ ∀ piece ∈ pieces ℝ cs, ∀ q ∈ piece.points, b.Contains q := by
  obtain ⟨m, p, ps, rest, rfl⟩ := hmove
  let q : Spot ℝ := m.spot (.of .origin) p
  let w : Walker ℝ := { point := q, start? := some q }
  let as : List Action := ps.map (.draw .line m) ++ rest.flatMap Command.actions
  have hpieces : pieces ℝ (.draw .move m (p :: ps) :: rest) = .move q :: w.walk as := rfl
  have hbox : box? ℝ (.draw .move m (p :: ps) :: rest)
      = Box.of? (q :: (w.walk as).flatMap Piece.hull) := rfl
  refine ⟨_, hbox, ?_⟩
  have hq : (((w.walk as).flatMap Piece.hull).foldl Box.insert ⟨q, q⟩).Contains q :=
    Box.contains_of? rfl List.mem_cons_self
  have hinside : w.Inside (((w.walk as).flatMap Piece.hull).foldl Box.insert ⟨q, q⟩) := by
    refine ⟨hq, ?_⟩
    rintro _ ⟨⟩
    exact hq
  rw [hpieces]
  refine List.forall_mem_cons.2 ⟨by simpa [Piece.points] using hq, hinside.walk fun z hz => ?_⟩
  exact Box.contains_of? rfl (List.mem_cons_of_mem _ hz)

/-- **The box of a path contains its outline**, as far as it does. For a path that begins with a
move there is a box, computed as `Bounds.ofPath?` computes it but without rounding. It contains
every point of every line, curve, arc and close if and only if it contains the corner at the bow of
each arc whose half-axes have to be scaled up. -/
theorem box_contains_outline_iff {cs : List Command} (hmove : BeginsWithMove cs) :
    box? Single cs = (Bounds.ofPath? cs).map Bounds.box
      ∧ pieces Single cs = (outline cs).map Segment.piece
      ∧ ∃ b, box? ℝ cs = some b
        ∧ ((∀ piece ∈ pieces ℝ cs, ∀ p, piece.Draws p → b.Contains p)
          ↔ ∀ a e z, .arc a e z ∈ pieces ℝ cs → e.Overstretched a z →
            b.Contains (e.ellipse.bow a z e.clockwise)) := by
  obtain ⟨b, hb, hpoints⟩ := exists_box?_points hmove
  refine ⟨box?_single cs, pieces_single cs, b, hb, ?_⟩
  rw [forall₂_congr fun piece hpiece => Piece.forall_draws_iff (hpoints piece hpiece)]
  constructor
  · exact fun hall a e z hmem => hall _ hmem a e z rfl
  · rintro hall _ hmem a e z rfl
    exact hall a e z hmem

theorem ofSingle_eq {x : Single} {q : ℚ} (h : x.Is q) : (Arithmetic.ofSingle x : ℝ) = q :=
  congrArg ((↑) : ℚ → ℝ) h.value_eq

/-- The path from the origin to `(0, 20)` along an arc with the given half-axes. -/
def arcDown (radiusX radiusY : Single) : List Command :=
  [.draw .move .absolute [⟨0, 0⟩],
    .draw .arc .absolute [⟨radiusX, radiusY, 0, false, true, ⟨0, 20⟩⟩]]

theorem pieces_arcDown {radiusX radiusY : Single} {x y : ℚ} (hx : radiusX.Is x)
    (hy : radiusY.Is y) : pieces ℝ (arcDown radiusX radiusY)
      = [.move (0, 0), .arc (0, 0) ⟨x, y, 0, false, true⟩ (0, 20)] := by
  have h : pieces ℝ (arcDown radiusX radiusY)
      = [.move (Arithmetic.ofSingle 0, Arithmetic.ofSingle 0),
        .arc (Arithmetic.ofSingle 0, Arithmetic.ofSingle 0)
          ⟨Arithmetic.ofSingle radiusX, Arithmetic.ofSingle radiusY, Arithmetic.ofSingle 0, false,
            true⟩
          (Arithmetic.ofSingle 0, Arithmetic.ofSingle 20)] := rfl
  have htwenty : Single.Is 20 20 := by decide +kernel
  rw [h, ofSingle_eq Single.is_zero, ofSingle_eq hx, ofSingle_eq hy, ofSingle_eq htwenty]
  norm_num

/-- Half-axes up to 10 make a box that is as wide as the ends are far from each other, on either
side of the start. -/
theorem box?_arcDown {radiusX radiusY : Single} {x y : ℚ} (hx : radiusX.Is x)
    (hy : radiusY.Is y) (hx' : |(x : ℝ)| ≤ 10) (hy' : |(y : ℝ)| ≤ 10) :
    box? ℝ (arcDown radiusX radiusY) = some ⟨(-20, -20), (20, 20)⟩ := by
  have hreach : (⟨x, y, 0, false, true⟩ : ArcShape ℝ).reach (0, 0) (0, 20) = 20 := by
    have hroot : √((20 : ℝ) ^ 2) = 20 := sqrt_sq (by norm_num)
    have haxes : 2 * max |(x : ℝ)| |(y : ℝ)| ≤ 20 := by linarith [max_le hx' hy']
    simp only [ArcShape.reach, ofSingle_eq Single.is_two, Arithmetic.max, Arithmetic.abs,
      Arithmetic.hypot]
    norm_num [hroot, haxes]
  rw [box?, pieces_arcDown hx hy]
  simp only [List.flatMap_cons, List.flatMap_nil, Piece.hull, hreach, List.cons_append,
    List.nil_append, Box.of?, List.foldl_cons, List.foldl_nil, Box.insert, Arithmetic.min,
    Arithmetic.max]
  norm_num

theorem ellipse_arcDown (radiusX radiusY : ℝ) :
    (⟨radiusX, radiusY, 0, false, true⟩ : ArcShape ℝ).ellipse = ⟨radiusX, radiusY, 0⟩ := by
  simp [ArcShape.ellipse]

theorem halfChord_arcDown (radiusX radiusY : ℝ) :
    Ellipse.halfChord ⟨radiusX, radiusY, 0⟩ (0, 0) (0, 20) = (0, -10) := by
  simp only [Ellipse.halfChord, sub_midpoint, turn, neg_zero, cos_zero, sin_zero]
  norm_num

theorem is_ten : Single.Is 10 10 := by decide +kernel

/-- A circle of radius 1 is scaled up to radius 10, and its arc stays in the box of the path. -/
theorem round_arc_stays_in_box : BeginsWithMove (arcDown 1 1)
    ∧ ∃ b, box? ℝ (arcDown 1 1) = some b
      ∧ ∀ piece ∈ pieces ℝ (arcDown 1 1), ∀ p, piece.Draws p → b.Contains p := by
  have hmove : BeginsWithMove (arcDown 1 1) := ⟨_, _, _, _, rfl⟩
  have hbox := box?_arcDown Single.is_one Single.is_one (by norm_num) (by norm_num)
  obtain ⟨-, -, b, hb, hiff⟩ := box_contains_outline_iff hmove
  refine ⟨hmove, b, hb, hiff.2 fun a e z hmem _ => ?_⟩
  obtain rfl := Option.some.inj (hbox.symm.trans hb)
  rw [pieces_arcDown Single.is_one Single.is_one] at hmem
  obtain ⟨rfl, rfl, rfl⟩ : a = (0, 0) ∧ e = ⟨1, 1, 0, false, true⟩ ∧ z = (0, 20) := by
    simpa using hmem
  have hroot : √((10 : ℝ) ^ 2) = 10 := sqrt_sq (by norm_num)
  have hbow : Ellipse.bow ⟨1, 1, 0⟩ (0, 0) (0, 20) true = (10, 20) := by
    simp only [Ellipse.bow_eq, Ellipse.side, Ellipse.conjugate, halfChord_arcDown, turn, farthest,
      cos_zero, sin_zero, if_true]
    norm_num [hroot]
  rw [ellipse_arcDown, hbow, Box.contains_iff]
  norm_num

theorem draws_arcDown : (Piece.arc (0, 0) ⟨10, 1, 0, false, true⟩ (0, 20)).Draws (100, 10) := by
  have hstrain : Ellipse.strain ⟨10, 1, 0⟩ (0, 0) (0, 20) = 100 := by
    rw [Ellipse.strain, halfChord_arcDown]
    norm_num
  have hroot : √(100 : ℝ) = 10 := by
    rw [show (100 : ℝ) = 10 ^ 2 by norm_num, sqrt_sq (by norm_num)]
  have hfitted : Ellipse.fitted ⟨10, 1, 0⟩ (0, 0) (0, 20) = ⟨100, 10, 0⟩ := by
    rw [Ellipse.fitted, hstrain, hroot]
    norm_num
  have hpoint (θ : ℝ) : Ellipse.point ⟨100, 10, 0⟩ (0, 10) θ = (100 * cos θ, 10 + 10 * sin θ) := by
    simp [Ellipse.point, turn]
  have hpi := pi_pos
  rw [Piece.Draws, if_neg (by norm_num), ellipse_arcDown, Ellipse.DrawsArc, hfitted]
  refine ⟨(0, 10), -(π / 2), π, ?_, ?_, hpi.le, ?_, (abs_of_pos hpi).le, 1 / 2, by norm_num, ?_⟩
  · rw [hpoint, cos_neg, sin_neg, cos_pi_div_two, sin_pi_div_two]
    norm_num
  · rw [show -(π / 2) + π = π / 2 by ring, hpoint, cos_pi_div_two, sin_pi_div_two]
    norm_num
  · rw [abs_of_pos hpi, two_nsmul]
    linarith
  · rw [show -(π / 2) + 1 / 2 * π = 0 by ring, hpoint, cos_zero, sin_zero]
    norm_num

/-- An ellipse with the half-axes 10 and 1 is scaled up to 100 and 10, and its arc reaches five
times as far to the right as the box of the path. -/
theorem wide_arc_leaves_box : BeginsWithMove (arcDown 10 1)
    ∧ ∃ b, box? ℝ (arcDown 10 1) = some b
      ∧ ¬∀ piece ∈ pieces ℝ (arcDown 10 1), ∀ p, piece.Draws p → b.Contains p := by
  have hbox := box?_arcDown is_ten Single.is_one (by norm_num) (by norm_num)
  refine ⟨⟨_, _, _, _, rfl⟩, _, hbox, fun hall => ?_⟩
  rw [pieces_arcDown is_ten Single.is_one] at hall
  have hcontains := hall (.arc (0, 0) ⟨10, 1, 0, false, true⟩ (0, 20)) (by simp) _ draws_arcDown
  have := hcontains.2.1
  norm_num at this

end VectorGraphics.Path
