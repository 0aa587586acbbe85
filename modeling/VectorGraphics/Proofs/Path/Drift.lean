import Mathlib.Data.List.Forall2
import Mathlib.Algebra.Order.Group.Unbundled.Abs
import VectorGraphics.Path.Spelling
import VectorGraphics.Proofs.Number.Values
import VectorGraphics.Proofs.Path.Walks

/-!
# How far aligned lines drift

A line that `alignLines` makes horizontal or vertical loses a displacement of at most the tolerance.
An absolute line that comes later is measured from where the pen is, so that it makes up for what
was lost, and it is off by no more than the tolerance itself. A relative line hands on what was
lost and adds its own. So the pen stays within the tolerance of its way exactly if it does so at
the relative lines that are aligned (`alignLines_within_tolerance_iff`).

All this is about paths on which nothing is rounded (`WalksExactly`).
-/

namespace VectorGraphics

/-- The coordinates of a point as rational numbers. -/
def Point.value (p : Point) : ℚ × ℚ := (p.x.value, p.y.value)

/-- The coordinates are finite and have the given values. -/
def Point.Is (p : Point) (q : ℚ × ℚ) : Prop := p.x.Is q.1 ∧ p.y.Is q.2

instance (p : Point) (q : ℚ × ℚ) : Decidable (p.Is q) := inferInstanceAs (Decidable (_ ∧ _))

namespace Path

/-! ## Walking without rounding -/

/-- A pen with rational coordinates. -/
structure ExactPen where
  /-- The current point. -/
  point : ℚ × ℚ := (0, 0)
  /-- The starts of the subpaths opened so far, the latest first. -/
  starts : List (ℚ × ℚ) := []

/-- What a group writes for the coordinates of its end. -/
def Kind.ends : (k : Kind) → k.Group → Option Single × Option Single
  | .move, p | .line, p | .smoothQuadratic, p => (some p.x, some p.y)
  | .horizontal, x => (some x, none)
  | .vertical, y => (none, some y)
  | .cubic, g => (some g.stop.x, some g.stop.y)
  | .smoothCubic, g => (some g.stop.x, some g.stop.y)
  | .quadratic, g => (some g.stop.x, some g.stop.y)
  | .arc, g => (some g.stop.x, some g.stop.y)

/-- A coordinate moved to what is written or by it. Where nothing is written it stays. -/
def Mode.moved (a : ℚ) : Mode → Option Single → ℚ
  | _, none => a
  | .absolute, some x => x.value
  | .relative, some x => a + x.value

/-- Where the pen stands after one group. -/
def Kind.exactLand (k : Kind) (m : Mode) (pen : ℚ × ℚ) (g : k.Group) : ℚ × ℚ :=
  (m.moved pen.1 (k.ends g).1, m.moved pen.2 (k.ends g).2)

namespace ExactPen

/-- The pen moved past a command. -/
def advance (pen : ExactPen) : Command → ExactPen
  | .draw .move _ [] => pen
  | .draw .move mode (p :: ps) =>
    let start := Kind.move.exactLand mode pen.point p
    { point := ps.foldl (Kind.move.exactLand mode) start, starts := start :: pen.starts }
  | .draw k mode groups => { pen with point := groups.foldl (k.exactLand mode) pen.point }
  | .close => { pen with point := pen.starts.head?.getD pen.point }

/-- The pen moved past a list of commands. -/
def advanceAll (pen : ExactPen) (commands : List Command) : ExactPen := commands.foldl advance pen

theorem advance_draw {k : Kind} (hk : k ≠ .move) (m : Mode) (gs : List k.Group) (pen : ExactPen) :
    pen.advance (.draw k m gs) = { pen with point := gs.foldl (k.exactLand m) pen.point } := by
  cases k <;> first | rfl | exact absurd rfl hk

theorem advanceAll_take_succ (pen : ExactPen) {cs : List Command} {i : ℕ} {c : Command}
    (h : cs[i]? = some c) :
    pen.advanceAll (cs.take (i + 1)) = (pen.advanceAll (cs.take i)).advance c := by
  rw [List.take_add_one, h, advanceAll, List.foldl_append]
  rfl

end ExactPen

/-- The coordinates of the pen are finite and have the values of an exact pen. -/
structure Pen.Is (p : Pen) (e : ExactPen) : Prop where
  point : p.point.Is e.point
  starts : List.Forall₂ Point.Is p.starts e.starts

instance (p : Pen) (e : ExactPen) : Decidable (p.Is e) :=
  decidable_of_iff (p.point.Is e.point ∧ List.Forall₂ Point.Is p.starts e.starts)
    ⟨fun h => ⟨h.1, h.2⟩, fun h => ⟨h.1, h.2⟩⟩

/-- Walking along the commands rounds nothing: after each, the pen is where exact arithmetic takes
it. -/
def IsExactWalk (cs : List Command) : Prop :=
  ∀ i, (Pen.advanceAll {} (cs.take i)).Is (ExactPen.advanceAll {} (cs.take i))

instance (cs : List Command) : Decidable (IsExactWalk cs) :=
  decidable_of_iff (∀ i < cs.length + 1,
      (Pen.advanceAll {} (cs.take i)).Is (ExactPen.advanceAll {} (cs.take i))) <| by
    refine ⟨fun h i => ?_, fun h i _ => h i⟩
    obtain hi | hi := Nat.lt_or_ge i (cs.length + 1)
    · exact h i hi
    · have htake : cs.take i = cs.take cs.length := by
        rw [List.take_length, List.take_of_length_le (Nat.le_of_succ_le hi)]
      rw [htake]
      exact h cs.length (Nat.lt_succ_self _)

/-- Nothing is rounded when lines are aligned: not in walking along the path before and after, and
not in measuring the absolute lines. -/
structure WalksExactly (tolerance : Single) (cs : List Command) : Prop where
  before : IsExactWalk cs
  after : IsExactWalk (alignLines tolerance cs)
  measured (i : ℕ) (p : Point) (h : cs[i]? = some (.draw .line .absolute [p])) :
    (p - (Pen.advanceAll {} ((alignLines tolerance cs).take i)).point).Is
      (p.value - (Pen.advanceAll {} ((alignLines tolerance cs).take i)).point.value)

/-! ## Pens near each other -/

/-- The coordinates differ by at most `t`. -/
def Within (t : ℚ) (p q : ℚ × ℚ) : Prop := |p.1 - q.1| ≤ t ∧ |p.2 - q.2| ≤ t

instance (t : ℚ) (p q : ℚ × ℚ) : Decidable (Within t p q) := inferInstanceAs (Decidable (_ ∧ _))

/-- The pens are near each other, and so are the starts of their subpaths. -/
structure ExactPen.Near (t : ℚ) (p q : ExactPen) : Prop where
  point : Within t p.point q.point
  starts : List.Forall₂ (Within t) p.starts q.starts

variable {t : ℚ}

theorem within_self (ht : 0 ≤ t) (p : ℚ × ℚ) : Within t p p :=
  ⟨by rwa [sub_self, abs_zero], by rwa [sub_self, abs_zero]⟩

theorem Mode.abs_moved_sub_moved_le (ht : 0 ≤ t) {a b : ℚ} (h : |a - b| ≤ t) (m : Mode)
    (x : Option Single) : |m.moved a x - m.moved b x| ≤ t := by
  cases x with
  | none => cases m <;> exact h
  | some x =>
    cases m with
    | absolute => rwa [moved, moved, sub_self, abs_zero]
    | relative => rwa [moved, moved, add_sub_add_right_eq_sub]

theorem Kind.within_exactLand (ht : 0 ≤ t) {p q : ℚ × ℚ} (h : Within t p q) (k : Kind) (m : Mode)
    (g : k.Group) : Within t (k.exactLand m p g) (k.exactLand m q g) :=
  ⟨m.abs_moved_sub_moved_le ht h.1 _, m.abs_moved_sub_moved_le ht h.2 _⟩

theorem Kind.within_foldl_exactLand (ht : 0 ≤ t) {p q : ℚ × ℚ} (h : Within t p q) (k : Kind)
    (m : Mode) (gs : List k.Group) :
    Within t (gs.foldl (k.exactLand m) p) (gs.foldl (k.exactLand m) q) := by
  induction gs generalizing p q with
  | nil => exact h
  | cons g gs ih => exact ih (k.within_exactLand ht h m g)

/-- Pens that are near each other stay so on the same way. -/
theorem ExactPen.Near.advance (ht : 0 ≤ t) {p q : ExactPen} (h : p.Near t q) (c : Command) :
    (p.advance c).Near t (q.advance c) := by
  cases c with
  | close =>
    refine ⟨?_, h.starts⟩
    obtain ⟨hpoint, hstarts⟩ := h
    rw [ExactPen.advance, ExactPen.advance]
    generalize p.starts = ps, q.starts = qs at hstarts
    cases hstarts with
    | nil => exact hpoint
    | cons hstart _ => exact hstart
  | draw k m gs =>
    by_cases hk : k = .move
    · subst hk
      cases gs with
      | nil => exact h
      | cons g gs =>
        have hstart := Kind.move.within_exactLand ht h.point m g
        exact ⟨Kind.move.within_foldl_exactLand ht hstart m gs, .cons hstart h.starts⟩
    · rw [advance_draw hk, advance_draw hk]
      exact ⟨k.within_foldl_exactLand ht h.point m gs, h.starts⟩

/-! ## One command -/

variable {tolerance : Single} {cs : List Command}

/-- The pen of the aligned path before the command with the number `i`. -/
def alignedPen (tolerance : Single) (cs : List Command) (i : ℕ) : Pen :=
  Pen.advanceAll {} ((alignLines tolerance cs).take i)

/-- How much further the pen of the aligned path is before the command with the number `i`. -/
def lead (tolerance : Single) (cs : List Command) (i : ℕ) : ℚ × ℚ :=
  (alignedPen tolerance cs i).point.value - (Pen.advanceAll {} (cs.take i)).point.value

/-- A command is aligned from where the lines aligned before it have led. -/
theorem getElem?_alignLines (tolerance : Single) (cs : List Command) (i : ℕ) :
    (alignLines tolerance cs)[i]?
      = cs[i]?.map (alignLine tolerance (alignedPen tolerance cs i).point) :=
  getElem?_rewrite_of_after _ Pen.advance {} cs i

theorem alignLine_of_ne {c : Command} (h : ∀ m p, c ≠ .draw .line m [p]) (tolerance : Single)
    (pen : Point) : alignLine tolerance pen c = c := by
  unfold alignLine
  split
  · exact absurd rfl (h _ _)
  · rfl

/-- A line opens no subpath, aligned or not. -/
theorem starts_advance_alignLine (tolerance : Single) (pen : Point) (m : Mode) (p : Point)
    (e : ExactPen) :
    (e.advance (alignLine tolerance pen (.draw .line m [p]))).starts = e.starts := by
  cases m with
  | absolute | relative =>
    simp only [alignLine]
    split
    · rfl
    · split <;> rfl

/-- An absolute line that is aligned still ends within the tolerance of its end, since it is
measured from where the pen of the aligned path is. -/
theorem within_alignLine_absolute (ht : tolerance.Is t) (h₀ : 0 ≤ t) (p q : ExactPen)
    {pen stop : Point} (hdiff : (stop - pen).Is (stop.value - p.point)) :
    Within t (p.advance (alignLine tolerance pen (.draw .line .absolute [stop]))).point
      (q.advance (.draw .line .absolute [stop])).point := by
  have hx : (stop - pen).x.Is (stop.x.value - p.point.1) := hdiff.1
  have hy : (stop - pen).y.Is (stop.y.value - p.point.2) := hdiff.2
  have hself := within_self h₀ stop.value
  simp only [alignLine]
  split
  · next h =>
    rw [hy.abs.le_iff ht, abs_sub_comm] at h
    exact ⟨hself.1, h⟩
  · split
    · next h =>
      rw [hx.abs.le_iff ht, abs_sub_comm] at h
      exact ⟨h, hself.2⟩
    · exact hself

/-- What a relative line loses when it is aligned, taken from the lead that the pen has, leaves a
lead of at most `t`. -/
def LosesLittle (t : ℚ) (lead : ℚ × ℚ) (p : Point) : Prop :=
  (|p.y.value| ≤ t → |lead.2 - p.y.value| ≤ t)
    ∧ (t < |p.y.value| → |p.x.value| ≤ t → |lead.1 - p.x.value| ≤ t)

instance (t : ℚ) (lead : ℚ × ℚ) (p : Point) : Decidable (LosesLittle t lead p) :=
  inferInstanceAs (Decidable (_ ∧ _))

/-- A relative line that is aligned takes what it loses from the lead. -/
theorem within_alignLine_relative_iff (ht : tolerance.Is t) {p q : ExactPen}
    (hwithin : Within t p.point q.point) (pen : Point) {d : Point} (hd : d.Is d.value) :
    Within t (p.advance (alignLine tolerance pen (.draw .line .relative [d]))).point
        (q.advance (.draw .line .relative [d])).point
      ↔ LosesLittle t (p.point - q.point) d := by
  have hkeep {a b : ℚ} (h : |a - b| ≤ t) (x : ℚ) : |a + x - (b + x)| ≤ t := by
    rwa [add_sub_add_right_eq_sub]
  have hx : d.x.abs ≤ tolerance ↔ |d.x.value| ≤ t := hd.1.abs.le_iff ht
  have hy : d.y.abs ≤ tolerance ↔ |d.y.value| ≤ t := hd.2.abs.le_iff ht
  simp only [alignLine, hx, hy]
  rw [LosesLittle, Prod.fst_sub, Prod.snd_sub, sub_sub, sub_sub]
  by_cases hy : |d.y.value| ≤ t
  · rw [if_pos hy]
    exact ⟨fun h => ⟨fun _ => h.2, fun hlt => absurd hy hlt.not_ge⟩,
      fun h => ⟨hkeep hwithin.1 _, h.1 hy⟩⟩
  · rw [if_neg hy]
    by_cases hx : |d.x.value| ≤ t
    · rw [if_pos hx]
      exact ⟨fun h => ⟨fun hle => absurd hle hy, fun _ _ => h.1⟩,
        fun h => ⟨h.2 (not_le.1 hy) hx, hkeep hwithin.2 _⟩⟩
    · rw [if_neg hx]
      exact iff_of_true ⟨hkeep hwithin.1 _, hkeep hwithin.2 _⟩
        ⟨fun hle => absurd hle hy, fun _ hle => absurd hle hx⟩

/-! ## The whole path -/

/-- The exact pen before the command with the number `i`. -/
def exactPen (cs : List Command) (i : ℕ) : ExactPen := ExactPen.advanceAll {} (cs.take i)

namespace WalksExactly

theorem point_value (h : WalksExactly tolerance cs) (i : ℕ) :
    (Pen.advanceAll {} (cs.take i)).point.value = (exactPen cs i).point :=
  Prod.ext (h.before i).point.1.value_eq (h.before i).point.2.value_eq

theorem alignedPen_value (h : WalksExactly tolerance cs) (i : ℕ) :
    (alignedPen tolerance cs i).point.value = (exactPen (alignLines tolerance cs) i).point :=
  Prod.ext (h.after i).point.1.value_eq (h.after i).point.2.value_eq

theorem lead_eq (h : WalksExactly tolerance cs) (i : ℕ) : lead tolerance cs i
    = (exactPen (alignLines tolerance cs) i).point - (exactPen cs i).point := by
  rw [lead, h.point_value, h.alignedPen_value]

/-- A displacement of a path is finite, as the pen is after it. -/
theorem is_value (h : WalksExactly tolerance cs) {i : ℕ} {d : Point}
    (hd : cs[i]? = some (.draw .line .relative [d])) : d.Is d.value := by
  have hpen := h.before (i + 1)
  rw [Pen.advanceAll_take_succ _ hd] at hpen
  have hx := (Single.is_iff.1 hpen.point.1).1
  have hy := (Single.is_iff.1 hpen.point.2).1
  exact ⟨Single.is_value (Single.isFinite_of_add hx).2,
    Single.is_value (Single.isFinite_of_add hy).2⟩

/-- The pens after one more command. -/
theorem exactPen_succ (tolerance : Single) {i : ℕ} {c : Command} (hc : cs[i]? = some c) :
    exactPen cs (i + 1) = (exactPen cs i).advance c
      ∧ exactPen (alignLines tolerance cs) (i + 1) = (exactPen (alignLines tolerance cs) i).advance
          (alignLine tolerance (alignedPen tolerance cs i).point c) := by
  refine ⟨ExactPen.advanceAll_take_succ _ hc, ExactPen.advanceAll_take_succ _ ?_⟩
  rw [getElem?_alignLines, hc, Option.map_some]

end WalksExactly

/-- One command keeps pens near each other, if it is no relative line that loses too much. -/
theorem WalksExactly.near_succ (h : WalksExactly tolerance cs) (ht : tolerance.Is t) (h₀ : 0 ≤ t)
    {i : ℕ} (hlittle : ∀ d, cs[i]? = some (.draw .line .relative [d]) →
      LosesLittle t (lead tolerance cs i) d)
    (hnear : (exactPen (alignLines tolerance cs) i).Near t (exactPen cs i)) :
    (exactPen (alignLines tolerance cs) (i + 1)).Near t (exactPen cs (i + 1)) := by
  cases hc : cs[i]? with
  | none =>
    have hi := List.getElem?_eq_none_iff.1 hc
    have hstay (ds : List Command) (hds : ds.length = cs.length) :
        exactPen ds (i + 1) = exactPen ds i := by
      rw [exactPen, exactPen, List.take_of_length_le (by omega), List.take_of_length_le (by omega)]
    rwa [hstay cs rfl, hstay _ (length_alignLines tolerance cs)]
  | some c =>
    obtain ⟨hbefore, hafter⟩ := exactPen_succ tolerance hc
    rw [hbefore, hafter]
    by_cases hline : ∃ m p, c = .draw .line m [p]
    · obtain ⟨m, p, rfl⟩ := hline
      refine ⟨?_, by rw [starts_advance_alignLine]; exact hnear.starts⟩
      cases m with
      | absolute =>
        refine within_alignLine_absolute ht h₀ _ _ ?_
        rw [← h.alignedPen_value]
        exact h.measured i p hc
      | relative =>
        rw [within_alignLine_relative_iff ht hnear.point _ (h.is_value hc), ← h.lead_eq]
        exact hlittle p hc
    · rw [alignLine_of_ne fun m p heq => hline ⟨m, p, heq⟩]
      exact hnear.advance h₀ c

theorem WalksExactly.near (h : WalksExactly tolerance cs) (ht : tolerance.Is t) (h₀ : 0 ≤ t)
    (hlittle : ∀ i d, cs[i]? = some (.draw .line .relative [d]) →
      LosesLittle t (lead tolerance cs i) d) (i : ℕ) :
    (exactPen (alignLines tolerance cs) i).Near t (exactPen cs i) := by
  induction i with
  | zero => exact ⟨within_self h₀ (0, 0), .nil⟩
  | succ i ih => exact h.near_succ ht h₀ (hlittle i) ih

/-- **Aligned lines stay within the tolerance exactly if relative lines do not lose too much.** On a
path on which nothing is rounded, the pen after each command is within the tolerance, in each
coordinate, of where it is when the lines are not aligned, exactly if every relative line that is
aligned loses a displacement that leaves the lead of the pen at no more than the tolerance. -/
theorem alignLines_within_tolerance_iff {tolerance : Single} {cs : List Command}
    (hfinite : tolerance.isFinite = true) (hnonneg : 0 ≤ tolerance)
    (hexact : WalksExactly tolerance cs) :
    (∀ i, Within tolerance.value (alignedPen tolerance cs i).point.value
        (Pen.advanceAll {} (cs.take i)).point.value)
      ↔ ∀ i d, cs[i]? = some (.draw .line .relative [d]) →
          LosesLittle tolerance.value (lead tolerance cs i) d := by
  have ht := Single.is_value hfinite
  have h₀ : 0 ≤ tolerance.value := (Single.Is.le_iff (by decide +kernel) ht).1 hnonneg
  constructor
  · intro hall i d hd
    obtain ⟨hbefore, hafter⟩ := WalksExactly.exactPen_succ tolerance hd
    have hwithin := hall i
    have hwithin' := hall (i + 1)
    rw [hexact.point_value, hexact.alignedPen_value] at hwithin hwithin'
    rw [hbefore, hafter] at hwithin'
    rw [hexact.lead_eq]
    exact (within_alignLine_relative_iff ht hwithin _ (hexact.is_value hd)).1 hwithin'
  · intro hlittle i
    rw [hexact.point_value, hexact.alignedPen_value]
    exact (hexact.near ht h₀ hlittle i).point

/-- Two relative lines and an absolute one, each of which loses the whole tolerance. -/
theorem three_lines_within_tolerance :
    let cs : List Command := [.draw .move .absolute [⟨0, 0⟩], .draw .line .relative [⟨9, 1⟩],
      .draw .line .absolute [⟨18, 1⟩], .draw .line .relative [⟨9, -1⟩]]
    Float32.isFinite 1 = true ∧ (0 : Single) ≤ 1 ∧ WalksExactly 1 cs
      ∧ ∀ i, Within (Single.value 1) (alignedPen 1 cs i).point.value
          (Pen.advanceAll {} (cs.take i)).point.value := by
  intro cs
  have hexact : WalksExactly 1 cs := by
    refine ⟨by decide +kernel, by decide +kernel, fun i p h => ?_⟩
    match i, h with
    | 2, h =>
      obtain rfl : p = ⟨18, 1⟩ := by simpa [cs, eq_comm] using h
      decide +kernel
    | 3, h => cases h
    | _ + 4, h => cases h
  refine ⟨by decide, by decide, hexact,
    (alignLines_within_tolerance_iff (by decide) (by decide) hexact).2 fun i d h => ?_⟩
  match i, h with
  | 1, h =>
    obtain rfl : d = ⟨9, 1⟩ := by simpa [cs, eq_comm] using h
    decide +kernel
  | 3, h =>
    obtain rfl : d = ⟨9, -1⟩ := by simpa [cs, eq_comm] using h
    decide +kernel
  | _ + 4, h => cases h

/-- Two relative lines that go down by the tolerance each: the second ends two units too high. -/
theorem losses_add_up :
    let cs : List Command := [.draw .move .absolute [⟨0, 0⟩], .draw .line .relative [⟨9, 1⟩],
      .draw .line .relative [⟨9, 1⟩]]
    Float32.isFinite 1 = true ∧ (0 : Single) ≤ 1 ∧ WalksExactly 1 cs
      ∧ (alignedPen 1 cs 3).point.value = (18, 0)
      ∧ (Pen.advanceAll {} (cs.take 3)).point.value = (18, 2)
      ∧ ¬∀ i, Within (Single.value 1) (alignedPen 1 cs i).point.value
          (Pen.advanceAll {} (cs.take i)).point.value := by
  intro cs
  have hexact : WalksExactly 1 cs := by
    refine ⟨by decide +kernel, by decide +kernel, fun i p h => ?_⟩
    match i, h with
    | _ + 3, h => cases h
  exact ⟨by decide, by decide, hexact, by decide +kernel, by decide +kernel,
    fun hall => absurd (hall 3) (by decide +kernel)⟩

end Path

end VectorGraphics
