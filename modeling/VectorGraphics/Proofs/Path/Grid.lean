import VectorGraphics.Proofs.Number.Whole
import VectorGraphics.Proofs.Path.Events

/-!
# Straight paths on the grid of whole numbers

A straight path with whole coordinates is a list of `GridEvent`s, walked by a `GridPen`. A command
of one group `Spells` an event if it draws that event from where the pen is; commands `Draw` a list
of events if they spell them one after the other and no event leaves the range in which single
precision is exact. Pens that agree stay in agreement along such a path (`on_advance`), and meet
the same events (`events_of_draws`).
-/

namespace VectorGraphics.Path

/-- A point with whole coordinates. -/
abbrev GridPoint := ℤ × ℤ

/-- A stroke that ends in a point with whole coordinates. -/
inductive GridEvent
  | move (p : GridPoint)
  | line (p : GridPoint)
  | close (p : GridPoint)
  deriving DecidableEq

/-- The point where a stroke ends. -/
def GridEvent.point : GridEvent → GridPoint
  | move p | line p | close p => p

/-- The current point and the start of the subpath, if there is one. -/
structure GridPen where
  point : GridPoint
  start : Option GridPoint

/-- The pen after a stroke. -/
def GridPen.advance (pen : GridPen) : GridEvent → GridPen
  | .move p => ⟨p, some p⟩
  | .line p => ⟨p, pen.start⟩
  | .close p => ⟨p, pen.start⟩

/-- Both coordinates have at most 24 bits, so that their differences are exact. -/
def InRange (p : GridPoint) : Prop := p.1.natAbs ≤ 2 ^ 23 ∧ p.2.natAbs ≤ 2 ^ 23

/-! ## Agreement -/

/-- The coordinates are the given whole numbers. -/
def OnGrid (p : Point) (q : GridPoint) : Prop := p.x.Is q.1 ∧ p.y.Is q.2

/-- The strokes are of the same kind and end in the same point. -/
inductive Event.On : Event → GridEvent → Prop
  | move {p : Point} {q : GridPoint} (h : OnGrid p q) : On (.move p) (.move q)
  | line {p : Point} {q : GridPoint} (h : OnGrid p q) : On (.line p) (.line q)
  | close {p : Point} {q : GridPoint} (h : OnGrid p q) : On (.close p) (.close q)

/-- The pens stand in the same point, and so do the starts of their subpaths. -/
structure Pen.On (pen : Pen) (q : GridPen) : Prop where
  point : OnGrid pen.point q.point
  start : ∀ s, q.start = some s → ∃ p, pen.starts.head? = some p ∧ OnGrid p s

theorem OnGrid.beq {p q : Point} {a b : GridPoint} (hp : OnGrid p a) (hq : OnGrid q b) :
    (p == q) = (a == b) :=
  congrArg₂ and (hp.1.beq_int hq.1) (hp.2.beq_int hq.2)

theorem Event.On.beq {e f : Event} {a b : GridEvent} (he : e.On a) (hf : f.On b) :
    (e == f) = (a == b) := by
  cases he with
  | move hp =>
    cases hf with
    | move hq =>
      refine (hp.beq hq).trans ?_
      rw [Bool.eq_iff_iff, beq_iff_eq, beq_iff_eq, GridEvent.move.injEq]
    | line hq | close hq => rfl
  | line hp =>
    cases hf with
    | line hq =>
      refine (hp.beq hq).trans ?_
      rw [Bool.eq_iff_iff, beq_iff_eq, beq_iff_eq, GridEvent.line.injEq]
    | move hq | close hq => rfl
  | close hp =>
    cases hf with
    | close hq =>
      refine (hp.beq hq).trans ?_
      rw [Bool.eq_iff_iff, beq_iff_eq, beq_iff_eq, GridEvent.close.injEq]
    | move hq | line hq => rfl

/-- The displacement between two points in range is exact. -/
theorem natAbs_sub_le {a b : ℤ} (ha : a.natAbs ≤ 2 ^ 23) (hb : b.natAbs ≤ 2 ^ 23) :
    (a - b).natAbs ≤ 2 ^ 24 := by
  omega

theorem OnGrid.sub {p q : Point} {a b : GridPoint} (hp : OnGrid p a) (hq : OnGrid q b)
    (ha : InRange a) (hb : InRange b) : OnGrid (p - q) (a - b) :=
  ⟨hp.1.sub_int hq.1 (natAbs_sub_le ha.1 hb.1), hp.2.sub_int hq.2 (natAbs_sub_le ha.2 hb.2)⟩

/-- A displacement of a point leads to where it should. -/
theorem is_add {x d : Single} {a b : ℤ} (hx : x.Is a) (hd : d.Is (b - a : ℤ))
    (hb : b.natAbs ≤ 2 ^ 23) : (x + d).Is b := by
  have hb : b.natAbs ≤ 2 ^ 24 := hb.trans (by decide)
  have := hx.add_int hd (by rwa [add_sub_cancel])
  rwa [add_sub_cancel] at this

/-! ## Commands that draw one stroke -/

/-- A command of one group that draws a stroke with the pen before it. -/
inductive Spells (pen : GridPen) : Command → GridEvent → Prop
  | move {p : Point} {q : GridPoint} (h : OnGrid p q) :
    Spells pen (.draw .move .absolute [p]) (.move q)
  | moveBy {p : Point} {q : GridPoint} (h : OnGrid p (q - pen.point)) :
    Spells pen (.draw .move .relative [p]) (.move q)
  | line {p : Point} {q : GridPoint} (h : OnGrid p q) :
    Spells pen (.draw .line .absolute [p]) (.line q)
  | lineBy {p : Point} {q : GridPoint} (h : OnGrid p (q - pen.point)) :
    Spells pen (.draw .line .relative [p]) (.line q)
  | horizontal {x : Single} {a : ℤ} (h : x.Is a) :
    Spells pen (.draw .horizontal .absolute [x]) (.line (a, pen.point.2))
  | horizontalBy {x : Single} {a : ℤ} (h : x.Is (a - pen.point.1 : ℤ)) :
    Spells pen (.draw .horizontal .relative [x]) (.line (a, pen.point.2))
  | vertical {y : Single} {b : ℤ} (h : y.Is b) :
    Spells pen (.draw .vertical .absolute [y]) (.line (pen.point.1, b))
  | verticalBy {y : Single} {b : ℤ} (h : y.Is (b - pen.point.2 : ℤ)) :
    Spells pen (.draw .vertical .relative [y]) (.line (pen.point.1, b))
  | close {s : GridPoint} (h : pen.start = some s) : Spells pen .close (.close s)

/-- The commands draw the strokes one after the other, all in range. -/
inductive Draws : GridPen → List Command → List GridEvent → Prop
  | nil {pen : GridPen} : Draws pen [] []
  | cons {pen : GridPen} {c : Command} {e : GridEvent} {cs : List Command} {es : List GridEvent}
      (hc : Spells pen c e) (he : InRange e.point) (h : Draws (pen.advance e) cs es) :
      Draws pen (c :: cs) (e :: es)

variable {pen : Pen} {q : GridPen}

/-- Where a stroke ends, and what the pen becomes. -/
theorem Spells.walk {c : Command} {e : GridEvent} (h : Spells q c e) (hpen : pen.On q)
    (he : InRange e.point) :
    (pen.advance c).On (q.advance e) ∧ ∃ s, c.events pen = [s] ∧ s.On e := by
  obtain ⟨hpoint, hstart⟩ := hpen
  have hopen {p : Point} {a : GridPoint} (hp : OnGrid p a) (s : GridPoint) (hs : some a = some s) :
      ∃ p', (p :: pen.starts).head? = some p' ∧ OnGrid p' s :=
    ⟨p, rfl, Option.some.inj hs ▸ hp⟩
  cases h with
  | move hp => exact ⟨⟨hp, hopen hp⟩, _, rfl, .move hp⟩
  | moveBy hp =>
    have hland := And.intro (is_add hpoint.1 hp.1 he.1) (is_add hpoint.2 hp.2 he.2)
    exact ⟨⟨hland, hopen hland⟩, _, rfl, .move hland⟩
  | line hp => exact ⟨⟨hp, hstart⟩, _, rfl, .line hp⟩
  | lineBy hp =>
    have hland := And.intro (is_add hpoint.1 hp.1 he.1) (is_add hpoint.2 hp.2 he.2)
    exact ⟨⟨hland, hstart⟩, _, rfl, .line hland⟩
  | horizontal hx => exact ⟨⟨⟨hx, hpoint.2⟩, hstart⟩, _, rfl, .line ⟨hx, hpoint.2⟩⟩
  | horizontalBy hx =>
    have hland := And.intro (is_add hpoint.1 hx he.1) hpoint.2
    exact ⟨⟨hland, hstart⟩, _, rfl, .line hland⟩
  | vertical hy => exact ⟨⟨⟨hpoint.1, hy⟩, hstart⟩, _, rfl, .line ⟨hpoint.1, hy⟩⟩
  | verticalBy hy =>
    have hland := And.intro hpoint.1 (is_add hpoint.2 hy he.2)
    exact ⟨⟨hland, hstart⟩, _, rfl, .line hland⟩
  | @close s hs =>
    obtain ⟨p, hhead, hp⟩ := hstart s hs
    have hland : OnGrid (pen.advance .close).point s := by
      rw [Pen.advance, hhead]
      exact hp
    exact ⟨⟨hland, hstart⟩, _, rfl, .close hland⟩

/-- A pen meets the strokes that the commands draw. -/
theorem events_of_draws {cs : List Command} {es : List GridEvent} (h : Draws q cs es)
    (hpen : pen.On q) : List.Forall₂ Event.On (events pen cs) es := by
  induction h generalizing pen with
  | nil => exact .nil
  | cons hc he _ ih =>
    obtain ⟨hpen', s, hs, hon⟩ := hc.walk hpen he
    rw [events, hs, List.singleton_append]
    exact .cons hon (ih hpen')

end VectorGraphics.Path
