import VectorGraphics.Path.Spelling
import VectorGraphics.Proofs.Path.Likeness
import VectorGraphics.Proofs.Path.Outline
import VectorGraphics.Proofs.Path.Walks

/-!
# What leaving out repeated commands loses

`dropRepeated` reads a path from front to back, so that a command is left out if nothing is added
to what is kept so far (`LeavesOut`). That is the case exactly if the command before it is not
relative and equal to it (`leavesOut_succ_iff`). The pen is then where the command ends, and stays
there. A line, an arc and a close draw nothing from there; a curve draws a loop or a spike, unless
its control points are there too (`dropRepeated_drops_still_iff`).
-/

namespace VectorGraphics.Path

/-! ## Equal commands -/

instance partialEquivBEqList {α : Type} [BEq α] [PartialEquivBEq α] :
    PartialEquivBEq (List α) where
  symm {as bs} h := by
    induction as generalizing bs with
    | nil => cases bs <;> first | rfl | cases h
    | cons a as ih =>
      cases bs with
      | nil => cases h
      | cons b bs =>
        rw [List.cons_beq_cons, Bool.and_eq_true] at h ⊢
        exact ⟨PartialEquivBEq.symm h.1, ih h.2⟩
  trans {as bs cs} h h' := by
    induction as generalizing bs cs with
    | nil => cases bs <;> first | exact h' | cases h
    | cons a as ih =>
      cases bs with
      | nil => cases h
      | cons b bs =>
        cases cs with
        | nil => cases h'
        | cons c cs =>
          rw [List.cons_beq_cons, Bool.and_eq_true] at h h' ⊢
          exact ⟨PartialEquivBEq.trans h.1 h'.1, ih h.2 h'.2⟩

instance : PartialEquivBEq Single := ⟨Single.beq_symm, Single.beq_trans⟩

namespace Command

variable {b c d : Command}

theorem beq_iff : (c == d) = true
    ↔ c.kind? = d.kind? ∧ c.mode? = d.mode? ∧ (c.numbers == d.numbers) = true := by
  change (c.kind? == d.kind? && c.mode? == d.mode? && c.numbers == d.numbers) = true ↔ _
  rw [Bool.and_eq_true, Bool.and_eq_true, beq_iff_eq, beq_iff_eq, and_assoc]

instance : PartialEquivBEq Command where
  symm h := by
    obtain ⟨hkind, hmode, hnumbers⟩ := beq_iff.1 h
    exact beq_iff.2 ⟨hkind.symm, hmode.symm, PartialEquivBEq.symm hnumbers⟩
  trans h h' := by
    obtain ⟨hkind, hmode, hnumbers⟩ := beq_iff.1 h
    obtain ⟨hkind', hmode', hnumbers'⟩ := beq_iff.1 h'
    exact beq_iff.2 ⟨hkind.trans hkind', hmode.trans hmode',
      PartialEquivBEq.trans hnumbers hnumbers'⟩

theorem isRelative_eq_of_beq (h : (c == d) = true) : c.isRelative = d.isRelative := by
  rw [isRelative, isRelative, (beq_iff.1 h).2.1]

theorem forall₂_of_beq {α : Type} [BEq α] {R : α → α → Prop}
    (hR : ∀ {a b : α}, (a == b) = true → R a b) {as bs : List α} (h : (as == bs) = true) :
    List.Forall₂ R as bs := by
  induction as generalizing bs with
  | nil => cases bs <;> first | exact .nil | cases h
  | cons a as ih =>
    cases bs with
    | nil => cases h
    | cons b bs =>
      rw [List.cons_beq_cons, Bool.and_eq_true] at h
      exact .cons (hR h.1) (ih h.2)

theorem Alike.of_beq (h : (c == d) = true) : c.Alike d := by
  obtain ⟨hkind, hmode, hnumbers⟩ := beq_iff.1 h
  cases c with
  | close =>
    cases d with
    | close => exact .close
    | draw => cases hkind
  | draw k m gs =>
    cases d with
    | close => cases hkind
    | draw l n hs =>
      obtain rfl := Option.some.inj hkind
      obtain rfl := Option.some.inj hmode
      have hgroups := forall₂_of_beq (forall₂_of_beq Single.Alike.of_beq) hnumbers
      rw [numbers, numbers, List.forall₂_map_left_iff, List.forall₂_map_right_iff] at hgroups
      exact .draw hgroups

end Command

/-! ## The pen on equal commands -/

namespace Pen

variable {p q r : Pen}

theorem Agrees.alike (h : p.Agrees q) : p.Alike q := by
  refine ⟨h.point ▸ .refl _, ?_⟩
  rw [h.start]
  cases q.starts.head? with
  | none => exact .none
  | some s => exact .some (.refl s)

theorem Agrees.refl (p : Pen) : p.Agrees p := ⟨rfl, rfl⟩

theorem Agrees.symm (h : p.Agrees q) : q.Agrees p := ⟨h.point.symm, h.start.symm⟩

theorem Agrees.trans_alike (h : p.Agrees q) (h' : q.Alike r) : p.Alike r :=
  ⟨h.point ▸ h'.point, h.start ▸ h'.start⟩

end Pen

/-- The pen stays where it is when a command that is not relative is drawn again. -/
theorem Pen.advance_twice_agrees (p : Pen) {c : Command} (h : c.isRelative = false) :
    ((p.advance c).advance c).Agrees (p.advance c) := by
  cases c with
  | close =>
    refine ⟨?_, rfl⟩
    simp only [Pen.advance]
    cases p.starts.head? <;> rfl
  | draw k m gs =>
    obtain rfl : m = .absolute := by
      cases m with
      | absolute => rfl
      | relative => cases h
    by_cases hk : k = .move
    · subst hk
      cases gs with
      | nil => exact .refl _
      | cons g gs => exact ⟨rfl, rfl⟩
    · rw [Pen.advance_draw hk, Pen.advance_draw hk]
      exact ⟨k.foldl_land_absolute_twice p.point gs, rfl⟩

/-- So it does for an equal command. -/
theorem Pen.Alike.advance_repeated {p q : Pen} {b c : Command} (h : (p.advance b).Alike q)
    (hb : b.isRelative = false) (hbc : (b == c) = true) : (p.advance b).Alike (q.advance c) :=
  (p.advance_twice_agrees hb).symm.trans_alike (h.advance (.of_beq hbc))

/-! ## What is left out -/

variable {cs : List Command}

/-- The command with the number `i` is left out: with it and without it, the same is kept. -/
def LeavesOut (cs : List Command) (i : ℕ) (c : Command) : Prop :=
  cs[i]? = some c ∧ dropRepeated (cs.take (i + 1)) = dropRepeated (cs.take i)

/-- What is kept of a path that goes on for one command. -/
theorem dropRepeated_concat (cs : List Command) (c : Command) :
    dropRepeated (cs ++ [c])
      = if repeats (dropRepeated cs).getLast? c then dropRepeated cs
        else dropRepeated cs ++ [c] := by
  -- The last command kept is the last of those kept from here on, or the one kept before.
  have go (last : Option Command) : dropRepeated.go last (cs ++ [c])
      = if repeats ((dropRepeated.go last cs).getLast?.or last) c then dropRepeated.go last cs
        else dropRepeated.go last cs ++ [c] := by
    induction cs generalizing last with
    | nil => rfl
    | cons d cs ih =>
      rw [List.cons_append, dropRepeated.go, dropRepeated.go]
      split
      · exact ih last
      · have hlast (ds : List Command) :
            (d :: ds).getLast?.or last = ds.getLast?.or (some d) := by
          rw [List.getLast?_cons]
          cases ds.getLast? <;> rfl
        rw [ih (some d), hlast]
        split <;> rfl
  have := go none
  rwa [Option.or_none] at this

/-- The last command kept is the last command, or equal to it and not relative: for a command that
comes next, it makes no difference. -/
theorem repeats_getLast?_dropRepeated (cs : List Command) (b c : Command) :
    repeats (dropRepeated (cs ++ [b])).getLast? c = repeats (some b) c := by
  rw [dropRepeated_concat]
  split
  · next h =>
    cases hlast : (dropRepeated cs).getLast? with
    | none =>
      rw [hlast] at h
      cases h
    | some l =>
      rw [hlast] at h
      obtain ⟨-, hlb⟩ := Bool.and_eq_true_iff.1 h
      have hbeq : (l == c) = (b == c) := Bool.eq_iff_iff.2
        ⟨PartialEquivBEq.trans (PartialEquivBEq.symm hlb), PartialEquivBEq.trans hlb⟩
      rw [repeats, repeats, Command.isRelative_eq_of_beq hlb, hbeq]
  · rw [List.getLast?_concat]

/-- A command is left out exactly if it equals the command before it, which is not relative. -/
theorem leavesOut_succ_iff {i : ℕ} {b c : Command} (hb : cs[i]? = some b) :
    LeavesOut cs (i + 1) c
      ↔ cs[i + 1]? = some c ∧ b.isRelative = false ∧ (b == c) = true := by
  refine and_congr_right fun hc => ?_
  have htake : cs.take (i + 1) = cs.take i ++ [b] := by
    rw [List.take_add_one, hb]
    rfl
  rw [List.take_add_one (i := i + 1), hc, Option.toList_some, dropRepeated_concat, htake,
    repeats_getLast?_dropRepeated, repeats]
  split
  · next h => simpa using h
  · next h =>
    have hne : dropRepeated (cs.take i ++ [b]) ++ [c] ≠ dropRepeated (cs.take i ++ [b]) := by simp
    simpa [hne] using h

theorem not_leavesOut_zero {c : Command} : ¬LeavesOut cs 0 c := by
  rintro ⟨hc, hkept⟩
  rw [List.take_add_one, hc] at hkept
  exact absurd hkept (List.cons_ne_nil c _)

/-- A command that is left out comes after an equal one that is not relative. -/
theorem LeavesOut.exists_repeated {i : ℕ} {c : Command} (h : LeavesOut cs i c) :
    ∃ j b, i = j + 1 ∧ cs[j]? = some b ∧ b.isRelative = false ∧ (b == c) = true := by
  cases i with
  | zero => exact absurd h not_leavesOut_zero
  | succ j =>
    obtain ⟨hj, -⟩ := List.getElem?_eq_some_iff.1 h.1
    have hb := List.getElem?_eq_getElem (Nat.lt_of_succ_lt hj)
    exact ⟨j, _, rfl, hb, ((leavesOut_succ_iff hb).1 h).2⟩

/-! ## The pen after what is kept -/

/-- What is kept leaves the pen where the whole path does. -/
theorem advanceAll_dropRepeated_alike (p : Pen) (cs : List Command) :
    (p.advanceAll (dropRepeated cs)).Alike (p.advanceAll cs) := by
  induction cs using List.reverseRecOn with
  | nil => exact (Pen.Agrees.refl p).alike
  | append_singleton cs c ih =>
    rw [dropRepeated_concat]
    split
    · next h =>
      cases hlast : (dropRepeated cs).getLast? with
      | none =>
        rw [hlast] at h
        cases h
      | some l =>
        rw [hlast] at h
        -- The pen is after `l` in what is kept, and drawing `c` as well leaves it there.
        obtain ⟨habsolute, hlc⟩ := Bool.and_eq_true_iff.1 h
        obtain ⟨ds, hds⟩ := List.getLast?_eq_some_iff.1 hlast
        rw [hds, Pen.advanceAll_append] at ih ⊢
        rw [Pen.advanceAll_append]
        exact ih.advance_repeated (by simpa using habsolute) hlc
    · rw [Pen.advanceAll_append, Pen.advanceAll_append]
      exact ih.advance (.refl c)

/-- What is kept of the first commands comes first in what is kept of all. -/
theorem dropRepeated_take_isPrefix (cs : List Command) (i : ℕ) :
    dropRepeated (cs.take i) <+: dropRepeated cs := by
  induction cs using List.reverseRecOn with
  | nil => rw [List.take_nil]
  | append_singleton cs c ih =>
    obtain hi | hi := Nat.lt_or_ge cs.length i
    · rw [List.take_of_length_le (by simpa using hi)]
    · rw [List.take_append_of_le_length hi, dropRepeated_concat]
      split
      · exact ih
      · exact ih.trans (List.prefix_append _ _)

/-! ## What is drawn where the pen is -/

namespace Segment

/-- Where a segment starts; a move starts where it leads. -/
def start : Segment → Point
  | move p | line p _ | cubic p _ _ _ | quadratic p _ _ | arc p _ | close p _ => p

/-- Where a segment ends. -/
def stop : Segment → Point
  | move p | line _ p | cubic _ _ _ p | quadratic _ _ p | close _ p => p
  | arc _ a => a.stop

/-- The control points of a curve, written and implied. -/
def controls : Segment → List Point
  | cubic _ p q _ => [p, q]
  | quadratic _ p _ => [p]
  | move _ | line _ _ | arc _ _ | close _ _ => []

/-- All the points of the segment are where it starts. -/
def IsStill (s : Segment) : Prop := s.stop.Alike s.start ∧ ∀ p ∈ s.controls, p.Alike s.start

end Segment

theorem inMode_absolute {c : Command} (h : c.isRelative = false) (pen : Point) :
    c.inMode .absolute pen = c := by
  cases c with
  | close => rfl
  | draw k m gs =>
    cases m with
    | absolute => exact Command.inMode_of_mode?_eq rfl pen
    | relative => cases h

/-- Nothing is drawn by the command: it is a move or a close that repeats the command before it, or
all its segments stay where they start. -/
def DrawsNothing (pen : Pen) (r : Reflection) (before : Option Command) (c : Command) : Prop :=
  match c.kind? with
  | none | some .move => ∃ b, before = some b ∧ (b == c) = true
  | some _ => ∀ s ∈ (c.inMode .absolute pen.point).segments pen r, s.IsStill

/-- A command of one group draws one segment, from the pen to where it takes the pen. -/
theorem start_stop_of_mem_segments {c : Command} (habsolute : c.isRelative = false)
    (hcount : c.groupCount ≤ 1) (hmove : c.isKind .move = false) {pen : Pen} {r : Reflection}
    {s : Segment} (hs : s ∈ c.segments pen r) :
    s.start = pen.point ∧ s.stop = (pen.advance c).point := by
  cases c with
  | close =>
    rw [List.mem_singleton.1 hs]
    exact ⟨rfl, rfl⟩
  | draw k m gs =>
    obtain rfl : m = .absolute := by
      cases m with
      | absolute => rfl
      | relative => cases habsolute
    obtain _ | ⟨g, _ | ⟨g', gs⟩⟩ := gs
    · cases k <;> cases hs
    · cases k with
      | move => cases hmove
      | _ =>
        rw [List.mem_singleton.1 hs]
        exact ⟨rfl, rfl⟩
    · simp [Command.groupCount] at hcount

/-- A move to one point and a close have no control points. -/
theorem controls_eq_nil_of_mem_segments {c : Command} (hcount : c.groupCount ≤ 1)
    (hc : c.kind? = none ∨ c.kind? = some .move) {pen : Pen} {r : Reflection} {s : Segment}
    (hs : s ∈ c.segments pen r) : s.controls = [] := by
  cases c with
  | close =>
    rw [List.mem_singleton.1 hs]
    rfl
  | draw k m gs =>
    obtain rfl : k = .move := by simpa [Command.kind?] using hc
    obtain _ | ⟨g, _ | ⟨g', gs⟩⟩ := gs
    · cases hs
    · rw [List.mem_singleton.1 hs]
      rfl
    · simp [Command.groupCount] at hcount

/-- The pen before a command that equals the one before it is where the command ends. -/
theorem stop_alike_start {i : ℕ} {b c : Command} (hb : cs[i]? = some b)
    (habsolute : b.isRelative = false) (hbc : (b == c) = true) (hcount : c.groupCount ≤ 1)
    (hmove : c.isKind .move = false) {r : Reflection} {s : Segment}
    (hs : s ∈ c.segments (Pen.advanceAll {} (cs.take (i + 1))) r) : s.stop.Alike s.start := by
  have hrelative := Command.isRelative_eq_of_beq hbc
  obtain ⟨hstart, hstop⟩ :=
    start_stop_of_mem_segments (hrelative.symm.trans habsolute) hcount hmove hs
  rw [hstart, hstop, Pen.advanceAll_take_succ _ hb]
  have hrepeated := Pen.Alike.advance_repeated (p := Pen.advanceAll {} (cs.take i))
    (Pen.Agrees.refl _).alike habsolute hbc
  exact hrepeated.point.symm

/-- **What is left out draws nothing exactly if no curve is.** In a path of commands with at most
one group each, every command that is left out is a move or a close that repeats the command before
it, or stays where the pen is, exactly if no absolute command comes before an equal one that draws a
curve with a control point, written or implied, away from its end. What is kept of the first
commands always leaves the pen where these do. -/
theorem dropRepeated_drops_still_iff {cs : List Command} (h : ∀ c ∈ cs, c.groupCount ≤ 1) :
    ((∀ i c, LeavesOut cs i c → DrawsNothing (Pen.advanceAll {} (cs.take i))
          (Reflection.updateAll {} {} (cs.take i)) (cs.take i).getLast? c)
      ↔ ∀ i b c, cs[i]? = some b → cs[i + 1]? = some c → b.isRelative = false → (b == c) = true →
          ∀ s ∈ c.segments (Pen.advanceAll {} (cs.take (i + 1)))
              (Reflection.updateAll {} {} (cs.take (i + 1))), ∀ p ∈ s.controls, p.Alike s.stop)
      ∧ ∀ i, dropRepeated (cs.take i) <+: dropRepeated cs
          ∧ (Pen.advanceAll {} (dropRepeated (cs.take i))).point.Alike
              (Pen.advanceAll {} (cs.take i)).point := by
  have hcount {i : ℕ} {c : Command} (hc : cs[i]? = some c) : c.groupCount ≤ 1 :=
    h c (List.mem_of_getElem? hc)
  refine ⟨⟨fun hall i b c hb hc habsolute hbc s hs p hp => ?_, fun hall i c hleft => ?_⟩,
    fun i => ⟨dropRepeated_take_isPrefix cs i, (advanceAll_dropRepeated_alike {} _).point⟩⟩
  · have hnothing := hall (i + 1) c ((leavesOut_succ_iff hb).2 ⟨hc, habsolute, hbc⟩)
    have hmode := inMode_absolute ((Command.isRelative_eq_of_beq hbc).symm.trans habsolute)
    rw [DrawsNothing, hmode] at hnothing
    split at hnothing
    · next hkind =>
      rw [controls_eq_nil_of_mem_segments (hcount hc) (.inl hkind) hs] at hp
      cases hp
    · next hkind =>
      rw [controls_eq_nil_of_mem_segments (hcount hc) (.inr hkind) hs] at hp
      cases hp
    · obtain ⟨hstop, hcontrols⟩ := hnothing s hs
      exact (hcontrols p hp).trans hstop.symm
  · obtain ⟨j, b, rfl, hb, habsolute, hbc⟩ := hleft.exists_repeated
    have hmode := inMode_absolute ((Command.isRelative_eq_of_beq hbc).symm.trans habsolute)
    have hbefore : (cs.take (j + 1)).getLast? = some b := by
      rw [List.take_add_one, hb, Option.toList_some, List.getLast?_concat]
    rw [DrawsNothing, hmode]
    split
    · exact ⟨b, hbefore, hbc⟩
    · exact ⟨b, hbefore, hbc⟩
    · next k hmove hkind =>
      intro s hs
      have hkind : c.isKind .move = false := by
        rw [Command.isKind, hkind]
        exact beq_eq_false_iff_ne.2 fun heq => hmove (Option.some.inj heq)
      have hstop := stop_alike_start hb habsolute hbc (hcount hleft.1) hkind hs
      exact ⟨hstop, fun p hp => (hall j b c hb hleft.1 habsolute hbc s hs p hp).trans hstop⟩

/-- A line and a close that are written twice. -/
theorem repeated_line_draws_nothing :
    let line : Command := .draw .line .absolute [⟨5, 5⟩]
    let cs := [.draw .move .absolute [⟨0, 0⟩], line, line, .close, .close]
    (∀ c ∈ cs, c.groupCount ≤ 1)
      ∧ LeavesOut cs 2 line
      ∧ ∀ i c, LeavesOut cs i c → DrawsNothing (Pen.advanceAll {} (cs.take i))
          (Reflection.updateAll {} {} (cs.take i)) (cs.take i).getLast? c := by
  intro line cs
  have hcount : ∀ c ∈ cs, c.groupCount ≤ 1 := by decide
  have hcontrols (c : Command) (hc : c ∈ cs) (pen : Pen) (r : Reflection) (s : Segment)
      (hs : s ∈ c.segments pen r) : s.controls = [] := by
    simp only [cs, List.mem_cons, List.not_mem_nil, or_false] at hc
    obtain rfl | rfl | rfl | rfl | rfl := hc <;> rw [List.mem_singleton.1 hs] <;> rfl
  refine ⟨hcount, (leavesOut_succ_iff rfl).2 ⟨rfl, rfl, by decide⟩,
    (dropRepeated_drops_still_iff hcount).1.2 fun i b c _ hc _ _ s hs p hp => ?_⟩
  rw [hcontrols c (List.mem_of_getElem? hc) _ _ s hs] at hp
  cases hp

/-- A curve that is drawn again from its end is a loop, and it is left out. -/
theorem repeated_curve_is_lost :
    let curve : Command := .draw .cubic .absolute [⟨⟨8, 0⟩, ⟨8, 8⟩, ⟨4, 4⟩⟩]
    let cs := [.draw .move .absolute [⟨0, 0⟩], curve, curve]
    BeginsWithMove cs
      ∧ (∀ c ∈ cs, c.groupCount ≤ 1)
      ∧ LeavesOut cs 2 curve
      ∧ ¬DrawsNothing (Pen.advanceAll {} (cs.take 2)) (Reflection.updateAll {} {} (cs.take 2))
          (cs.take 2).getLast? curve := by
  intro curve cs
  refine ⟨⟨_, _, _, _, rfl⟩, by decide, (leavesOut_succ_iff rfl).2 ⟨rfl, rfl, by decide⟩,
    fun hnothing => ?_⟩
  have hsegment : Segment.cubic ⟨4, 4⟩ ⟨8, 0⟩ ⟨8, 8⟩ ⟨4, 4⟩ ∈
      (curve.inMode .absolute (Pen.advanceAll {} (cs.take 2)).point).segments
        (Pen.advanceAll {} (cs.take 2)) (Reflection.updateAll {} {} (cs.take 2)) :=
    List.mem_singleton_self _
  obtain ⟨-, hcontrols⟩ := hnothing _ hsegment
  have hx : Single.Alike 8 4 := (hcontrols ⟨8, 0⟩ List.mem_cons_self).x
  obtain h | ⟨h, -⟩ := hx <;> revert h <;> decide

end VectorGraphics.Path
