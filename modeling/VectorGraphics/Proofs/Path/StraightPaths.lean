import VectorGraphics.Path.Arcs
import VectorGraphics.Path.Spelling
import VectorGraphics.Proofs.Path.Grid
import VectorGraphics.Proofs.Path.RoundTrip

/-!
# Straight paths keep their events

The passes over the commands of a path, printing and reading leave the strokes of a straight path
with whole coordinates as they are, up to repetition. `splitGroups` turns such a path into commands
that draw its strokes one by one (`exists_draws_splitGroups`), and each later step keeps the
strokes: no curve pass finds anything to do, `alignLines` and `chooseModes` respell every stroke,
`dropRepeated` leaves out strokes that repeat the one before, and the numbers read back are the
numbers printed.
-/

namespace VectorGraphics.Path

variable {pen : Pen} {q : GridPen}

/-! ## One stroke per command -/

/-- The pen after some strokes. -/
def GridPen.advanceAll (q : GridPen) (es : List GridEvent) : GridPen := es.foldl advance q

theorem Draws.append {cs ds : List Command} {es fs : List GridEvent} (h : Draws q cs es)
    (h' : Draws (q.advanceAll es) ds fs) : Draws q (cs ++ ds) (es ++ fs) := by
  induction h with
  | nil => exact h'
  | cons hc he _ ih => exact .cons hc he (ih h')

/-- The number is whole and has at most 24 bits. -/
def IsWhole (x : Single) : Prop := ∃ n : ℤ, x.Is n ∧ n.natAbs ≤ 2 ^ 23

/-- The coordinates are whole and have at most 24 bits. -/
def Whole (p : Point) : Prop := ∃ a, OnGrid p a ∧ InRange a

theorem OnGrid.unique {p : Point} {a b : GridPoint} (ha : OnGrid p a) (hb : OnGrid p b) : a = b :=
  Prod.ext (ha.1.int_unique hb.1) (ha.2.int_unique hb.2)

/-- A displacement by a whole number, given where it leads. -/
theorem is_displacement {x d : Single} {a b : ℤ} (hx : x.Is a) (ha : a.natAbs ≤ 2 ^ 23)
    (hd : IsWhole d) (hb : (x + d).Is b) : d.Is (b - a : ℤ) := by
  obtain ⟨n, hn, hle⟩ := hd
  have hsum : (a + n).natAbs ≤ 2 ^ 24 := by omega
  have hb := hb.int_unique (hx.add_int hn hsum)
  rwa [hb, add_sub_cancel_left]

/-- What the walk needs to know about the pen before a command. -/
structure Ready (pen : Pen) (q : GridPen) : Prop where
  on : pen.On q
  inRange : InRange q.point

theorem spells_line {m : Mode} {k : Kind} (hk : k = .line ∨ k = .horizontal ∨ k = .vertical)
    {g : k.Group} (hpen : Ready pen q) (hg : ∀ x ∈ k.numbers g, IsWhole x) {a : GridPoint}
    (ha : OnGrid (k.land m pen.point g) a) : Spells q (.draw k m [g]) (.line a) := by
  obtain ⟨⟨hpoint, -⟩, hrange⟩ := hpen
  obtain rfl | rfl | rfl := hk
  · cases m with
    | absolute => exact .line ha
    | relative =>
      exact .lineBy ⟨is_displacement hpoint.1 hrange.1 (hg _ (by simp [Kind.numbers])) ha.1,
        is_displacement hpoint.2 hrange.2 (hg _ (by simp [Kind.numbers])) ha.2⟩
  · obtain ⟨a, b⟩ := a
    cases m with
    | absolute =>
      obtain rfl := ha.2.int_unique hpoint.2
      exact .horizontal ha.1
    | relative =>
      obtain rfl := ha.2.int_unique hpoint.2
      exact .horizontalBy (is_displacement hpoint.1 hrange.1 (hg _ (by simp [Kind.numbers])) ha.1)
  · obtain ⟨a, b⟩ := a
    cases m with
    | absolute =>
      obtain rfl := ha.1.int_unique hpoint.1
      exact .vertical ha.2
    | relative =>
      obtain rfl := ha.1.int_unique hpoint.1
      exact .verticalBy (is_displacement hpoint.2 hrange.2 (hg _ (by simp [Kind.numbers])) ha.2)

theorem spells_move {m : Mode} {p : Point} (hpen : Ready pen q)
    (hp : ∀ x ∈ Kind.move.numbers p, IsWhole x) {a : GridPoint}
    (ha : OnGrid (Kind.move.land m pen.point p) a) : Spells q (.draw .move m [p]) (.move a) := by
  obtain ⟨⟨hpoint, -⟩, hrange⟩ := hpen
  cases m with
  | absolute => exact .move ha
  | relative =>
    exact .moveBy ⟨is_displacement hpoint.1 hrange.1 (hp _ (by simp [Kind.numbers])) ha.1,
      is_displacement hpoint.2 hrange.2 (hp _ (by simp [Kind.numbers])) ha.2⟩

/-- What a list of commands draws, and where it leaves the pen. -/
structure Walked (q : GridPen) (cs : List Command) (es : List Event) (after : Pen)
    (strokes : List GridEvent) : Prop where
  draws : Draws q cs strokes
  events : List.Forall₂ Event.On es strokes
  ready : Ready after (q.advanceAll strokes)

theorem Walked.nil (hpen : Ready pen q) : Walked q [] [] pen [] := ⟨.nil, .nil, hpen⟩

theorem Walked.append {cs ds : List Command} {es fs : List Event} {middle after : Pen}
    {strokes strokes' : List GridEvent} (h : Walked q cs es middle strokes)
    (h' : Walked (q.advanceAll strokes) ds fs after strokes') :
    Walked q (cs ++ ds) (es ++ fs) after (strokes ++ strokes') := by
  refine ⟨h.draws.append h'.draws, List.rel_append h.events h'.events, ?_⟩
  rw [GridPen.advanceAll, List.foldl_append]
  exact h'.ready

/-- One command that draws one stroke. -/
theorem Walked.single {c : Command} {e : GridEvent} (hpen : Ready pen q) (hc : Spells q c e)
    (he : InRange e.point) : Walked q [c] (c.events pen) (pen.advance c) [e] := by
  obtain ⟨hon, s, hs, hse⟩ := hc.walk hpen.on he
  have hpoint : (q.advance e).point = e.point := by cases e <;> rfl
  have hready : Ready (pen.advance c) (q.advance e) := ⟨hon, hpoint ▸ he⟩
  rw [hs]
  exact ⟨.cons hc he .nil, .cons hse .nil, hready⟩

/-- The lines of a command, group by group. -/
theorem exists_walked_groups {m : Mode} {k : Kind}
    (hk : k = .line ∨ k = .horizontal ∨ k = .vertical) {gs : List k.Group} (hpen : Ready pen q)
    (hgs : ∀ g ∈ gs, ∀ x ∈ k.numbers g, IsWhole x)
    (hland : ∀ p ∈ k.landings m pen.point gs, Whole p) :
    ∃ strokes, Walked q (gs.map fun g => .draw k m [g])
      ((k.landings m pen.point gs).map .line)
      { pen with point := gs.foldl (k.land m) pen.point } strokes := by
  induction gs generalizing pen q with
  | nil => exact ⟨[], .nil hpen⟩
  | cons g gs ih =>
    obtain ⟨a, ha, hrange⟩ := hland _ List.mem_cons_self
    have hfirst := Walked.single hpen
      (spells_line (m := m) hk hpen (hgs g List.mem_cons_self) ha) hrange
    have hevents : (Command.draw k m [g]).events pen = [.line (k.land m pen.point g)] := by
      obtain rfl | rfl | rfl := hk <;> rfl
    have hadvance : pen.advance (.draw k m [g]) = { pen with point := k.land m pen.point g } := by
      obtain rfl | rfl | rfl := hk <;> rfl
    rw [hevents, hadvance] at hfirst
    obtain ⟨strokes, hmore⟩ := ih hfirst.ready
      (fun h hh => hgs h (List.mem_cons_of_mem g hh))
      (fun p hp => hland p (List.mem_cons_of_mem _ hp))
    exact ⟨_, hfirst.append hmore⟩

/-- A command of lines and moves with whole numbers. -/
structure IsStraight (c : Command) : Prop where
  kind : ∀ k, c.kind? = some k → k = .move ∨ k = .line ∨ k = .horizontal ∨ k = .vertical
  whole : ∀ xs ∈ c.numbers, ∀ x ∈ xs, IsWhole x

theorem land_move (m : Mode) : Kind.move.land m = Kind.line.land m := by
  cases m <;> rfl

theorem landings_move (m : Mode) (p : Point) (ps : List Point) :
    Kind.move.landings m p ps = Kind.line.landings m p ps := by
  induction ps generalizing p with
  | nil => rfl
  | cons p' ps ih => rw [Kind.landings, Kind.landings, land_move, ih]

theorem isSome_start_advanceAll {q : GridPen} (h : q.start.isSome = true) (es : List GridEvent) :
    (q.advanceAll es).start.isSome = true := by
  induction es generalizing q with
  | nil => exact h
  | cons e es ih =>
    refine ih ?_
    cases e <;> first | rfl | exact h

/-- A subpath is open, or the command opens one. -/
def Opens (q : GridPen) (c : Command) : Prop :=
  q.start.isSome = true ∨ ∃ m p ps, c = .draw .move m (p :: ps)

theorem Ready.exists_walked_close (hpen : Ready pen q) (hstart : q.start.isSome = true)
    (hevents : ∀ e ∈ Command.close.events pen, Whole e.point) :
    ∃ strokes, Walked q [.close] (Command.close.events pen) (pen.advance .close) strokes := by
  obtain ⟨s, hs⟩ := Option.isSome_iff_exists.1 hstart
  obtain ⟨a, ha, hrange⟩ := hevents _ (List.mem_singleton_self _)
  obtain ⟨p, hhead, hp⟩ := hpen.on.start s hs
  have hpoint : (pen.advance .close).point = p := by rw [Pen.advance, hhead]; rfl
  obtain rfl : a = s := by
    rw [Event.point, hpoint] at ha
    exact ha.unique hp
  exact ⟨_, .single hpen (.close hs) hrange⟩

/-- A move goes to its first point, and draws lines to the others. -/
theorem Ready.exists_walked_move {m : Mode} {p : Point} {ps : List Point} (hpen : Ready pen q)
    (hwhole : ∀ g ∈ p :: ps, ∀ x ∈ Kind.move.numbers g, IsWhole x)
    (hevents : ∀ e ∈ (Command.draw .move m (p :: ps)).events pen, Whole e.point) :
    ∃ a strokes, Walked q (Command.draw .move m (p :: ps)).split
      ((Command.draw .move m (p :: ps)).events pen) (pen.advance (.draw .move m (p :: ps)))
      (.move a :: strokes) := by
  obtain ⟨a, ha, hrange⟩ := hevents _ List.mem_cons_self
  have hfirst := Walked.single hpen
    (spells_move (m := m) hpen (hwhole p List.mem_cons_self) ha) hrange
  have hlines : ∀ p' ∈ Kind.line.landings m (Kind.move.land m pen.point p) ps, Whole p' := by
    intro p' hp'
    rw [← landings_move] at hp'
    exact hevents (.line p') (List.mem_cons_of_mem _ (List.mem_map_of_mem hp'))
  obtain ⟨strokes, hmore⟩ := exists_walked_groups (m := m) (k := .line) (.inl rfl)
    hfirst.ready (fun g hg => hwhole g (List.mem_cons_of_mem p hg)) hlines
  have hfollow : (Command.draw .move m (p :: ps)).events pen
      = (Command.draw .move m [p]).events pen
        ++ (Kind.line.landings m (Kind.move.land m pen.point p) ps).map .line := by
    rw [← landings_move]
    rfl
  have hadvance : pen.advance (.draw .move m (p :: ps))
      = { pen.advance (.draw .move m [p]) with
          point := ps.foldl (Kind.line.land m) (pen.advance (.draw .move m [p])).point } := by
    rw [← land_move]
    rfl
  rw [hfollow, hadvance]
  exact ⟨a, strokes, hfirst.append hmore⟩

/-- One command is split into commands that draw its strokes one by one, and leaves a subpath
open. -/
theorem exists_walked_command {c : Command} (hpen : Ready pen q) (hc : IsStraight c)
    (hopen : Opens q c) (hevents : ∀ e ∈ c.events pen, Whole e.point) :
    ∃ strokes, Walked q c.split (c.events pen) (pen.advance c) strokes
      ∧ (q.advanceAll strokes).start.isSome = true := by
  have hstart (h : ∀ m p ps, c ≠ .draw .move m (p :: ps)) : q.start.isSome = true :=
    hopen.resolve_right (by
      rintro ⟨m, p, ps, hc⟩
      exact h m p ps hc)
  cases c with
  | close =>
    have hstart := hstart (by rintro _ _ _ ⟨⟩)
    obtain ⟨strokes, h⟩ := hpen.exists_walked_close hstart hevents
    exact ⟨strokes, h, isSome_start_advanceAll hstart strokes⟩
  | draw k m gs =>
    have hwhole : ∀ g ∈ gs, ∀ x ∈ k.numbers g, IsWhole x := fun g hg x hx =>
      hc.whole _ (List.mem_map_of_mem hg) x hx
    obtain rfl | hk := hc.kind k rfl
    · cases gs with
      | nil => exact ⟨[], .nil hpen, hstart (by rintro _ _ _ ⟨⟩)⟩
      | cons p ps =>
        obtain ⟨a, strokes, h⟩ := hpen.exists_walked_move hwhole hevents
        exact ⟨_, h, isSome_start_advanceAll (q := q.advance (.move a)) rfl strokes⟩
    · have hland : ∀ p ∈ k.landings m pen.point gs, Whole p := by
        intro p hp
        have hline : Event.line p ∈ (Command.draw k m gs).events pen := by
          obtain rfl | rfl | rfl := hk <;> exact List.mem_map_of_mem hp
        exact hevents (.line p) hline
      obtain ⟨strokes, h⟩ := exists_walked_groups (m := m) hk hpen hwhole hland
      refine ⟨strokes, ?_, isSome_start_advanceAll (hstart ?_) strokes⟩
      · obtain rfl | rfl | rfl := hk <;> exact h
      · obtain rfl | rfl | rfl := hk <;> rintro _ _ _ ⟨⟩

/-- Splitting the groups gives commands that draw the strokes one by one. -/
theorem exists_walked_splitGroups {cs : List Command} (hpen : Ready pen q)
    (hcs : ∀ c ∈ cs, IsStraight c) (hopen : ∀ c, cs.head? = some c → Opens q c)
    (hevents : ∀ e ∈ events pen cs, Whole e.point) :
    ∃ strokes, Walked q (splitGroups cs) (events pen cs) (pen.advanceAll cs) strokes := by
  induction cs generalizing pen q with
  | nil => exact ⟨[], .nil hpen⟩
  | cons c cs ih =>
    obtain ⟨strokes, hfirst, hstart⟩ := exists_walked_command hpen (hcs c List.mem_cons_self)
      (hopen c rfl) fun e he => hevents e (List.mem_append_left _ he)
    obtain ⟨strokes', hmore⟩ := ih hfirst.ready (fun d hd => hcs d (List.mem_cons_of_mem c hd))
      (fun _ _ => .inl hstart) fun e he => hevents e (List.mem_append_right _ he)
    exact ⟨_, hfirst.append hmore⟩

/-! ## Passes that find nothing to do -/

theorem curveCandidates_of_spells {c : Command} {e : GridEvent} (h : Spells q c e)
    (tolerance : Single) (p : Point) (r : Reflection) (next : Option Command) :
    curveCandidates tolerance p r next c = [] := by
  cases h <;> rfl

theorem arcCandidates_of_spells {c : Command} {e : GridEvent} (h : Spells q c e)
    (tolerance : Single) (p : Point) (next : Option Command) :
    arcCandidates tolerance p next c = [] := by
  cases h <;> rfl

theorem shortestOf_nil (places : UInt8) (c : Command) : shortestOf places c [] = c := rfl

variable {cs : List Command} {es : List GridEvent} {tolerance : Single} {places : UInt8}

theorem Draws.exists_spells (h : Draws q cs es) : ∀ c ∈ cs, ∃ q e, Spells q c e := by
  induction h with
  | nil => exact fun _ hc => absurd hc List.not_mem_nil
  | cons hc _ _ ih => exact List.forall_mem_cons.2 ⟨⟨_, _, hc⟩, ih⟩

theorem simplifyCurves_of_draws (h : Draws q cs es) : simplifyCurves tolerance places cs = cs := by
  refine rewrite_eq_self _ _ (fun (pen, r) next c hc => ?_) _
  obtain ⟨_, _, hspells⟩ := h.exists_spells c hc
  dsimp only
  rw [curveCandidates_of_spells hspells, shortestOf_nil]

theorem convertToArcs_of_draws (h : Draws q cs es) : convertToArcs tolerance places cs = cs := by
  refine rewrite_eq_self _ _ (fun _ next c hc => ?_) _
  obtain ⟨_, _, hspells⟩ := h.exists_spells c hc
  rw [arcCandidates_of_spells hspells, shortestOf_nil]

/-! ## Other spellings of the same strokes -/

theorem advance_point (q : GridPen) (e : GridEvent) : (q.advance e).point = e.point := by
  cases e <;> rfl

theorem Ready.advance {c : Command} {e : GridEvent} (hpen : Ready pen q) (hc : Spells q c e)
    (he : InRange e.point) : Ready (pen.advance c) (q.advance e) :=
  ⟨(hc.walk hpen.on he).1, advance_point q e ▸ he⟩

/-- Edits that keep the stroke of every command keep those of a path, whether the pen follows the
commands as they were or what has become of them. -/
theorem Draws.rewrite {edit : Pen → Option Command → Command → Command}
    {after : Pen → Command → Command → Pen} (h : Draws q cs es)
    (hedit : ∀ {pen q next c e}, Spells q c e → Ready pen q → InRange e.point →
      Spells q (edit pen next c) e)
    (hafter : ∀ pen c d, after pen c d = pen.advance c ∨ after pen c d = pen.advance d)
    (hpen : Ready pen q) : Draws q (rewrite edit after pen cs) es := by
  induction h generalizing pen with
  | nil => exact .nil
  | @cons q c e cs es hc he _ ih =>
    have hd : Spells q (edit pen cs.head? c) e := hedit hc hpen he
    refine .cons hd he (ih ?_)
    obtain hnext | hnext := hafter pen c (edit pen cs.head? c)
    · exact hnext ▸ hpen.advance hc he
    · exact hnext ▸ hpen.advance hd he

theorem Spells.alignLine {c : Command} {e : GridEvent} (h : Spells q c e) (hpen : Ready pen q)
    (he : InRange e.point) (ht : tolerance < 1) :
    Spells q (alignLine tolerance pen.point c) e := by
  cases h with
  | @line p a hp =>
    obtain ⟨a, b⟩ := a
    have hdelta := hp.sub hpen.on.point he hpen.inRange
    rw [Path.alignLine]
    split
    · next hy =>
      obtain rfl : b = q.point.2 := by
        have := hdelta.2.eq_zero_of_abs_le ht hy
        exact sub_eq_zero.1 this
      exact .horizontal hp.1
    · split
      · next hx =>
        obtain rfl : a = q.point.1 := by
          have := hdelta.1.eq_zero_of_abs_le ht hx
          exact sub_eq_zero.1 this
        exact .vertical hp.2
      · exact .line hp
  | @lineBy p a hp =>
    obtain ⟨a, b⟩ := a
    rw [Path.alignLine]
    split
    · next hy =>
      obtain rfl : b = q.point.2 := sub_eq_zero.1 (hp.2.eq_zero_of_abs_le ht hy)
      exact .horizontalBy hp.1
    · split
      · next hx =>
        obtain rfl : a = q.point.1 := sub_eq_zero.1 (hp.1.eq_zero_of_abs_le ht hx)
        exact .verticalBy hp.2
      · exact .lineBy hp
  | move hp => exact .move hp
  | moveBy hp => exact .moveBy hp
  | horizontal hx => exact .horizontal hx
  | horizontalBy hx => exact .horizontalBy hx
  | vertical hy => exact .vertical hy
  | verticalBy hy => exact .verticalBy hy
  | close hs => exact .close hs

theorem draws_alignLines (h : Draws q cs es) (hpen : Ready pen q) (ht : tolerance < 1) :
    Draws q (alignLines.go tolerance pen cs) es :=
  h.rewrite (fun hc hpen he => hc.alignLine hpen he ht) (fun _ _ _ => .inr rfl) hpen

theorem is_add_right {x d : Single} {a b : ℤ} (hx : x.Is a) (hd : d.Is (b - a : ℤ))
    (hb : b.natAbs ≤ 2 ^ 23) : (d + x).Is b := by
  have := hd.add_int hx (by rw [sub_add_cancel]; exact hb.trans (by decide))
  rwa [sub_add_cancel] at this

theorem is_add_neg {x y : Single} {a b : ℤ} (hx : x.Is a) (hy : y.Is b)
    (ha : a.natAbs ≤ 2 ^ 23) (hb : b.natAbs ≤ 2 ^ 23) : (x + -y).Is (a - b : ℤ) :=
  hx.add_int hy.neg_int (natAbs_sub_le ha hb)

/-- A command draws the same stroke in the other mode. -/
theorem Spells.inMode {c : Command} {e : GridEvent} (h : Spells q c e) (hpen : Ready pen q)
    (he : InRange e.point) (target : Mode) : Spells q (c.inMode target pen.point) e := by
  obtain ⟨⟨hpoint, -⟩, hrange⟩ := hpen
  cases target with
  | absolute =>
    cases h with
    | move hp => exact .move hp
    | moveBy hp =>
      exact .move ⟨is_add_right hpoint.1 hp.1 he.1, is_add_right hpoint.2 hp.2 he.2⟩
    | line hp => exact .line hp
    | lineBy hp =>
      exact .line ⟨is_add_right hpoint.1 hp.1 he.1, is_add_right hpoint.2 hp.2 he.2⟩
    | horizontal hx => exact .horizontal hx
    | horizontalBy hx => exact .horizontal (is_add_right hpoint.1 hx he.1)
    | vertical hy => exact .vertical hy
    | verticalBy hy => exact .vertical (is_add_right hpoint.2 hy he.2)
    | close hs => exact .close hs
  | relative =>
    cases h with
    | move hp =>
      exact .moveBy ⟨is_add_neg hp.1 hpoint.1 he.1 hrange.1, is_add_neg hp.2 hpoint.2 he.2 hrange.2⟩
    | moveBy hp => exact .moveBy hp
    | line hp =>
      exact .lineBy ⟨is_add_neg hp.1 hpoint.1 he.1 hrange.1, is_add_neg hp.2 hpoint.2 he.2 hrange.2⟩
    | lineBy hp => exact .lineBy hp
    | horizontal hx => exact .horizontalBy (is_add_neg hx hpoint.1 he.1 hrange.1)
    | horizontalBy hx => exact .horizontalBy hx
    | vertical hy => exact .verticalBy (is_add_neg hy hpoint.2 he.2 hrange.2)
    | verticalBy hy => exact .verticalBy hy
    | close hs => exact .close hs

theorem Spells.chooseMode {c : Command} {e : GridEvent} (h : Spells q c e) (hpen : Ready pen q)
    (he : InRange e.point) : Spells q (chooseMode places pen.point c) e := by
  rw [Path.chooseMode]
  split
  · exact h
  · simp only
    split
    · exact h.inMode hpen he _
    · exact h

theorem draws_chooseModes (h : Draws q cs es) (hpen : Ready pen q) :
    Draws q (chooseModes.go places pen cs) es :=
  h.rewrite (fun hc hpen he => hc.chooseMode hpen he) (fun _ _ _ => .inl rfl) hpen

/-! ## Repeated strokes -/

theorem numbers_beq_pair {p p' : Point} {a b : GridPoint} (hp : OnGrid p a) (hp' : OnGrid p' b)
    (h : ([[p.x, p.y]] == [[p'.x, p'.y]]) = true) : b = a := by
  simp only [List.cons_beq_cons, Bool.and_eq_true] at h
  obtain ⟨⟨hx, hy, -⟩, -⟩ := h
  rw [hp.1.beq_int hp'.1, beq_iff_eq] at hx
  rw [hp.2.beq_int hp'.2, beq_iff_eq] at hy
  exact (Prod.ext hx hy).symm

theorem numbers_beq_single {x x' : Single} {a b : ℤ} (hx : x.Is a) (hx' : x'.Is b)
    (h : ([[x]] == [[x']]) = true) : b = a := by
  simp only [List.cons_beq_cons, Bool.and_eq_true] at h
  obtain ⟨⟨h, -⟩, -⟩ := h
  rw [hx.beq_int hx', beq_iff_eq] at h
  exact h.symm

/-- Repeating a command that is not relative draws the same stroke again, from its end. -/
theorem Spells.eq_of_repeats {l c : Command} {e₀ e : GridEvent} (hl : Spells q l e₀)
    (hc : Spells (q.advance e₀) c e) (h : repeats (some l) c = true) :
    e = e₀ ∧ (q.advance e₀).advance e = q.advance e₀ := by
  obtain ⟨habsolute, hbeq⟩ := Bool.and_eq_true_iff.1 h
  obtain ⟨hkind, hnumbers⟩ := Bool.and_eq_true_iff.1 hbeq
  cases hl with
  | moveBy _ | lineBy _ | horizontalBy _ | verticalBy _ => exact absurd habsolute Bool.false_ne_true
  | move hp =>
    cases hc with
    | move hp' =>
      obtain rfl := numbers_beq_pair hp hp' hnumbers
      exact ⟨rfl, rfl⟩
    | _ => exact absurd hkind Bool.false_ne_true
  | line hp =>
    cases hc with
    | line hp' =>
      obtain rfl := numbers_beq_pair hp hp' hnumbers
      exact ⟨rfl, rfl⟩
    | _ => exact absurd hkind Bool.false_ne_true
  | horizontal hx =>
    cases hc with
    | horizontal hx' =>
      obtain rfl := numbers_beq_single hx hx' hnumbers
      exact ⟨rfl, rfl⟩
    | _ => exact absurd hkind Bool.false_ne_true
  | vertical hy =>
    cases hc with
    | vertical hy' =>
      obtain rfl := numbers_beq_single hy hy' hnumbers
      exact ⟨rfl, rfl⟩
    | _ => exact absurd hkind Bool.false_ne_true
  | close hs =>
    cases hc with
    | close hs' =>
      obtain rfl := Option.some.inj (hs.symm.trans hs')
      exact ⟨rfl, rfl⟩
    | _ => exact absurd hkind Bool.false_ne_true

/-- After a command that was kept, only strokes equal to the one before are left out. -/
theorem exists_draws_dropRepeated_go {l : Command} {e₀ : GridEvent} (hl : Spells q l e₀)
    (h : Draws (q.advance e₀) cs es) :
    ∃ es', Draws (q.advance e₀) (dropRepeated.go (some l) cs) es'
      ∧ (e₀ :: es').eraseReps = (e₀ :: es).eraseReps := by
  induction cs generalizing q l e₀ es with
  | nil =>
    cases h
    exact ⟨[], .nil, rfl⟩
  | cons c cs ih =>
    cases h with
    | @cons _ _ e _ es hc he h =>
      rw [dropRepeated.go]
      split
      · next hrepeats =>
        obtain ⟨rfl, hadvance⟩ := hl.eq_of_repeats hc hrepeats
        rw [hadvance] at h
        obtain ⟨es', hdraws, hes⟩ := ih hl h
        refine ⟨es', hdraws, ?_⟩
        rw [hes, eraseReps_cons_cons, beq_self_eq_true, if_pos rfl]
      · obtain ⟨es', hdraws, hes⟩ := ih hc h
        refine ⟨e :: es', .cons hc he hdraws, ?_⟩
        rw [eraseReps_cons_cons, eraseReps_cons_cons]
        split
        · next heq => rwa [beq_iff_eq.1 heq]
        · rw [hes]

theorem exists_draws_dropRepeated (h : Draws q cs es) :
    ∃ es', Draws q (dropRepeated cs) es' ∧ es'.eraseReps = es.eraseReps
      ∧ es'.head? = es.head? := by
  cases h with
  | nil => exact ⟨[], .nil, rfl, rfl⟩
  | cons hc he h =>
    obtain ⟨es', hdraws, hes⟩ := exists_draws_dropRepeated_go hc h
    exact ⟨_, .cons hc he hdraws, hes, rfl⟩

/-! ## Printing and reading -/

/-- A whole coordinate is read back as it was printed. -/
theorem is_reread (hplaces : places ≤ 12) {x : Single} {n : ℤ} (hx : x.Is n)
    (hn : n.natAbs ≤ 2 ^ 24) : (x.reread places).Is n := by
  obtain ⟨y, hy, hyn⟩ := Single.exists_ofLiteral?_intText hn
  rwa [Single.reread, Single.ofString?, Single.text, String.toList_ofList,
    Single.chars_of_int hx hn hplaces, hy, Option.getD_some]

/-- Numbers of up to 25 bits may be replaced by others of the same value. -/
theorem Spells.mapNumbers {f : Single → Single}
    (hf : ∀ {x : Single} {n : ℤ}, x.Is n → n.natAbs ≤ 2 ^ 24 → (f x).Is n) {c : Command}
    {e : GridEvent} (h : Spells q c e) (hq : InRange q.point) (he : InRange e.point) :
    Spells q (c.mapNumbers f) e := by
  have hwide {n : ℤ} (hn : n.natAbs ≤ 2 ^ 23) : n.natAbs ≤ 2 ^ 24 := hn.trans (by decide)
  cases h with
  | move hp => exact .move ⟨hf hp.1 (hwide he.1), hf hp.2 (hwide he.2)⟩
  | moveBy hp =>
    exact .moveBy ⟨hf hp.1 (natAbs_sub_le he.1 hq.1), hf hp.2 (natAbs_sub_le he.2 hq.2)⟩
  | line hp => exact .line ⟨hf hp.1 (hwide he.1), hf hp.2 (hwide he.2)⟩
  | lineBy hp =>
    exact .lineBy ⟨hf hp.1 (natAbs_sub_le he.1 hq.1), hf hp.2 (natAbs_sub_le he.2 hq.2)⟩
  | horizontal hx => exact .horizontal (hf hx (hwide he.1))
  | horizontalBy hx => exact .horizontalBy (hf hx (natAbs_sub_le he.1 hq.1))
  | vertical hy => exact .vertical (hf hy (hwide he.2))
  | verticalBy hy => exact .verticalBy (hf hy (natAbs_sub_le he.2 hq.2))
  | close hs => exact .close hs

theorem draws_reread (hplaces : places ≤ 12) (h : Draws q cs es) (hq : InRange q.point) :
    Draws q (cs.map (Command.mapNumbers (Single.reread places))) es := by
  induction h with
  | nil => exact .nil
  | cons hc he _ ih =>
    exact .cons (hc.mapNumbers (is_reread hplaces) hq he) he (ih (advance_point _ _ ▸ he))

theorem Spells.printable {c : Command} {e : GridEvent} (h : Spells q c e) : Printable [c] := by
  refine ⟨fun hmem => ?_, fun d hd xs hxs x hx => ?_⟩
  · cases h <;> cases List.mem_singleton.1 hmem <;> exact List.cons_ne_nil _ _
  · obtain rfl := List.mem_singleton.1 hd
    cases h with
    | move hp | moveBy hp | line hp | lineBy hp =>
      obtain rfl := List.mem_singleton.1 hxs
      obtain rfl | hx := List.mem_cons.1 hx
      · exact hp.1.isFinite
      · obtain rfl := List.mem_singleton.1 hx
        exact hp.2.isFinite
    | horizontal hx' | horizontalBy hx' | vertical hx' | verticalBy hx' =>
      obtain rfl := List.mem_singleton.1 hxs
      obtain rfl := List.mem_singleton.1 hx
      exact hx'.isFinite
    | close _ => exact absurd hxs List.not_mem_nil

theorem printable_of_draws (h : Draws q cs es) : Printable cs := by
  induction h with
  | nil => exact ⟨fun hmem => absurd hmem List.not_mem_nil, fun c hc => absurd hc List.not_mem_nil⟩
  | cons hc _ _ ih =>
    have hfirst := hc.printable
    refine ⟨fun hmem => ?_, fun d hd => ?_⟩
    · rcases List.mem_cons.1 hmem with hmem | hmem
      · exact hfirst.groups_ne_nil (List.mem_singleton.2 hmem)
      · exact ih.groups_ne_nil hmem
    · rcases List.mem_cons.1 hd with hd | hd
      · exact hfirst.isFinite d (List.mem_singleton.2 hd)
      · exact ih.isFinite d hd

/-! ## The whole way -/

/-- The passes over the commands of a path, in the order in which they run. -/
def shorten (tolerance : Single) (places : UInt8) (cs : List Command) : List Command :=
  dropRepeated (chooseModes places (alignLines tolerance
    (convertToArcs tolerance places (simplifyCurves tolerance places (splitGroups cs)))))

theorem beq_of_forall₂ {ds fs : List Event} (hd : List.Forall₂ Event.On ds es)
    (hf : List.Forall₂ Event.On fs es) : (ds == fs) = true := by
  induction hd generalizing fs with
  | nil =>
    cases hf
    rfl
  | cons ha _ ih =>
    cases hf with
    | cons hb hf =>
      rw [List.cons_beq_cons, ha.beq hb, beq_self_eq_true, ih hf]
      rfl

/-- Commands that draw a move first begin with a move. -/
theorem isKind_move_of_draws (h : Draws q cs es)
    (hmove : ∀ e, es.head? = some e → ∃ a, e = .move a) (c : Command) (hc : cs.head? = some c) :
    c.isKind .move = true := by
  cases h with
  | nil => exact absurd hc nofun
  | cons hspells _ _ =>
    obtain rfl := Option.some.inj hc
    obtain ⟨a, rfl⟩ := hmove _ rfl
    cases hspells <;> rfl

theorem exists_move_of_forall₂ {ss : List Event} (h : List.Forall₂ Event.On ss es)
    (hmove : ∀ s, ss.head? = some s → ∃ p, s = .move p) (e : GridEvent)
    (he : es.head? = some e) : ∃ a, e = .move a := by
  cases h with
  | nil => exact absurd he nofun
  | cons hon _ =>
    obtain rfl := Option.some.inj he
    obtain ⟨p, rfl⟩ := hmove _ rfl
    cases hon
    exact ⟨_, rfl⟩

/-- The pen at the beginning of a path. -/
theorem ready_origin : Ready {} ⟨(0, 0), none⟩ :=
  ⟨⟨⟨by exact_mod_cast Single.is_zero, by exact_mod_cast Single.is_zero⟩, nofun⟩,
    Nat.zero_le _, Nat.zero_le _⟩

/-- **A straight path on whole coordinates keeps its strokes.** Such a path begins with a move, has
only lines, moves and closes in any mode and grouping, and is written with whole numbers of up to
24 bits that also lead to such points. After the passes with any tolerance below one, printed with
up to twelve places and read again, it takes the pen through the same strokes, with runs of equal
strokes collapsed to one. -/
theorem straight_path_keeps_strokes {cs : List Command} {tolerance : Single} {places : UInt8}
    (hmove : ∀ c, cs.head? = some c → ∃ m p ps, c = .draw .move m (p :: ps))
    (hkind : ∀ c ∈ cs, ∀ k, c.kind? = some k →
      k = .move ∨ k = .line ∨ k = .horizontal ∨ k = .vertical)
    (hnumbers : ∀ c ∈ cs, ∀ xs ∈ c.numbers, ∀ x ∈ xs, IsWhole x)
    (hpoints : ∀ e ∈ events {} cs, Whole e.point) (htolerance : tolerance < 1)
    (hplaces : places ≤ 12) :
    ∃ out, parse (print (shorten tolerance places cs) places) = .ok out
      ∧ ((events {} out).eraseReps == (events {} cs).eraseReps) = true := by
  obtain ⟨es, hsplit, hevents, -⟩ := exists_walked_splitGroups ready_origin
    (fun c hc => ⟨hkind c hc, hnumbers c hc⟩) (fun c hc => .inr (hmove c hc)) hpoints
  have haligned := draws_alignLines hsplit ready_origin htolerance
  have hmodes : Draws _ (chooseModes.go places {} _) es := draws_chooseModes haligned ready_origin
  obtain ⟨es', hdraws, heraseReps, hhead⟩ := exists_draws_dropRepeated hmodes
  have hshorten : shorten tolerance places cs
      = dropRepeated (chooseModes.go places {} (alignLines.go tolerance {} (splitGroups cs))) := by
    rw [shorten, simplifyCurves_of_draws hsplit, convertToArcs_of_draws hsplit]
    rfl
  rw [← hshorten] at hdraws
  have hfirst (s : Event) (hs : (events {} cs).head? = some s) : ∃ p, s = .move p := by
    cases cs with
    | nil => exact absurd hs nofun
    | cons c cs =>
      obtain ⟨m, p, ps, rfl⟩ := hmove c rfl
      exact ⟨_, (Option.some.inj hs).symm⟩
  have hmoves := exists_move_of_forall₂ hevents hfirst
  rw [← hhead] at hmoves
  have hread := draws_reread hplaces hdraws ready_origin.inRange
  refine ⟨_, parse_print places (printable_of_draws hdraws)
    (isKind_move_of_draws hdraws hmoves), ?_⟩
  have hout := forall₂_eraseReps Event.On.beq (events_of_draws hread ready_origin.on)
  rw [heraseReps] at hout
  exact beq_of_forall₂ hout (forall₂_eraseReps Event.On.beq hevents)

theorem isWhole_zero : IsWhole 0 := ⟨0, by exact_mod_cast Single.is_zero, by decide⟩

theorem isWhole_one : IsWhole 1 := ⟨1, by exact_mod_cast Single.is_one, by decide⟩

/-- A square with a doubled corner, in both modes, with half a unit of tolerance. -/
theorem square_keeps_strokes :
    ∃ out, parse (print (shorten 0.5 2 [.draw .move .relative [⟨0, 0⟩, ⟨1, 0⟩],
        .draw .line .absolute [⟨1, 1⟩, ⟨1, 1⟩], .draw .horizontal .absolute [0],
        .close]) 2) = .ok out
      ∧ ((events {} out).eraseReps == (events {} [.draw .move .relative [⟨0, 0⟩, ⟨1, 0⟩],
        .draw .line .absolute [⟨1, 1⟩, ⟨1, 1⟩], .draw .horizontal .absolute [0],
        .close]).eraseReps) = true := by
  have zero : Single.Is 0 (0 : ℤ) := by exact_mod_cast Single.is_zero
  have one : Single.Is 1 (1 : ℤ) := by exact_mod_cast Single.is_one
  have zero' : Single.Is (0 + 0) (0 : ℤ) := zero.add_int zero (by decide)
  have zero'' : Single.Is (0 + 0 + 0) (0 : ℤ) := zero'.add_int zero (by decide)
  have one'' : Single.Is (0 + 0 + 1) (1 : ℤ) := zero'.add_int one (by decide)
  refine straight_path_keeps_strokes ?_ ?_ ?_ ?_ ?_ (by decide)
  · intro c hc
    obtain rfl := Option.some.inj hc
    exact ⟨_, _, _, rfl⟩
  · intro c hc k hk
    simp only [List.mem_cons, List.not_mem_nil, or_false] at hc
    obtain rfl | rfl | rfl | rfl := hc
    · exact .inl (Option.some.inj hk).symm
    · exact .inr (.inl (Option.some.inj hk).symm)
    · exact .inr (.inr (.inl (Option.some.inj hk).symm))
    · exact absurd hk nofun
  · intro c hc xs hxs x hx
    simp only [List.mem_cons, List.not_mem_nil, or_false] at hc
    obtain rfl | rfl | rfl | rfl := hc <;>
      simp only [Command.numbers, Kind.numbers, List.map_cons, List.map_nil, List.mem_cons,
        List.not_mem_nil, or_false, or_self] at hxs
    · obtain rfl | rfl := hxs <;> simp only [List.mem_cons, List.not_mem_nil, or_false] at hx <;>
        obtain rfl | rfl := hx <;> first | exact isWhole_zero | exact isWhole_one
    · subst hxs
      simp only [List.mem_cons, List.not_mem_nil, or_false, or_self] at hx
      exact hx ▸ isWhole_one
    · subst hxs
      simp only [List.mem_cons, List.not_mem_nil, or_false] at hx
      exact hx ▸ isWhole_zero
  · intro e he
    have hrange (a b : ℤ) (ha : a.natAbs ≤ 1) (hb : b.natAbs ≤ 1) : InRange (a, b) :=
      ⟨ha.trans (by decide), hb.trans (by decide)⟩
    change e ∈ [Event.move ⟨0 + 0, 0 + 0⟩, .line ⟨0 + 0 + 1, 0 + 0 + 0⟩, .line ⟨1, 1⟩, .line ⟨1, 1⟩,
      .line ⟨0, 1⟩, .close ⟨0 + 0, 0 + 0⟩] at he
    simp only [List.mem_cons, List.not_mem_nil, or_false] at he
    obtain rfl | rfl | rfl | rfl | rfl | rfl := he
    · exact ⟨(0, 0), ⟨zero', zero'⟩, hrange 0 0 (by decide) (by decide)⟩
    · exact ⟨(1, 0), ⟨one'', zero''⟩, hrange 1 0 (by decide) (by decide)⟩
    · exact ⟨(1, 1), ⟨one, one⟩, hrange 1 1 (by decide) (by decide)⟩
    · exact ⟨(1, 1), ⟨one, one⟩, hrange 1 1 (by decide) (by decide)⟩
    · exact ⟨(0, 1), ⟨zero, one⟩, hrange 0 1 (by decide) (by decide)⟩
    · exact ⟨(0, 0), ⟨zero', zero'⟩, hrange 0 0 (by decide) (by decide)⟩
  · decide +kernel

end VectorGraphics.Path
