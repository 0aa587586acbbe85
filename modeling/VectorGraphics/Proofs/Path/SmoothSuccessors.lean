import VectorGraphics.Proofs.Number.Likeness
import VectorGraphics.Proofs.Path.Outline
import VectorGraphics.Proofs.Path.Trajectories

/-!
# Curve passes and the smooth curves after them

A smooth curve begins with a control point that the curve before it implies (`impliedControl?`). A
curve that a line, an arc or a smooth cubic curve replaces leaves what follows it alone, since the
passes look at the next command or keep the last control point (`HandsOn`). A quadratic curve that
a smooth one replaces has another control point, within the tolerance, and a smooth curve after it
mirrors that one. So `convertToArcs` keeps every smooth curve with its implied control point, and
`simplifyCurves` does so exactly if none of those replacements before a smooth curve changes what is
mirrored (`curve_passes_keep_smooth_curves_iff`).
-/

namespace VectorGraphics.Path

/-! ## Implied control points along a path -/

/-- The pen before the command with the number `i`. -/
def penBefore (cs : List Command) (i : ℕ) : Pen := Pen.advanceAll {} (cs.take i)

/-- The last control points before the command with the number `i`. -/
def reflectionBefore (cs : List Command) (i : ℕ) : Reflection :=
  Reflection.updateAll {} {} (cs.take i)

/-- The first control point of the command with the number `i`, if that is a smooth curve. -/
def impliedControl? (cs : List Command) (i : ℕ) : Option Point :=
  match cs[i]? with
  | some (.draw .smoothCubic _ _) => some ((reflectionBefore cs i).cubicAt (penBefore cs i).point)
  | some (.draw .smoothQuadratic _ _) =>
    some ((reflectionBefore cs i).quadraticAt (penBefore cs i).point)
  | _ => none

/-- Every smooth curve of the first path stands in the second one too, where the same control point
is implied for it. -/
structure KeepsSmoothCurves (cs ds : List Command) : Prop where
  kept (i : ℕ) (c : Command) (hc : cs[i]? = some c)
    (hsmooth : c.kind? = some .smoothCubic ∨ c.kind? = some .smoothQuadratic) : ds[i]? = some c
  implied (i : ℕ) (p : Point) (hp : impliedControl? cs i = some p) :
    ∃ q, impliedControl? ds i = some q ∧ q.Alike p

theorem impliedControl?_smoothQuadratic {cs : List Command} {i : ℕ} {m : Mode} {ps : List Point}
    (h : cs[i]? = some (.draw .smoothQuadratic m ps)) : impliedControl? cs i
      = some ((reflectionBefore cs i).quadraticAt (penBefore cs i).point) := by
  rw [impliedControl?, h]

theorem penBefore_succ {cs : List Command} {i : ℕ} {c : Command} (h : cs[i]? = some c) :
    penBefore cs (i + 1) = (penBefore cs i).advance c :=
  Pen.advanceAll_take_succ {} h

theorem reflectionBefore_succ {cs : List Command} {i : ℕ} {c : Command} (h : cs[i]? = some c) :
    reflectionBefore cs (i + 1) = (reflectionBefore cs i).update (penBefore cs i).point
      (c.inMode .absolute (penBefore cs i).point) :=
  Reflection.updateAll_take_succ {} {} h

/-! ## States that suit the next command -/

/-- The two states imply control points alike for the command that comes next at `pen`. -/
structure Reflection.Suits (r r' : Reflection) (pen : Point) (next : Option Command) : Prop where
  cubic (h : next.any (·.isKind .smoothCubic) = true) : r'.cubic = r.cubic
  quadratic (h : next.any (·.isKind .smoothQuadratic) = true) :
    (r'.quadraticAt pen).Alike (r.quadraticAt pen)

namespace Reflection

theorem Suits.refl (r : Reflection) (pen : Point) (next : Option Command) : r.Suits r pen next :=
  ⟨fun _ => rfl, fun _ => .refl _⟩

/-- Through smooth quadratic curves, control points stay alike. -/
theorem alike_reflect_throughSmooth {a b : Option Point} {pen : Point}
    (h : (reflect a pen).Alike (reflect b pen)) (ps : List Point) :
    (reflect (throughSmooth a pen ps) (ps.foldl (Kind.smoothQuadratic.land .absolute) pen)).Alike
      (reflect (throughSmooth b pen ps)
        (ps.foldl (Kind.smoothQuadratic.land .absolute) pen)) := by
  induction ps generalizing a b pen with
  | nil => exact h
  | cons p ps ih =>
    have hmirror : (reflect (some (reflect a pen)) p).Alike (reflect (some (reflect b pen)) p) :=
      (Point.Alike.refl _).sub h
    exact ih hmirror

/-- A command that is kept hands on what suits it. -/
theorem Suits.update {r r' : Reflection} {pen : Pen} {c : Command}
    (h : r.Suits r' pen.point (some c)) (next : Option Command) :
    (r.update pen.point (c.inMode .absolute pen.point)).Suits
      (r'.update pen.point (c.inMode .absolute pen.point)) (pen.advance c).point next := by
  cases c with
  | close => exact .refl _ _ _
  | draw k m gs =>
    rw [Command.inMode_absolute]
    cases k with
    | smoothQuadratic =>
      refine ⟨fun _ => rfl, fun _ => ?_⟩
      have hend := Kind.smoothQuadratic.foldl_land_absolutes m pen.point gs
      rw [Pen.advance_draw (by decide), ← hend]
      exact alike_reflect_throughSmooth (h.quadratic rfl) _
    | _ => exact .refl _ _ _

end Reflection

/-! ## Replacements -/

/-- The second command may stand for the first without a smooth curve that comes next taking notice:
it is the same, a line or an arc for a single curve which the next command does not continue, or a
smooth cubic curve with the last control point of a cubic one. -/
inductive HandsOn (next : Option Command) : Command → Command → Prop
  | same (c : Command) : HandsOn next c c
  | cubic {m : Mode} {g : CubicGroup} {l : Kind} {h : l.Group}
      (hnext : next.any (·.isKind .smoothCubic) = false) (hl : l = .line ∨ l = .arc) :
    HandsOn next (.draw .cubic m [g]) (.draw l m [h])
  | quadratic {m : Mode} {g : QuadraticGroup} {l : Kind} {h : l.Group}
      (hnext : next.any (·.isKind .smoothQuadratic) = false) (hl : l = .line ∨ l = .arc) :
    HandsOn next (.draw .quadratic m [g]) (.draw l m [h])
  | smoothCubic {m : Mode} {g : CubicGroup} :
    HandsOn next (.draw .cubic m [g]) (.draw .smoothCubic m [⟨g.control2, g.stop⟩])

/-- A smooth quadratic curve stands for a single quadratic one. -/
inductive Mirrors : Command → Command → Prop
  | intro (m : Mode) (g : QuadraticGroup) :
    Mirrors (.draw .quadratic m [g]) (.draw .smoothQuadratic m [g.stop])

section

variable {tolerance : Single} {places : UInt8} {pen : Point} {r : Reflection}
  {next : Option Command} {c d : Command}

theorem eq_of_mem_candidate {condition : Bool} {e : Command} (h : e ∈ candidate condition d) :
    condition = true ∧ e = d := by
  rw [candidate] at h
  split at h
  · next hcondition => exact ⟨hcondition, List.mem_singleton.1 h⟩
  · exact absurd h List.not_mem_nil

theorem handsOn_or_mirrors_of_mem_curveCandidates
    (h : d ∈ curveCandidates tolerance pen r next c) : HandsOn next c d ∨ Mirrors c d := by
  unfold curveCandidates at h
  split at h
  · obtain h | h := List.mem_append.1 h
    · obtain ⟨hcondition, rfl⟩ := eq_of_mem_candidate h
      exact .inl (.cubic (by simpa using (Bool.and_eq_true_iff.1 hcondition).1) (.inl rfl))
    · obtain ⟨-, rfl⟩ := eq_of_mem_candidate h
      exact .inl .smoothCubic
  · obtain h | h := List.mem_append.1 h
    · obtain ⟨hcondition, rfl⟩ := eq_of_mem_candidate h
      exact .inl (.quadratic (by simpa using (Bool.and_eq_true_iff.1 hcondition).1) (.inl rfl))
    · obtain ⟨-, rfl⟩ := eq_of_mem_candidate h
      exact .inr (.intro _ _)
  · exact absurd h List.not_mem_nil

theorem exists_of_mem_arc {mode : Mode} {g : CubicGroup} {stop : Point}
    (h : d ∈ arcCandidates.arc tolerance pen mode g stop) : ∃ a, d = .draw .arc mode [a] := by
  rw [arcCandidates.arc] at h
  split at h
  · exact ⟨_, List.mem_singleton.1 h⟩
  · exact absurd h List.not_mem_nil

theorem handsOn_of_mem_arcCandidates (h : d ∈ arcCandidates tolerance pen next c) :
    HandsOn next c d := by
  unfold arcCandidates at h
  split at h
  · split at h
    · exact absurd h List.not_mem_nil
    · next hnext =>
      obtain ⟨a, rfl⟩ := exists_of_mem_arc h
      exact .cubic (Bool.not_eq_true _ ▸ hnext) (.inr rfl)
  · split at h
    · exact absurd h List.not_mem_nil
    · next hnext =>
      obtain ⟨a, rfl⟩ := exists_of_mem_arc h
      exact .quadratic (Bool.not_eq_true _ ▸ hnext) (.inr rfl)
  · exact absurd h List.not_mem_nil

theorem handsOn_or_mirrors_shortestOf (tolerance : Single) (places : UInt8) (pen : Point)
    (r : Reflection) (next : Option Command) (c : Command) :
    HandsOn next c (shortestOf places c (curveCandidates tolerance pen r next c))
      ∨ Mirrors c (shortestOf places c (curveCandidates tolerance pen r next c)) := by
  obtain heq | hmem := List.mem_cons.1 (shortestOf_mem places c _)
  · rw [heq]
    exact .inl (.same c)
  · exact handsOn_or_mirrors_of_mem_curveCandidates hmem

theorem handsOn_shortestOf (tolerance : Single) (places : UInt8) (pen : Point)
    (next : Option Command) (c : Command) :
    HandsOn next c (shortestOf places c (arcCandidates tolerance pen next c)) := by
  obtain heq | hmem := List.mem_cons.1 (shortestOf_mem places c _)
  · rw [heq]
    exact .same c
  · exact handsOn_of_mem_arcCandidates hmem

end

/-- After a replacement the states suit the command that comes next. -/
theorem HandsOn.suits {next : Option Command} {c d : Command} (h : HandsOn next c d)
    {r r' : Reflection} {pen : Pen} (hsuits : r.Suits r' pen.point (some c)) :
    (r.update pen.point (c.inMode .absolute pen.point)).Suits
      (r'.update pen.point (d.inMode .absolute pen.point)) (pen.advance c).point next := by
  cases h with
  | same => exact hsuits.update next
  | cubic hnext hl =>
    simp only [Command.inMode_absolute]
    refine ⟨fun h => absurd (hnext.symm.trans h) Bool.false_ne_true, fun _ => ?_⟩
    obtain rfl | rfl := hl <;> exact .refl _
  | quadratic hnext hl =>
    simp only [Command.inMode_absolute]
    refine ⟨fun _ => ?_, fun h => absurd (hnext.symm.trans h) Bool.false_ne_true⟩
    obtain rfl | rfl := hl <;> rfl
  | @smoothCubic m g => cases m <;> exact .refl _ _ _

/-- What a smooth quadratic curve and the quadratic one that it stands for imply for a smooth curve
that comes next. -/
theorem Mirrors.suits_iff {m : Mode} {g : QuadraticGroup} {r r' : Reflection} {pen : Pen}
    {next : Option Command} :
    (r.update pen.point ((Command.draw .quadratic m [g]).inMode .absolute pen.point)).Suits
        (r'.update pen.point
          ((Command.draw .smoothQuadratic m [g.stop]).inMode .absolute pen.point))
        (pen.advance (.draw .quadratic m [g])).point next
      ↔ (next.any (·.isKind .smoothQuadratic) = true →
          (Reflection.reflect (some (r'.quadraticAt pen.point))
            (pen.advance (.draw .quadratic m [g])).point).Alike
          (Reflection.reflect (some (Kind.quadratic.absolute m pen.point g).control)
            (pen.advance (.draw .quadratic m [g])).point)) := by
  cases m <;> exact ⟨fun h => h.quadratic, fun h => ⟨fun _ => rfl, h⟩⟩

/-! ## Whole paths -/

/-- The second path has a command for each of the first, which hands on the same control point or is
a smooth quadratic curve, and the pen is in the same state before each. -/
structure Replaces (cs ds : List Command) : Prop where
  penBefore_eq (i : ℕ) : penBefore ds i = penBefore cs i
  step (i : ℕ) (c : Command) (hc : cs[i]? = some c) :
    ∃ d, ds[i]? = some d ∧ (HandsOn cs[i + 1]? c d ∨ Mirrors c d)

theorem replaces_simplifyCurves (tolerance : Single) (places : UInt8) (cs : List Command) :
    Replaces cs (simplifyCurves tolerance places cs) := by
  refine ⟨fun i => advanceAll_take_eq (forall₂_simplifyCurves
    (fun _ _ _ _ => .shortestOf fun _ => .of_mem_curveCandidates) cs) {} i, fun i c hc => ?_⟩
  rw [simplifyCurves, simplifyCurves.go, getElem?_rewrite, hc]
  exact ⟨_, rfl, handsOn_or_mirrors_shortestOf tolerance places _ _ cs[i + 1]? c⟩

theorem handsOn_convertToArcs (tolerance : Single) (places : UInt8) {cs : List Command} {i : ℕ}
    {c : Command} (hc : cs[i]? = some c) :
    ∃ d, (convertToArcs tolerance places cs)[i]? = some d ∧ HandsOn cs[i + 1]? c d := by
  rw [getElem?_convertToArcs, hc]
  exact ⟨_, rfl, handsOn_shortestOf tolerance places _ _ c⟩

theorem replaces_convertToArcs (tolerance : Single) (places : UInt8) (cs : List Command) :
    Replaces cs (convertToArcs tolerance places cs) := by
  refine ⟨fun i => advanceAll_take_eq (forall₂_convertToArcs
    (fun _ _ _ => .shortestOf fun _ => .of_mem_arcCandidates) cs) {} i, fun i c hc => ?_⟩
  obtain ⟨d, hd, hands⟩ := handsOn_convertToArcs tolerance places hc
  exact ⟨d, hd, .inl hands⟩

/-- Where a smooth quadratic curve of the second path stands for a quadratic one of the first and a
smooth quadratic curve comes next, the implied control point of the one and the written control
point of the other are mirrored alike. -/
def MirrorsAlike (cs ds : List Command) : Prop :=
  ∀ (i : ℕ) (m : Mode) (g : QuadraticGroup), cs[i]? = some (.draw .quadratic m [g]) →
    ds[i]? = some (.draw .smoothQuadratic m [g.stop]) →
    (∃ m' ps, cs[i + 1]? = some (.draw .smoothQuadratic m' ps)) →
    (Reflection.reflect (some ((reflectionBefore ds i).quadraticAt (penBefore cs i).point))
        (penBefore cs (i + 1)).point).Alike
      (Reflection.reflect (some (Kind.quadratic.absolute m (penBefore cs i).point g).control)
        (penBefore cs (i + 1)).point)

namespace Replaces

variable {cs ds : List Command}

/-- The states before the next command suit it, if those before a command suit that one and it is
no smooth quadratic curve that stands for another one or mirrors alike. -/
theorem suits_succ (h : Replaces cs ds) (hmirror : MirrorsAlike cs ds) {i : ℕ}
    (hsuits : (reflectionBefore cs i).Suits (reflectionBefore ds i) (penBefore cs i).point cs[i]?) :
    (reflectionBefore cs (i + 1)).Suits (reflectionBefore ds (i + 1)) (penBefore cs (i + 1)).point
      cs[i + 1]? := by
  cases hc : cs[i]? with
  | none =>
    have hnone : cs[i + 1]? = none :=
      List.getElem?_eq_none ((List.getElem?_eq_none_iff.1 hc).trans (Nat.le_succ i))
    rw [hnone]
    exact ⟨fun h => absurd h Bool.false_ne_true, fun h => absurd h Bool.false_ne_true⟩
  | some c =>
    obtain ⟨d, hd, hstep⟩ := h.step i c hc
    rw [hc] at hsuits
    rw [reflectionBefore_succ hc, reflectionBefore_succ hd, penBefore_succ hc, h.penBefore_eq]
    obtain hands | hmirrors := hstep
    · exact hands.suits hsuits
    · obtain ⟨m, g⟩ := hmirrors
      refine Mirrors.suits_iff.2 fun hnext => ?_
      rw [← penBefore_succ hc]
      refine hmirror i m g hc hd ?_
      obtain ⟨c, hcs, hkind⟩ := (Option.any_eq_true _ _).1 hnext
      cases c with
      | close => cases hkind
      | draw k m' gs =>
        obtain rfl : k = .smoothQuadratic := by simpa [Command.isKind, Command.kind?] using hkind
        exact ⟨m', gs, hcs⟩

theorem suits (h : Replaces cs ds) (hmirror : MirrorsAlike cs ds) (i : ℕ) :
    (reflectionBefore cs i).Suits (reflectionBefore ds i) (penBefore cs i).point cs[i]? := by
  induction i with
  | zero => exact .refl _ _ _
  | succ i ih => exact h.suits_succ hmirror ih

/-- A smooth curve is never replaced. -/
theorem getElem?_of_smooth (h : Replaces cs ds) {i : ℕ} {c : Command} (hc : cs[i]? = some c)
    (hsmooth : c.kind? = some .smoothCubic ∨ c.kind? = some .smoothQuadratic) :
    ds[i]? = some c := by
  obtain ⟨d, hd, hands | hmirrors⟩ := h.step i c hc
  · cases hands with
    | same => exact hd
    | _ => rcases hsmooth with hkind | hkind <;> cases hkind
  · obtain ⟨m, g⟩ := hmirrors
    rcases hsmooth with hkind | hkind <;> cases hkind

/-- The smooth curves are kept exactly if smooth quadratic curves that stand for others before them
mirror alike. -/
theorem keepsSmoothCurves_iff (h : Replaces cs ds) :
    KeepsSmoothCurves cs ds ↔ MirrorsAlike cs ds := by
  constructor
  · rintro ⟨hkept, himplied⟩ i m g hc hd ⟨m', ps, hnext⟩
    have hnext' := hkept (i + 1) _ hnext (.inr rfl)
    obtain ⟨q, hq, halike⟩ := himplied (i + 1) _ (impliedControl?_smoothQuadratic hnext)
    obtain rfl := Option.some.inj ((impliedControl?_smoothQuadratic hnext').symm.trans hq)
    rw [reflectionBefore_succ hc, reflectionBefore_succ hd, h.penBefore_eq, h.penBefore_eq]
      at halike
    cases m <;> exact halike
  · intro hmirror
    refine ⟨fun i c hc hsmooth => h.getElem?_of_smooth hc hsmooth, fun i p hp => ?_⟩
    have hsuits := h.suits hmirror i
    rw [impliedControl?] at hp
    split at hp
    · next m gs hc =>
      obtain rfl := Option.some.inj hp
      refine ⟨_, by rw [impliedControl?, h.getElem?_of_smooth hc (.inl rfl)], ?_⟩
      rw [hc] at hsuits
      rw [Reflection.cubicAt, hsuits.cubic rfl, h.penBefore_eq]
      exact .refl _
    · next m gs hc =>
      obtain rfl := Option.some.inj hp
      refine ⟨_, impliedControl?_smoothQuadratic (h.getElem?_of_smooth hc (.inr rfl)), ?_⟩
      rw [hc] at hsuits
      rw [h.penBefore_eq]
      exact hsuits.quadratic rfl
    · cases hp

end Replaces

theorem mirrorsAlike_convertToArcs (tolerance : Single) (places : UInt8) (cs : List Command) :
    MirrorsAlike cs (convertToArcs tolerance places cs) := by
  intro i m g hc hd _
  -- No arc is a smooth curve.
  obtain ⟨d, hd', hands⟩ := handsOn_convertToArcs tolerance places hc
  obtain rfl := Option.some.inj (hd.symm.trans hd')
  cases hands with
  | quadratic _ hl => obtain h | h := hl <;> cases h

/-- **The curve passes keep the smooth curves, and what is implied for them, unless a mirrored
control point changes.** For every path, tolerance and number of places, every smooth curve is kept
by `convertToArcs`, and along the result the same first control point is implied for it, up to the
sign of zeros. The same is true of `simplifyCurves` exactly if each smooth quadratic curve that
stands for a quadratic one right before a smooth quadratic curve is implied a control point that
is mirrored alike. -/
theorem curve_passes_keep_smooth_curves_iff (tolerance : Single) (places : UInt8)
    (cs : List Command) :
    KeepsSmoothCurves cs (convertToArcs tolerance places cs)
      ∧ (KeepsSmoothCurves cs (simplifyCurves tolerance places cs)
        ↔ MirrorsAlike cs (simplifyCurves tolerance places cs)) :=
  ⟨(replaces_convertToArcs tolerance places cs).keepsSmoothCurves_iff.2
      (mirrorsAlike_convertToArcs tolerance places cs),
    (replaces_simplifyCurves tolerance places cs).keepsSmoothCurves_iff⟩

/-- A quadratic curve whose control point is one unit off becomes smooth, and the curve after it
begins one unit off. -/
theorem mirrored_control_is_off :
    let cs : List Command := [.draw .move .absolute [⟨0, 0⟩],
      .draw .quadratic .absolute [⟨⟨5, 10⟩, ⟨10, 0⟩⟩],
      .draw .quadratic .absolute [⟨⟨15, -9⟩, ⟨20, 0⟩⟩],
      .draw .smoothQuadratic .absolute [⟨30, 0⟩]]
    (impliedControl? cs 3).any (· == ⟨25, 9⟩) = true
      ∧ (impliedControl? (simplifyCurves 1 2 cs) 3).any (· == ⟨25, 10⟩) = true
      ∧ ¬KeepsSmoothCurves cs (simplifyCurves 1 2 cs) := by
  intro cs
  have hbefore : (impliedControl? cs 3).any (· == ⟨25, 9⟩) = true := by decide +kernel
  have hafter : (impliedControl? (simplifyCurves 1 2 cs) 3).any (· == ⟨25, 10⟩) = true := by
    decide +kernel
  refine ⟨hbefore, hafter, fun h => ?_⟩
  obtain ⟨p, hp, hbefore⟩ := (Option.any_eq_true _ _).1 hbefore
  obtain ⟨q, hq, hafter⟩ := (Option.any_eq_true _ _).1 hafter
  obtain ⟨q', hq', halike⟩ := h.implied 3 p hp
  obtain rfl := Option.some.inj (hq.symm.trans hq')
  have hp₉ : p.y.Alike 9 := .of_beq (Bool.and_eq_true_iff.1 hbefore).2
  have hq₁₀ : q.y.Alike 10 := .of_beq (Bool.and_eq_true_iff.1 hafter).2
  have h : Single.Alike 10 9 := hq₁₀.symm.trans (halike.y.trans hp₉)
  exact absurd h (by unfold Single.Alike; decide +kernel)

end VectorGraphics.Path
