import VectorGraphics.Proofs.Path.Openings
import VectorGraphics.Proofs.Path.Walks

/-!
# Curve passes keep the way of the pen

`simplifyCurves` and `convertToArcs` replace commands one by one. A command in the place of a curve
has the mode of the curve and ends in the same written point (`Redraws`), so that it takes the pen
to where the curve takes it (`Redraws.advance_eq`) and every later command, relative ones included,
is drawn from the same point as before (`curve_passes_keep_trajectory`).
-/

namespace VectorGraphics.Path

/-- The end of a group as it is written. A lone coordinate is not a point. -/
def Kind.stop? : (k : Kind) → k.Group → Option Point
  | .move, p | .line, p | .smoothQuadratic, p => some p
  | .horizontal, _ | .vertical, _ => none
  | .cubic, g => some g.stop
  | .smoothCubic, g => some g.stop
  | .quadratic, g => some g.stop
  | .arc, g => some g.stop

/-- Where the pen goes is up to the written end alone. -/
theorem Kind.land_eq_of_stop? {k : Kind} {g : k.Group} {stop : Point} (h : k.stop? g = some stop)
    (mode : Mode) (pen : Point) : k.land mode pen g = Kind.line.land mode pen stop := by
  cases k with
  | horizontal | vertical => cases h
  | _ =>
    obtain rfl := Option.some.inj h
    cases mode <;> rfl

/-- The second command may stand for the first: it is the same, or the first is a single curve and
the second has one group, the same mode and the same written end. -/
inductive Redraws (c : Command) : Command → Prop
  | same : Redraws c c
  | curve {k l : Kind} {mode : Mode} {g : k.Group} {h : l.Group} {stop : Point}
      (hc : c = .draw k mode [g]) (hk : k = .cubic ∨ k = .quadratic) (hl : l ≠ .move)
      (hg : k.stop? g = some stop) (hh : l.stop? h = some stop) : Redraws c (.draw l mode [h])

namespace Redraws

/-- A command takes the pen to where the command it stands for does. -/
theorem advance_eq {c d : Command} (h : Redraws c d) (pen : Pen) :
    pen.advance d = pen.advance c := by
  cases h with
  | same => rfl
  | @curve k _ _ _ _ _ hc hk hl hg hh =>
    have hk : k ≠ .move := by obtain rfl | rfl := hk <;> decide
    rw [hc, Pen.advance_draw hl, Pen.advance_draw hk, List.foldl_cons, List.foldl_cons,
      Kind.land_eq_of_stop? hg, Kind.land_eq_of_stop? hh]
    rfl

theorem of_mem_candidate {condition : Bool} {c d e : Command} (h : Redraws c d)
    (he : e ∈ candidate condition d) : Redraws c e := by
  rw [candidate] at he
  split at he
  · rwa [List.mem_singleton.1 he]
  · exact absurd he List.not_mem_nil

theorem of_mem_curveCandidates {tolerance : Single} {pen : Point} {r : Reflection}
    {next : Option Command} {c d : Command} (hd : d ∈ curveCandidates tolerance pen r next c) :
    Redraws c d := by
  unfold curveCandidates at hd
  split at hd
  · obtain hd | hd := List.mem_append.1 hd
    · exact of_mem_candidate (.curve rfl (.inl rfl) (by decide) rfl rfl) hd
    · exact of_mem_candidate (.curve rfl (.inl rfl) (by decide) rfl rfl) hd
  · obtain hd | hd := List.mem_append.1 hd
    · exact of_mem_candidate (.curve rfl (.inr rfl) (by decide) rfl rfl) hd
    · exact of_mem_candidate (.curve rfl (.inr rfl) (by decide) rfl rfl) hd
  · exact absurd hd List.not_mem_nil

theorem of_mem_arc {tolerance : Single} {pen : Point} {k : Kind} {mode : Mode} {g : k.Group}
    {absolute : CubicGroup} {stop : Point} (hk : k = .cubic ∨ k = .quadratic)
    (hg : k.stop? g = some stop) {d : Command}
    (hd : d ∈ arcCandidates.arc tolerance pen mode absolute stop) :
    Redraws (.draw k mode [g]) d := by
  rw [arcCandidates.arc] at hd
  split at hd
  · rw [List.mem_singleton.1 hd]
    exact .curve rfl hk (by decide) hg rfl
  · exact absurd hd List.not_mem_nil

theorem of_mem_arcCandidates {tolerance : Single} {pen : Point} {next : Option Command}
    {c d : Command} (hd : d ∈ arcCandidates tolerance pen next c) : Redraws c d := by
  unfold arcCandidates at hd
  split at hd
  · split at hd
    · exact absurd hd List.not_mem_nil
    · exact of_mem_arc (.inl rfl) rfl hd
  · split at hd
    · exact absurd hd List.not_mem_nil
    · exact of_mem_arc (.inr rfl) rfl hd
  · exact absurd hd List.not_mem_nil

theorem shortestOf {places : UInt8} {c : Command} {candidates : List Command}
    (h : ∀ d ∈ candidates, Redraws c d) : Redraws c (Path.shortestOf places c candidates) := by
  obtain heq | hmem := List.mem_cons.1 (shortestOf_mem places c candidates)
  · rw [heq]
    exact .same
  · exact h _ hmem

end Redraws

/-- Commands that stand for others one by one take the pen the same way. -/
theorem advanceAll_take_eq {cs ds : List Command} (h : List.Forall₂ Redraws cs ds) (pen : Pen)
    (i : Nat) : pen.advanceAll (ds.take i) = pen.advanceAll (cs.take i) := by
  induction h generalizing pen i with
  | nil => rfl
  | cons hcd _ ih =>
    cases i with
    | zero => rfl
    | succ i =>
      rw [List.take_succ_cons, List.take_succ_cons, Pen.advanceAll_cons, Pen.advanceAll_cons,
        hcd.advance_eq, ih]

/-- A curve is considered where the pen is after the commands before it. -/
theorem getElem?_convertToArcs (tolerance : Single) (places : UInt8) (cs : List Command) (i : ℕ) :
    (convertToArcs tolerance places cs)[i]? = cs[i]?.map fun c => shortestOf places c
      (arcCandidates tolerance (Pen.advanceAll {} (cs.take i)).point cs[i + 1]? c) := by
  have hpen : Pen.advanceAll {} ((convertToArcs tolerance places cs).take i)
      = Pen.advanceAll {} (cs.take i) := advanceAll_take_eq (forall₂_convertToArcs
    (fun _ _ _ => .shortestOf fun _ => .of_mem_arcCandidates) cs) {} i
  rw [← hpen]
  exact getElem?_rewrite_of_after _ Pen.advance {} cs i

/-- The second list has a command for each of the first, which is the same or stands for a single
curve, and wherever the pen starts, it has the same current point and the same starts of subpaths
after each. -/
structure KeepsTrajectory (cs ds : List Command) : Prop where
  length_eq : ds.length = cs.length
  redraws : List.Forall₂ Redraws cs ds
  advanceAll_take (pen : Pen) (i : Nat) : pen.advanceAll (ds.take i) = pen.advanceAll (cs.take i)

theorem KeepsTrajectory.of_forall₂ {cs ds : List Command} (h : List.Forall₂ Redraws cs ds) :
    KeepsTrajectory cs ds :=
  ⟨h.length_eq.symm, h, advanceAll_take_eq h⟩

/-- **The curve passes keep the way of the pen.** For every path, tolerance and number of places,
each command is kept or, if it is a single curve, replaced by a command with one group, the same
mode and the same written end, and the pen is in the same state after each. -/
theorem curve_passes_keep_trajectory (tolerance : Single) (places : UInt8) (cs : List Command) :
    KeepsTrajectory cs (simplifyCurves tolerance places cs)
      ∧ KeepsTrajectory cs (convertToArcs tolerance places cs) :=
  ⟨.of_forall₂ (forall₂_simplifyCurves
      (fun _ _ _ _ => .shortestOf fun _ => .of_mem_curveCandidates) cs),
    .of_forall₂ (forall₂_convertToArcs
      (fun _ _ _ => .shortestOf fun _ => .of_mem_arcCandidates) cs)⟩

end VectorGraphics.Path
