import VectorGraphics.Proofs.Path.Openings
import VectorGraphics.Proofs.Path.Strokes

/-!
# One segment per command

A command with several groups draws what its first group and the rest of them draw as two commands
(`drawsAlike_cons`), and moves the pen and the last control points as those do. Group by group,
`splitGroups` keeps all that a path draws.
-/

namespace VectorGraphics.Path

/-! ## Paths that draw alike -/

/-- Paths with the same strokes, that leave the pen and the last control points in the same state,
from whatever state they are drawn. -/
structure DrawsAlike (cs ds : List Command) : Prop where
  strokes (pen : Pen) (r : Reflection) : strokesFrom pen r cs = strokesFrom pen r ds
  advance (pen : Pen) : pen.advanceAll cs = pen.advanceAll ds
  update (pen : Pen) (r : Reflection) : r.updateAll pen cs = r.updateAll pen ds

namespace DrawsAlike

variable {cs ds es fs : List Command}

theorem refl (cs : List Command) : DrawsAlike cs cs :=
  ⟨fun _ _ => rfl, fun _ => rfl, fun _ _ => rfl⟩

theorem trans (h : DrawsAlike cs ds) (h' : DrawsAlike ds es) : DrawsAlike cs es where
  strokes pen r := (h.strokes pen r).trans (h'.strokes pen r)
  advance pen := (h.advance pen).trans (h'.advance pen)
  update pen r := (h.update pen r).trans (h'.update pen r)

theorem append (h : DrawsAlike cs ds) (h' : DrawsAlike es fs) :
    DrawsAlike (cs ++ es) (ds ++ fs) where
  strokes pen r := by
    rw [strokesFrom_append, strokesFrom_append, h.strokes, h.advance, h.update, h'.strokes]
  advance pen := by
    rw [Pen.advanceAll_append, Pen.advanceAll_append, h.advance, h'.advance]
  update pen r := by
    rw [Reflection.updateAll_append, Reflection.updateAll_append, h.advance, h.update, h'.update]

theorem cons (c : Command) (h : DrawsAlike cs ds) : DrawsAlike (c :: cs) (c :: ds) :=
  (refl [c]).append h

end DrawsAlike

/-! ## One group apart -/

/-- The first group of a command that is not a move can be drawn by a command of its own. -/
theorem drawsAlike_cons {k : Kind} (hk : k ≠ .move) (m : Mode) (g h : k.Group)
    (gs : List k.Group) :
    DrawsAlike [.draw k m (g :: h :: gs)] [.draw k m [g], .draw k m (h :: gs)] := by
  have hpoint (pen : Pen) : (pen.advance (.draw k m [g])).point = k.land m pen.point g := by
    rw [Pen.advance_draw hk]
    rfl
  refine ⟨fun pen r => ?_, fun pen => ?_, fun pen r => ?_⟩
  · simp only [strokesFrom, Command.inMode_absolute, Command.strokes_draw hk, hpoint,
      List.append_nil, k.absolutes_cons, k.absolutes_nil, Kind.strokes, k.land_absolute,
      List.cons_append, List.nil_append]
  · simp only [Pen.advanceAll_cons, Pen.advanceAll_nil, Pen.advance_draw hk, List.foldl_cons,
      List.foldl_nil]
  · simp only [Reflection.updateAll, Command.inMode_absolute, hpoint, k.absolutes_cons,
      k.absolutes_nil, r.update_cons_cons, k.land_absolute]

/-- The points after the first of a move can be drawn by lines. -/
theorem drawsAlike_move (m : Mode) (p q : Point) (qs : List Point) :
    DrawsAlike [.draw .move m (p :: q :: qs)] [.draw .move m [p], .draw .line m (q :: qs)] := by
  have hland : Kind.move.land m = Kind.line.land m := by cases m <;> rfl
  have hmove (pen : Point) (ps : List Point) : (Command.draw .move m (p :: ps)).inMode .absolute pen
      = .draw .move .absolute
          (Kind.move.land m pen p :: Kind.line.absolutes m (Kind.move.land m pen p) ps) := by
    rw [Command.inMode_absolute, Kind.absolutes_cons, absolutes_move]
    exact congrArg (fun q => Command.draw .move .absolute (q :: _))
      (Kind.move.land_absolute m pen p)
  have hnil (pen : Point) : Kind.line.absolutes m pen ([] : List Point) = [] :=
    Kind.line.absolutes_nil m pen
  refine ⟨fun pen r => ?_, fun pen => ?_, fun pen r => ?_⟩
  · simp only [strokesFrom, hmove, hnil, Command.inMode_absolute, Command.strokes, Kind.strokes,
      List.append_nil, List.cons_append, List.nil_append]
    rfl
  · simp only [Pen.advanceAll_cons, Pen.advanceAll_nil, Pen.advance, List.foldl_cons, hland]
    rfl
  · simp only [Reflection.updateAll, Command.inMode_absolute]
    rfl

/-! ## All groups apart -/

/-- The groups of a command that is not a move can be drawn by a command each. -/
theorem drawsAlike_groups {k : Kind} (hk : k ≠ .move) (m : Mode) (g : k.Group)
    (gs : List k.Group) :
    DrawsAlike [.draw k m (g :: gs)] ((g :: gs).map fun h => .draw k m [h]) := by
  induction gs generalizing g with
  | nil => exact .refl _
  | cons h gs ih => exact (drawsAlike_cons hk m g h gs).trans ((ih h).cons _)

theorem drawsAlike_split {c : Command} (h : c.HasGroups) : DrawsAlike [c] c.split := by
  cases c with
  | close => exact .refl _
  | draw k m gs =>
    cases gs with
    | nil => exact absurd rfl (h rfl)
    | cons g gs =>
      cases k with
      | move =>
        cases gs with
        | nil => exact .refl _
        | cons q qs =>
          have hlines := drawsAlike_groups (show Kind.line ≠ .move by decide) m q qs
          exact (drawsAlike_move m g q qs).trans (hlines.cons _)
      | _ => exact drawsAlike_groups (by decide) m g gs

/-- A path draws what its commands draw group by group. -/
theorem drawsAlike_splitGroups {cs : List Command} (h : ∀ c ∈ cs, c.HasGroups) :
    DrawsAlike cs (splitGroups cs) := by
  induction cs with
  | nil => exact .refl _
  | cons c cs ih =>
    obtain ⟨hc, hcs⟩ := List.forall_mem_cons.1 h
    exact (drawsAlike_split hc).append (ih hcs)

/-! ## Single groups -/

/-- A close or a command with one group. -/
def Command.IsSingle (c : Command) : Prop := c ≠ .close → c.groupCount = 1

/-- There is nothing to split in a command with one group. -/
theorem Command.IsSingle.split {c : Command} (h : c.IsSingle) : c.split = [c] := by
  cases c with
  | close => rfl
  | draw k m gs =>
    obtain ⟨g, rfl⟩ := List.length_eq_one_iff.1 (h nofun)
    cases k <;> rfl

theorem isSingle_of_mem_split {c d : Command} (h : d ∈ c.split) : d.IsSingle := by
  intro hd
  unfold Command.split at h
  split at h
  · exact absurd h List.not_mem_nil
  · obtain rfl | h := List.mem_cons.1 h
    · rfl
    · obtain ⟨q, -, rfl⟩ := List.mem_map.1 h
      rfl
  · obtain ⟨g, -, rfl⟩ := List.mem_map.1 h
    rfl
  · exact absurd (List.mem_singleton.1 h) hd

theorem isSingle_of_mem_splitGroups {cs : List Command} {d : Command} (h : d ∈ splitGroups cs) :
    d.IsSingle := by
  obtain ⟨c, -, hc⟩ := List.mem_flatMap.1 h
  exact isSingle_of_mem_split hc

theorem splitGroups_eq_self {cs : List Command} (h : ∀ c ∈ cs, c.IsSingle) :
    splitGroups cs = cs := by
  induction cs with
  | nil => rfl
  | cons c cs ih =>
    obtain ⟨hc, hcs⟩ := List.forall_mem_cons.1 h
    rw [splitGroups, List.flatMap_cons, hc.split]
    exact congrArg (c :: ·) (ih hcs)

/-- **Splitting keeps the drawing.** If each drawing command of a path has a group, then each
drawing command of the split path has one group, and there is nothing more to split in it. It
passes the same strokes and leaves the pen and the last control points in the same state. -/
theorem splitGroups_keeps_drawing (cs : List Command) (h : ∀ c ∈ cs, c.HasGroups) :
    (∀ c ∈ splitGroups cs, c ≠ .close → c.groupCount = 1)
      ∧ splitGroups (splitGroups cs) = splitGroups cs
      ∧ strokes (splitGroups cs) = strokes cs
      ∧ Pen.advanceAll {} (splitGroups cs) = Pen.advanceAll {} cs
      ∧ Reflection.updateAll {} {} (splitGroups cs) = Reflection.updateAll {} {} cs := by
  have halike := drawsAlike_splitGroups h
  exact ⟨fun _ hc => isSingle_of_mem_splitGroups hc,
    splitGroups_eq_self fun _ hc => isSingle_of_mem_splitGroups hc,
    (halike.strokes {} {}).symm, (halike.advance {}).symm, (halike.update {} {}).symm⟩

/-- A path with a line after a move, a run of smooth quadratic curves, and lines after a close. -/
theorem splitGroups_keeps_smooth_run :
    let cs : List Command := [.draw .move .relative [⟨1, 2⟩, ⟨3, 4⟩],
      .draw .quadratic .absolute [⟨⟨5, 10⟩, ⟨10, 0⟩⟩],
      .draw .smoothQuadratic .relative [⟨10, 0⟩, ⟨10, 0⟩], .close,
      .draw .horizontal .relative [1, 2]]
    (∀ c ∈ cs, c.HasGroups)
      ∧ (splitGroups cs).map Command.groupCount = [1, 1, 1, 1, 1, 0, 1, 1]
      ∧ strokes (splitGroups cs) = strokes cs := by
  intro cs
  have hgroups : ∀ c ∈ cs, c.HasGroups := by
    simp [cs, Command.HasGroups, Command.groupCount, Command.kind?]
  obtain ⟨-, -, hstrokes, -, -⟩ := splitGroups_keeps_drawing cs hgroups
  exact ⟨hgroups, rfl, hstrokes⟩

end VectorGraphics.Path
