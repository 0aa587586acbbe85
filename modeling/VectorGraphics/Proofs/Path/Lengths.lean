import Mathlib.Algebra.BigOperators.Group.List.Lemmas
import Mathlib.Algebra.GroupWithZero.Nat
import Mathlib.Algebra.Order.BigOperators.Group.List
import Mathlib.Data.String.Basic
import VectorGraphics.Proofs.Path.Openings

/-!
# Rewriting never lengthens a path

The text of a path is as long as the texts of its commands together (`utf8ByteSize_print`), so that
a rewriting may be looked at command by command. Splitting a command into segments spells a letter
where a separator was and keeps the length (`sum_printedLength_split`); all other rewritings take a
command that is no longer, or leave one out. `print_rewritten_le` is the result about any sequence
of them.
-/

namespace VectorGraphics.Path

variable {places : UInt8}

/-! ## Lengths of commands -/

theorem printedLength_eq (places : UInt8) (c : Command) :
    c.printedLength places = String.utf8Len (c.chars places) := by
  rw [Command.printedLength, Command.text, String.utf8ByteSize_ofList]

/-- The length of a path is the sum of the lengths of its commands. -/
theorem utf8ByteSize_print (cs : List Command) (places : UInt8) :
    (print cs places).utf8ByteSize = (cs.map (·.printedLength places)).sum := by
  rw [print, String.utf8ByteSize_ofList]
  induction cs with
  | nil => rfl
  | cons c cs ih =>
    rw [List.flatMap_cons, String.utf8Len_append, ih, List.map_cons, List.sum_cons,
      printedLength_eq]

theorem utf8Size_letter (c : Command) : c.letter.utf8Size = 1 := by
  cases c with
  | close => rfl
  | draw k m gs => cases k <;> cases m <;> rfl

/-- Every group of a command comes with one character in front, the letter or a separator. -/
theorem printedLength_draw (places : UInt8) (k : Kind) (m : Mode) {gs : List k.Group}
    (hne : gs ≠ []) : (Command.draw k m gs).printedLength places
      = (gs.map fun g => String.utf8Len (k.groupChars places g) + 1).sum := by
  have hgroups : String.utf8Len ([' '].intercalate (gs.map (k.groupChars places))) + 1
      = (gs.map fun g => String.utf8Len (k.groupChars places g) + 1).sum := by
    induction gs with
    | nil => exact absurd rfl hne
    | cons g gs ih =>
      cases gs with
      | nil => simp
      | cons g' gs =>
        have ih := ih (List.cons_ne_nil _ _)
        have hspace : ' '.utf8Size = 1 := rfl
        simp only [List.map_cons, List.sum_cons, List.intercalate_cons_cons, String.utf8Len_append,
          String.utf8Len_cons, String.utf8Len_nil, hspace] at ih ⊢
        omega
  rw [printedLength_eq, Command.chars, String.utf8Len_cons, utf8Size_letter]
  exact hgroups

theorem printedLength_single (places : UInt8) (k : Kind) (m : Mode) (g : k.Group) :
    (Command.draw k m [g]).printedLength places
      = String.utf8Len (k.groupChars places g) + 1 := by
  rw [printedLength_draw places k m (List.cons_ne_nil g []), List.map_singleton,
    List.sum_singleton]

/-! ## Splitting -/

/-- The segments of a command together are as long as the command. -/
theorem sum_printedLength_split {c : Command} (h : c.HasGroups) :
    (c.split.map (·.printedLength places)).sum = c.printedLength places := by
  unfold Command.split
  split
  · exact absurd rfl (h rfl)
  · next mode p ps =>
    -- The points after the first are printed alike in a move and in a line.
    rw [printedLength_draw places .move mode (List.cons_ne_nil p ps), List.map_cons, List.map_cons,
      List.sum_cons, List.sum_cons, printedLength_single, List.map_map]
    congr 2
    exact List.map_congr_left fun q _ => printedLength_single places .line mode q
  · next k mode groups _ _ =>
    have hne : groups ≠ [] := fun hnil => h rfl (List.length_eq_zero_iff.2 hnil)
    rw [printedLength_draw places k mode hne, List.map_map]
    congr 1
    exact List.map_congr_left fun g _ => printedLength_single places k mode g
  · rfl

/-- A path and its segments are printed at the same length. -/
theorem utf8ByteSize_print_splitGroups {cs : List Command} (h : ∀ c ∈ cs, c.HasGroups) :
    (print (splitGroups cs) places).utf8ByteSize = (print cs places).utf8ByteSize := by
  rw [utf8ByteSize_print, utf8ByteSize_print, splitGroups]
  induction cs with
  | nil => rfl
  | cons c cs ih =>
    obtain ⟨hc, hcs⟩ := List.forall_mem_cons.1 h
    rw [List.flatMap_cons, List.map_append, List.sum_append, sum_printedLength_split hc, ih hcs,
      List.map_cons, List.sum_cons]

/-! ## Shorter commands -/

/-- A command that is printed no longer than another one. -/
def NoLonger (places : UInt8) (c d : Command) : Prop :=
  d.printedLength places ≤ c.printedLength places

theorem utf8ByteSize_print_le {cs ds : List Command} (h : List.Forall₂ (NoLonger places) cs ds) :
    (print ds places).utf8ByteSize ≤ (print cs places).utf8ByteSize := by
  rw [utf8ByteSize_print, utf8ByteSize_print]
  refine List.Forall₂.sum_le_sum ?_
  exact List.forall₂_map_left_iff.2 (List.forall₂_map_right_iff.2 h.flip)

theorem printedLength_line (places : UInt8) (m : Mode) (p : Point) :
    (Command.draw .line m [p]).printedLength places
      = String.utf8Len (p.x.chars places) + String.utf8Len (p.y.chars places) + 2 := by
  have hgroup : Kind.line.groupChars places p = p.x.chars places ++ ',' :: p.y.chars places := by
    simp [Kind.groupChars, Kind.slots, Kind.numbers, Kind.Slot.chars]
  have hcomma : ','.utf8Size = 1 := rfl
  rw [printedLength_single, hgroup, String.utf8Len_append, String.utf8Len_cons, hcomma]
  rfl

theorem printedLength_horizontal (places : UInt8) (m : Mode) (x : Single) :
    (Command.draw .horizontal m [x]).printedLength places
      = String.utf8Len (x.chars places) + 1 := by
  rw [printedLength_single]
  simp [Kind.groupChars, Kind.slots, Kind.numbers, Kind.Slot.chars]

theorem printedLength_vertical (places : UInt8) (m : Mode) (y : Single) :
    (Command.draw .vertical m [y]).printedLength places
      = String.utf8Len (y.chars places) + 1 := by
  rw [printedLength_single]
  simp [Kind.groupChars, Kind.slots, Kind.numbers, Kind.Slot.chars]

/-- Without the other coordinate and the comma, a line is shorter. -/
theorem noLonger_alignLine (tolerance : Single) (pen : Point) (c : Command) :
    NoLonger places c (alignLine tolerance pen c) := by
  unfold alignLine
  split
  · next mode p =>
    extract_lets delta
    split
    · rw [NoLonger, printedLength_line, printedLength_horizontal]
      omega
    · split
      · rw [NoLonger, printedLength_line, printedLength_vertical]
        omega
      · exact Nat.le_refl _
  · exact Nat.le_refl _

theorem noLonger_chooseMode (pen : Point) (c : Command) :
    NoLonger places c (chooseMode places pen c) := by
  rw [chooseMode]
  split
  · exact Nat.le_refl _
  · extract_lets other
    split
    · next hlt => exact hlt.le
    · exact Nat.le_refl _

/-- The command that is chosen is not longer, whatever the candidates are. -/
theorem noLonger_shortestOf (c : Command) (candidates : List Command) :
    NoLonger places c (shortestOf places c candidates) := by
  -- The length of the best so far is noted with it, and it only goes down.
  have go (best : Option Command × Nat)
      (hbest : (best.1.getD c).printedLength places = best.2 ∧ best.2 ≤ c.printedLength places) :
      NoLonger places c ((candidates.foldl (fun (best : Option Command × Nat) d =>
        let length := d.printedLength places
        if length ≤ best.2 && (best.1.isNone || length < best.2) then (some d, length) else best)
        best).1.getD c) := by
    induction candidates generalizing best with
    | nil => exact hbest.1.le.trans hbest.2
    | cons d ds ih =>
      refine ih _ ?_
      dsimp only
      split
      · next hcondition =>
        have hle := of_decide_eq_true (Bool.and_eq_true_iff.1 hcondition).1
        exact ⟨rfl, hle.trans hbest.2⟩
      · exact hbest
  exact go _ ⟨rfl, Nat.le_refl _⟩

/-- A path without some of its commands is not longer. -/
theorem utf8ByteSize_print_le_of_sublist {cs ds : List Command} (h : ds.Sublist cs) :
    (print ds places).utf8ByteSize ≤ (print cs places).utf8ByteSize := by
  rw [utf8ByteSize_print, utf8ByteSize_print]
  exact (h.map _).sum_le_sum fun _ _ => Nat.zero_le _

/-! ## Sequences of rewritings -/

/-- A rewriting of a path, with its tolerance if it has one. -/
inductive Rewriting
  | splitGroups
  | simplifyCurves (tolerance : Single)
  | convertToArcs (tolerance : Single)
  | alignLines (tolerance : Single)
  | chooseModes
  | dropRepeated

namespace Rewriting

/-- The commands after a rewriting for a number of places. -/
def run (places : UInt8) (cs : List Command) : Rewriting → List Command
  | splitGroups => Path.splitGroups cs
  | simplifyCurves tolerance => Path.simplifyCurves tolerance places cs
  | convertToArcs tolerance => Path.convertToArcs tolerance places cs
  | alignLines tolerance => Path.alignLines tolerance cs
  | chooseModes => Path.chooseModes places cs
  | dropRepeated => Path.dropRepeated cs

variable {cs : List Command}

theorem hasGroups_run (h : ∀ c ∈ cs, c.HasGroups) (r : Rewriting) :
    ∀ c ∈ r.run places cs, c.HasGroups := by
  cases r with
  | splitGroups => exact hasGroups_splitGroups cs
  | simplifyCurves tolerance =>
    exact hasGroups_of_forall₂
      (forall₂_simplifyCurves (standsFor_shortestOf_curveCandidates tolerance places) cs) h
  | convertToArcs tolerance =>
    exact hasGroups_of_forall₂
      (forall₂_convertToArcs (standsFor_shortestOf_arcCandidates tolerance places) cs) h
  | alignLines tolerance =>
    exact hasGroups_of_forall₂ (forall₂_alignLines (standsFor_alignLine tolerance) cs) h
  | chooseModes =>
    exact hasGroups_of_forall₂ (forall₂_chooseModes (standsFor_chooseMode places) cs) h
  | dropRepeated => exact fun c hc => h c ((dropRepeated_go_sublist none cs).subset hc)

theorem utf8ByteSize_print_run_le (h : ∀ c ∈ cs, c.HasGroups) (r : Rewriting) :
    (print (r.run places cs) places).utf8ByteSize ≤ (print cs places).utf8ByteSize := by
  cases r with
  | splitGroups => exact (utf8ByteSize_print_splitGroups h).le
  | simplifyCurves tolerance =>
    exact utf8ByteSize_print_le
      (forall₂_simplifyCurves (fun _ _ _ c => noLonger_shortestOf c _) cs)
  | convertToArcs tolerance =>
    exact utf8ByteSize_print_le
      (forall₂_convertToArcs (fun _ _ c => noLonger_shortestOf c _) cs)
  | alignLines tolerance =>
    exact utf8ByteSize_print_le (forall₂_alignLines (noLonger_alignLine tolerance) cs)
  | chooseModes => exact utf8ByteSize_print_le (forall₂_chooseModes noLonger_chooseMode cs)
  | dropRepeated => exact utf8ByteSize_print_le_of_sublist (dropRepeated_go_sublist none cs)

end Rewriting

/-- **Rewriting never lengthens a path.** A path whose drawing commands all have groups is not
printed longer after any sequence of rewritings for the number of places it is printed at, and just
as long when it is split into segments. -/
theorem print_rewritten_le {cs : List Command} (h : ∀ c ∈ cs, c.HasGroups) (places : UInt8)
    (rs : List Rewriting) :
    (print (rs.foldl (Rewriting.run places) cs) places).utf8ByteSize
        ≤ (print cs places).utf8ByteSize
      ∧ (print (splitGroups cs) places).utf8ByteSize = (print cs places).utf8ByteSize := by
  refine ⟨?_, utf8ByteSize_print_splitGroups h⟩
  induction rs generalizing cs with
  | nil => exact Nat.le_refl _
  | cons r rs ih => exact (ih (r.hasGroups_run h)).trans (r.utf8ByteSize_print_run_le h)

/-- A curve that is nearly straight, after a move that goes on, with an infinite tolerance and one
that is no number. -/
theorem straight_curve_is_not_longer :
    (∀ c ∈ [Command.draw .move .absolute [⟨0, 0⟩, ⟨5, 5⟩],
        .draw .cubic .relative [⟨⟨1, 0⟩, ⟨2, 0⟩, ⟨3, 0⟩⟩], .close], c.HasGroups)
      ∧ (print ([.splitGroups, .simplifyCurves .infinity, .alignLines .nan].foldl
            (Rewriting.run 2) [.draw .move .absolute [⟨0, 0⟩, ⟨5, 5⟩],
              .draw .cubic .relative [⟨⟨1, 0⟩, ⟨2, 0⟩, ⟨3, 0⟩⟩], .close]) 2).utf8ByteSize
          ≤ (print [.draw .move .absolute [⟨0, 0⟩, ⟨5, 5⟩],
              .draw .cubic .relative [⟨⟨1, 0⟩, ⟨2, 0⟩, ⟨3, 0⟩⟩], .close] 2).utf8ByteSize := by
  have hgroups : ∀ c ∈ [Command.draw .move .absolute [⟨0, 0⟩, ⟨5, 5⟩],
      .draw .cubic .relative [⟨⟨1, 0⟩, ⟨2, 0⟩, ⟨3, 0⟩⟩], .close], c.HasGroups := by
    intro c hc
    simp only [List.mem_cons, List.not_mem_nil, or_false] at hc
    obtain rfl | rfl | rfl := hc
    · exact fun _ => by decide
    · exact fun _ => by decide
    · nofun
  exact ⟨hgroups, (print_rewritten_le hgroups 2 _).1⟩

end VectorGraphics.Path
