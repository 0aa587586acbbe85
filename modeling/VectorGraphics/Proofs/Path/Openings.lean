import Mathlib.Data.List.Forall2
import VectorGraphics.Path.Arcs
import VectorGraphics.Path.Mapping
import VectorGraphics.Path.Reader
import VectorGraphics.Path.Spelling

/-!
# Paths that begin with a move

What is read from path data begins with a move, if it is not empty, and every drawing command of it
has a group (`isPath_of_parse`). Each of the ways of rewriting a path keeps this: most of them
replace command by command (`IsPath.of_forall₂`).
-/

namespace VectorGraphics.Path

/-- Whether a drawing command draws anything. -/
def Command.HasGroups (c : Command) : Prop := c.kind?.isSome = true → c.groupCount ≠ 0

/-- A path is empty or begins with a move, and every drawing command has a group. -/
structure IsPath (cs : List Command) : Prop where
  move : ∀ c, cs.head? = some c → c.isKind .move = true
  hasGroups : ∀ c ∈ cs, c.HasGroups

namespace IsPath

variable {cs ds : List Command}

theorem nil : IsPath [] := ⟨nofun, nofun⟩

theorem groups_ne_nil (h : IsPath cs) {k : Kind} {m : Mode} {gs : List k.Group}
    (hmem : .draw k m gs ∈ cs) : gs ≠ [] := by
  rintro rfl
  exact h.hasGroups _ hmem rfl rfl

/-- A path may be continued by commands that have groups. -/
theorem append (h : IsPath cs) (hne : cs ≠ []) (hds : ∀ d ∈ ds, d.HasGroups) :
    IsPath (cs ++ ds) := by
  refine ⟨fun c hc => ?_, fun c hc => ?_⟩
  · rw [List.head?_append_of_ne_nil cs hne] at hc
    exact h.move c hc
  · exact (List.mem_append.1 hc).elim (h.hasGroups c) (hds c)

end IsPath

/-! ## Reading -/

theorem chunks_ne_nil {α : Type} {n : Nat} (hn : n ≠ 0) {l : List α} (hl : l ≠ []) :
    chunks n l ≠ [] := by
  rw [chunks, dif_neg (not_or.2 ⟨hn, hl⟩)]
  exact List.cons_ne_nil _ _

theorem groups?_ne_nil {k : Kind} {xs : List Single} {gs : List k.Group}
    (h : k.groups? xs = some gs) : gs ≠ [] := by
  rw [Kind.groups?] at h
  split at h
  · cases h
  · next hne =>
    have harity : k.arity ≠ 0 := by cases k <;> decide
    obtain ⟨piece, pieces, hpieces⟩ := List.exists_cons_of_ne_nil (chunks_ne_nil harity hne)
    rw [hpieces, List.mapM_cons, Option.bind_eq_bind, Option.bind_eq_some_iff] at h
    obtain ⟨g, -, h⟩ := h
    obtain ⟨more, -, h⟩ := Option.bind_eq_some_iff.1 h
    rw [← Option.some.inj h]
    exact List.cons_ne_nil _ _

theorem hasGroups_of_ofParameters {letter : Char} {kind : Option Kind} {xs : List Single}
    {c : Command} (h : ofParameters letter kind xs = .ok c) : c.HasGroups := by
  unfold ofParameters at h
  split at h
  · split at h
    · rw [← Except.ok.inj h]
      nofun
    · cases h
  · split at h
    · next gs hgs =>
      rw [← Except.ok.inj h]
      exact fun _ hcount => groups?_ne_nil hgs (List.eq_nil_of_length_eq_zero hcount)
    · cases h

theorem hasGroups_of_commands {cs : List Char} {path : List Command}
    (h : commands cs = .ok path) : ∀ c ∈ path, c.HasGroups := by
  fun_induction commands cs generalizing path with
  | case1 =>
    rw [← Except.ok.inj h]
    nofun
  | case2 | case3 | case4 | case5 | case7 => cases h
  | case6 cs c rest hs halpha kind hkind xs rest' hxs hlt command hcommand more hmore ih =>
    rw [← Except.ok.inj h]
    intro d hd
    obtain rfl | hd := List.mem_cons.1 hd
    · exact hasGroups_of_ofParameters hcommand
    · exact ih hmore d hd

/-- Path data that can be read is a path. -/
theorem isPath_of_parse {s : String} {path : List Command} (h : parse s = .ok path) :
    IsPath path := by
  rw [parse] at h
  split at h
  · cases h
  · rw [← Except.ok.inj h]
    exact .nil
  · next c cs hcs =>
    split at h
    · next hmove =>
      rw [← Except.ok.inj h]
      refine ⟨fun d hd => ?_, hasGroups_of_commands hcs⟩
      rw [← Option.some.inj hd]
      exact hmove
    · cases h

/-! ## Command by command

A relation between every command and what becomes of it, wherever the pen stands, holds all along
the path.
-/

section

variable {R : Command → Command → Prop}

theorem forall₂_rewrite {σ : Type} {edit : σ → Option Command → Command → Command}
    (h : ∀ state next c, R c (edit state next c)) (after : σ → Command → Command → σ) (state : σ)
    (cs : List Command) : List.Forall₂ R cs (rewrite edit after state cs) := by
  induction cs generalizing state with
  | nil => exact .nil
  | cons c cs ih => exact .cons (h state cs.head? c) (ih _)

theorem forall₂_chooseModes {places : UInt8} (h : ∀ pen c, R c (chooseMode places pen c))
    (cs : List Command) : List.Forall₂ R cs (chooseModes places cs) :=
  forall₂_rewrite (fun (pen : Pen) _ c => h pen.point c) _ {} cs

theorem forall₂_alignLines {tolerance : Single} (h : ∀ pen c, R c (alignLine tolerance pen c))
    (cs : List Command) : List.Forall₂ R cs (alignLines tolerance cs) :=
  forall₂_rewrite (fun (pen : Pen) _ c => h pen.point c) _ {} cs

theorem forall₂_simplifyCurves {tolerance : Single} {places : UInt8}
    (h : ∀ pen r next c, R c (shortestOf places c (curveCandidates tolerance pen r next c)))
    (cs : List Command) : List.Forall₂ R cs (simplifyCurves tolerance places cs) :=
  forall₂_rewrite (fun (s : Pen × Reflection) next c => h s.1.point s.2 next c) _ ({}, {}) cs

theorem forall₂_convertToArcs {tolerance : Single} {places : UInt8}
    (h : ∀ pen next c, R c (shortestOf places c (arcCandidates tolerance pen next c)))
    (cs : List Command) : List.Forall₂ R cs (convertToArcs tolerance places cs) :=
  forall₂_rewrite (fun (pen : Pen) next c => h pen.point next c) _ {} cs

theorem forall₂_mapPath {m : Matrix}
    (h : ∀ pen c, R c (mapCommand m pen (c.inMode .absolute pen))) (cs : List Command) :
    List.Forall₂ R cs (mapPath m cs) :=
  forall₂_rewrite (fun (pen : Pen) _ c => h pen.point c) _ {} cs

end

/-- Standing for a command in a path: a move for a move, with groups if that has groups. -/
structure StandsFor (c d : Command) : Prop where
  move : c.isKind .move = true → d.isKind .move = true
  hasGroups : c.HasGroups → d.HasGroups

theorem StandsFor.refl (c : Command) : StandsFor c c := ⟨id, id⟩

theorem StandsFor.of_not_move {c d : Command} (hc : c.isKind .move = false)
    (hd : c.HasGroups → d.HasGroups) : StandsFor c d :=
  ⟨fun h => absurd (hc.symm.trans h) Bool.false_ne_true, hd⟩

theorem StandsFor.trans {c d e : Command} (h : StandsFor c d) (h' : StandsFor d e) :
    StandsFor c e :=
  ⟨h'.move ∘ h.move, h'.hasGroups ∘ h.hasGroups⟩

theorem StandsFor.of_kind?_groupCount {c d : Command} (hkind : d.kind? = c.kind?)
    (hcount : d.groupCount = c.groupCount) : StandsFor c d := by
  refine ⟨fun h => ?_, fun h => ?_⟩
  · rwa [Command.isKind, hkind]
  · rwa [Command.HasGroups, hkind, hcount]

theorem hasGroups_of_forall₂ {cs ds : List Command} (h : List.Forall₂ StandsFor cs ds)
    (hcs : ∀ c ∈ cs, c.HasGroups) : ∀ d ∈ ds, d.HasGroups := by
  induction h with
  | nil => nofun
  | cons hcd _ ih =>
    obtain ⟨hc, hcs⟩ := List.forall_mem_cons.1 hcs
    exact List.forall_mem_cons.2 ⟨hcd.hasGroups hc, ih hcs⟩

/-- A path stays one when its commands are replaced one by one. -/
theorem IsPath.of_forall₂ {cs ds : List Command} (h : IsPath cs)
    (hall : List.Forall₂ StandsFor cs ds) : IsPath ds := by
  refine ⟨fun d hd => ?_, hasGroups_of_forall₂ hall h.hasGroups⟩
  cases hall with
  | nil => cases hd
  | cons hcd _ =>
    rw [← Option.some.inj hd]
    exact hcd.move (h.move _ rfl)

theorem standsFor_inMode (c : Command) (m : Mode) (pen : Point) :
    StandsFor c (c.inMode m pen) :=
  .of_kind?_groupCount (Command.kind?_inMode c m pen) (Command.groupCount_inMode c m pen)

theorem standsFor_chooseMode (places : UInt8) (pen : Point) (c : Command) :
    StandsFor c (chooseMode places pen c) := by
  rw [chooseMode]
  split
  · exact .refl c
  · dsimp only
    split
    · exact standsFor_inMode c _ pen
    · exact .refl c

theorem IsPath.chooseModes {cs : List Command} (h : IsPath cs) (places : UInt8) :
    IsPath (chooseModes places cs) :=
  h.of_forall₂ (forall₂_chooseModes (standsFor_chooseMode places) cs)

theorem standsFor_alignLine (tolerance : Single) (pen : Point) (c : Command) :
    StandsFor c (alignLine tolerance pen c) := by
  unfold alignLine
  split
  · extract_lets delta
    split
    · exact .of_not_move rfl fun _ _ => Nat.one_ne_zero
    · split
      · exact .of_not_move rfl fun _ _ => Nat.one_ne_zero
      · exact .refl _
  · exact .refl c

theorem IsPath.alignLines {cs : List Command} (h : IsPath cs) (tolerance : Single) :
    IsPath (alignLines tolerance cs) :=
  h.of_forall₂ (forall₂_alignLines (standsFor_alignLine tolerance) cs)

/-! ## Curves -/

/-- The command that is chosen is one of those at hand. -/
theorem shortestOf_mem (places : UInt8) (c : Command) (candidates : List Command) :
    shortestOf places c candidates ∈ c :: candidates := by
  -- The best so far is `c` itself, or one of the candidates that are behind.
  have go (best : Option Command × Nat) (hbest : best.1.getD c ∈ c :: candidates)
      (ds : List Command) (hds : ∀ d ∈ ds, d ∈ candidates) :
      ((ds.foldl (fun (best : Option Command × Nat) d =>
        let length := d.printedLength places
        if length ≤ best.2 && (best.1.isNone || length < best.2) then (some d, length) else best)
        best).1.getD c) ∈ c :: candidates := by
    induction ds generalizing best with
    | nil => exact hbest
    | cons d ds ih =>
      obtain ⟨hd, hds⟩ := List.forall_mem_cons.1 hds
      refine ih _ ?_ hds
      dsimp only
      split
      · exact List.mem_cons_of_mem c hd
      · exact hbest
  exact go _ List.mem_cons_self candidates fun _ h => h

theorem standsFor_shortestOf {places : UInt8} {c : Command} {candidates : List Command}
    (h : ∀ d ∈ candidates, StandsFor c d) : StandsFor c (shortestOf places c candidates) := by
  obtain heq | hmem := List.mem_cons.1 (shortestOf_mem places c candidates)
  · rw [heq]
    exact .refl c
  · exact h _ hmem

theorem standsFor_candidate {condition : Bool} {c d : Command} (h : StandsFor c d) :
    ∀ e ∈ candidate condition d, StandsFor c e := by
  intro e he
  rw [candidate] at he
  split at he
  · rw [List.mem_singleton.1 he]
    exact h
  · exact absurd he List.not_mem_nil

theorem standsFor_curveCandidates {tolerance : Single} {pen : Point} {r : Reflection}
    {next : Option Command} {c : Command} :
    ∀ d ∈ curveCandidates tolerance pen r next c, StandsFor c d := by
  intro d hd
  unfold curveCandidates at hd
  split at hd
  · obtain hd | hd := List.mem_append.1 hd
    · refine standsFor_candidate (.of_not_move rfl ?_) d hd
      exact fun _ _ => Nat.one_ne_zero
    · refine standsFor_candidate (.of_not_move rfl ?_) d hd
      exact fun _ _ => Nat.one_ne_zero
  · obtain hd | hd := List.mem_append.1 hd
    · refine standsFor_candidate (.of_not_move rfl ?_) d hd
      exact fun _ _ => Nat.one_ne_zero
    · refine standsFor_candidate (.of_not_move rfl ?_) d hd
      exact fun _ _ => Nat.one_ne_zero
  · exact absurd hd List.not_mem_nil

theorem standsFor_shortestOf_curveCandidates (tolerance : Single) (places : UInt8) (pen : Point)
    (r : Reflection) (next : Option Command) (c : Command) :
    StandsFor c (shortestOf places c (curveCandidates tolerance pen r next c)) :=
  standsFor_shortestOf standsFor_curveCandidates

theorem IsPath.simplifyCurves {cs : List Command} (h : IsPath cs) (tolerance : Single)
    (places : UInt8) : IsPath (simplifyCurves tolerance places cs) :=
  h.of_forall₂ (forall₂_simplifyCurves (standsFor_shortestOf_curveCandidates tolerance places) cs)

theorem standsFor_arc {tolerance : Single} {pen : Point} {mode : Mode} {g : CubicGroup}
    {stop : Point} {c : Command} (hc : c.isKind .move = false) :
    ∀ d ∈ arcCandidates.arc tolerance pen mode g stop, StandsFor c d := by
  intro d hd
  rw [arcCandidates.arc] at hd
  split at hd
  · rw [List.mem_singleton.1 hd]
    exact .of_not_move hc fun _ _ => Nat.one_ne_zero
  · exact absurd hd List.not_mem_nil

theorem standsFor_arcCandidates {tolerance : Single} {pen : Point} {next : Option Command}
    {c : Command} : ∀ d ∈ arcCandidates tolerance pen next c, StandsFor c d := by
  intro d hd
  unfold arcCandidates at hd
  split at hd
  · split at hd
    · exact absurd hd List.not_mem_nil
    · exact standsFor_arc rfl d hd
  · split at hd
    · exact absurd hd List.not_mem_nil
    · exact standsFor_arc rfl d hd
  · exact absurd hd List.not_mem_nil

theorem standsFor_shortestOf_arcCandidates (tolerance : Single) (places : UInt8) (pen : Point)
    (next : Option Command) (c : Command) :
    StandsFor c (shortestOf places c (arcCandidates tolerance pen next c)) :=
  standsFor_shortestOf standsFor_arcCandidates

theorem IsPath.convertToArcs {cs : List Command} (h : IsPath cs) (tolerance : Single)
    (places : UInt8) : IsPath (convertToArcs tolerance places cs) :=
  h.of_forall₂ (forall₂_convertToArcs (standsFor_shortestOf_arcCandidates tolerance places) cs)

/-! ## Affine maps -/

theorem standsFor_mapCommand (m : Matrix) (pen : Point) (c : Command) :
    StandsFor c (mapCommand m pen c) := by
  unfold mapCommand
  split
  · exact .of_not_move rfl fun h _ => by simpa [Command.groupCount] using h rfl
  · exact .of_not_move rfl fun h _ => by simpa [Command.groupCount] using h rfl
  · exact .of_not_move rfl fun h _ => by simpa [Command.groupCount] using h rfl
  · exact .of_kind?_groupCount rfl (List.length_map _)
  · exact .refl _

theorem IsPath.mapPath {cs : List Command} (h : IsPath cs) (m : Matrix) :
    IsPath (mapPath m cs) :=
  h.of_forall₂ (forall₂_mapPath
    (fun pen c => .trans (standsFor_inMode c _ pen) (standsFor_mapCommand m pen _)) cs)

/-! ## Fewer and more commands -/

/-- A command is drawn segment by segment. -/
theorem hasGroups_split (c : Command) : ∀ d ∈ c.split, d.HasGroups := by
  intro d hd
  unfold Command.split at hd
  split at hd
  · exact absurd hd List.not_mem_nil
  · obtain rfl | hd := List.mem_cons.1 hd
    · exact fun _ => Nat.one_ne_zero
    · obtain ⟨q, -, rfl⟩ := List.mem_map.1 hd
      exact fun _ => Nat.one_ne_zero
  · obtain ⟨g, -, rfl⟩ := List.mem_map.1 hd
    exact fun _ => Nat.one_ne_zero
  · rw [List.mem_singleton.1 hd]
    nofun

/-- The segments of a move begin with a move. -/
theorem head?_split {c : Command} (hmove : c.isKind .move = true) (hgroups : c.HasGroups) :
    ∃ d, c.split.head? = some d ∧ d.isKind .move = true := by
  cases c with
  | close => cases hmove
  | draw k m gs =>
    obtain rfl : k = .move := by
      simpa [Command.isKind, Command.kind?] using hmove
    cases gs with
    | nil => exact absurd rfl (hgroups rfl)
    | cons p ps => exact ⟨.draw .move m [p], rfl, rfl⟩

theorem hasGroups_splitGroups (cs : List Command) : ∀ d ∈ splitGroups cs, d.HasGroups := by
  intro d hd
  obtain ⟨c, -, hc⟩ := List.mem_flatMap.1 hd
  exact hasGroups_split c d hc

theorem IsPath.splitGroups {cs : List Command} (h : IsPath cs) : IsPath (splitGroups cs) := by
  refine ⟨fun d hd => ?_, hasGroups_splitGroups cs⟩
  cases cs with
  | nil => cases hd
  | cons c cs =>
    obtain ⟨e, he, hmove⟩ := head?_split (h.move c rfl) (h.hasGroups c List.mem_cons_self)
    rw [Path.splitGroups, List.flatMap_cons, List.head?_append, he] at hd
    rwa [← Option.some.inj hd]

theorem dropRepeated_go_sublist (last : Option Command) (cs : List Command) :
    (dropRepeated.go last cs).Sublist cs := by
  induction cs generalizing last with
  | nil => exact .slnil
  | cons c cs ih =>
    rw [dropRepeated.go]
    split
    · exact (ih last).cons c
    · exact (ih (some c)).cons_cons c

/-- The first command repeats none and stays. -/
theorem IsPath.dropRepeated {cs : List Command} (h : IsPath cs) : IsPath (dropRepeated cs) := by
  refine ⟨fun d hd => ?_, fun d hd => ?_⟩
  · cases cs with
    | nil => cases hd
    | cons c cs =>
      refine h.move d ?_
      rw [← hd]
      rfl
  · exact h.hasGroups d ((dropRepeated_go_sublist none cs).subset hd)

end VectorGraphics.Path
