import VectorGraphics.Proofs.Path.Scanning

/-!
# Printed path data is read back

Printing commands of finite numbers and reading the text gives the same commands, each number
being replaced by what its own text is read as (`parse_print`).
-/

namespace VectorGraphics.Path

/-- A command with its numbers replaced; kind, mode, number of groups and flags stay. -/
def Command.mapNumbers (f : Single → Single) : Command → Command
  | .draw k m gs => .draw k m (gs.map (k.mapNumbers f))
  | .close => .close

/-- Every drawing command has a group, and all numbers are finite. -/
structure Printable (cs : List Command) : Prop where
  groups_ne_nil : ∀ {k : Kind} {m : Mode} {gs : List k.Group}, .draw k m gs ∈ cs → gs ≠ []
  isFinite : ∀ c ∈ cs, ∀ xs ∈ c.numbers, ∀ x ∈ xs, x.isFinite = true

theorem Printable.tail {c : Command} {cs : List Command} (h : Printable (c :: cs)) :
    Printable cs :=
  ⟨fun hmem => h.groups_ne_nil (List.mem_cons_of_mem c hmem),
    fun d hd => h.isFinite d (List.mem_cons_of_mem c hd)⟩

/-! ## Letters -/

theorem isAlpha_letter (c : Command) : c.letter.isAlpha = true := by
  cases c with
  | close => rfl
  | draw k m gs => cases k <;> cases m <;> rfl

theorem kindOfLetter?_letter (c : Command) : kindOfLetter? c.letter = some c.kind? := by
  cases c with
  | close => rfl
  | draw k m gs => cases k <;> cases m <;> rfl

theorem modeOfLetter_letter (k : Kind) (m : Mode) (gs : List k.Group) :
    modeOfLetter (Command.draw k m gs).letter = m := by
  cases k <;> cases m <;> rfl

/-- A letter ends the parameters before it. -/
theorem endsParameters_letter (c : Command) (cs : List Char) : EndsParameters (c.letter :: cs) := by
  have h : (!c.letter.isDigit && c.letter != '.' && c.letter != 'e' && c.letter != 'E'
      && !isSeparator c.letter && !beginsNumber c.letter) = true := by
    cases c with
    | close => rfl
    | draw k m gs => cases k <;> cases m <;> rfl
  simp only [Bool.and_eq_true, Bool.not_eq_true', bne_iff_ne] at h
  obtain ⟨⟨⟨⟨⟨hdigit, hpoint⟩, he⟩, hE⟩, hseparator⟩, hnumber⟩ := h
  refine ⟨fun d hd => ?_, fun d hd => ?_⟩ <;> obtain rfl := Option.some.inj hd
  · exact ⟨hdigit, hpoint, he, hE⟩
  · exact ⟨hseparator, hnumber⟩

theorem endsParameters_print (places : UInt8) (cs : List Command) :
    EndsParameters (cs.flatMap (Command.chars places)) := by
  cases cs with
  | nil => exact ⟨fun c h => absurd h nofun, fun c h => absurd h nofun⟩
  | cons c cs => exact endsParameters_letter c _

/-! ## Commands -/

/-- A command in front is read first. -/
theorem commands_cons {letter : Char} {kind : Option Kind} {cs params rest : List Char}
    {xs : List Single} {command : Command} {more : List Command}
    (hskip : skipSeparators cs = letter :: params) (halpha : letter.isAlpha = true)
    (hkind : kindOfLetter? letter = some kind)
    (hxs : parameters ((kind.map Kind.slots).getD []) 0 params = .ok (xs, rest))
    (hcommand : ofParameters letter kind xs = .ok command)
    (hmore : commands rest = .ok more) :
    commands cs = .ok (command :: more) := by
  conv_lhs => unfold commands
  split
  · next h => cases hskip.symm.trans h
  · next d ds h =>
    obtain ⟨rfl, rfl⟩ := List.cons.inj (hskip.symm.trans h)
    rw [if_pos halpha]
    split
    · next hnone => cases hkind.symm.trans hnone
    · next kind' hsome =>
      obtain rfl := Option.some.inj (hkind.symm.trans hsome)
      split
      · next herror => cases hxs.symm.trans herror
      · next ys rest' hok =>
        obtain ⟨rfl, rfl⟩ := Prod.mk.inj (Except.ok.inj (hxs.symm.trans hok))
        simp only [hcommand, hmore]

theorem skipSeparators_letter (c : Command) (cs : List Char) :
    skipSeparators (c.letter :: cs) = c.letter :: cs :=
  skipSeparators_of_head fun d hd => ((endsParameters_letter c cs).2 d hd).1

/-- The parameters of a printed command, before a text that ends them. -/
theorem parameters_chars (places : UInt8) {k : Kind} {gs : List k.Group} (hne : gs ≠ [])
    (hfinite : ∀ g ∈ gs, ∀ x ∈ k.numbers g, x.isFinite = true) {rest : List Char}
    (hrest : EndsParameters rest) :
    parameters k.slots 0 ([' '].intercalate (gs.map (k.groupChars places)) ++ rest)
      = .ok (gs.flatMap (k.rereadNumbers places), rest) :=
  parameters_of_printed hrest (printed_groups places hrest.1 (Nat.zero_mod _) hne hfinite)

theorem ofParameters_rereadNumbers (places : UInt8) {k : Kind} (m : Mode) {gs : List k.Group}
    (hne : gs ≠ []) :
    ofParameters (Command.draw k m gs).letter (some k) (gs.flatMap (k.rereadNumbers places))
      = .ok ((Command.draw k m gs).mapNumbers (Single.reread places)) := by
  simp only [ofParameters, groups?_rereadNumbers places k hne, modeOfLetter_letter,
    Command.mapNumbers]

/-- The text of commands is read back command by command. -/
theorem commands_print (places : UInt8) {cs : List Command} (h : Printable cs) :
    commands (cs.flatMap (Command.chars places))
      = .ok (cs.map (Command.mapNumbers (Single.reread places))) := by
  induction cs with
  | nil =>
    rw [List.flatMap_nil, commands]
    rfl
  | cons c cs ih =>
    have hmore := ih h.tail
    have hends := endsParameters_print places cs
    rw [List.flatMap_cons, List.map_cons]
    cases c with
    | close =>
      exact commands_cons (skipSeparators_letter .close _) (isAlpha_letter .close)
        (kindOfLetter?_letter .close) (parameters_end hends [] 0) rfl hmore
    | draw k m gs =>
      have hne := h.groups_ne_nil List.mem_cons_self
      have hfinite : ∀ g ∈ gs, ∀ x ∈ k.numbers g, x.isFinite = true := fun g hg =>
        h.isFinite _ List.mem_cons_self _ (List.mem_map_of_mem hg)
      exact commands_cons (skipSeparators_letter (.draw k m gs) _)
        (isAlpha_letter (.draw k m gs)) (kindOfLetter?_letter (.draw k m gs))
        (parameters_chars places hne hfinite hends) (ofParameters_rereadNumbers places m hne) hmore

theorem isKind_mapNumbers (f : Single → Single) (c : Command) (k : Kind) :
    (c.mapNumbers f).isKind k = c.isKind k := by
  cases c <;> rfl

/-- A printed path is read back as the same path, each number as its own text is read. -/
theorem parse_print (places : UInt8) {cs : List Command} (h : Printable cs)
    (hmove : ∀ c, cs.head? = some c → c.isKind .move = true) :
    parse (print cs places) = .ok (cs.map (Command.mapNumbers (Single.reread places))) := by
  rw [parse, print, String.toList_ofList, commands_print places h]
  cases cs with
  | nil => rfl
  | cons c cs =>
    simp only [List.map_cons, isKind_mapNumbers, hmove c rfl, if_true]

/-- **Printed path data is always read back.** The text of a path of finite numbers that begins
with a move gives the same commands, each number being replaced by what its own text is read as.
That text is a plain literal, which the scanner takes whole before anything that cannot continue
a number. -/
theorem print_reads_back (places : UInt8) {cs : List Command}
    (hmove : ∀ c, cs.head? = some c → c.isKind .move = true)
    (hgroups : ∀ (k : Kind) (m : Mode) (gs : List k.Group), .draw k m gs ∈ cs → gs ≠ [])
    (hfinite : ∀ c ∈ cs, ∀ xs ∈ c.numbers, ∀ x ∈ xs, x.isFinite = true) :
    parse (print cs places) = .ok (cs.map (Command.mapNumbers (Single.reread places)))
      ∧ ∀ x : Single, x.isFinite = true →
        Single.ofString? (x.text places) = some (x.reread places)
          ∧ Decimal.IsPlain (x.chars places)
          ∧ ∀ rest, Stops rest → takeNumber (x.chars places ++ rest) = (x.chars places, rest) := by
  refine ⟨parse_print places ⟨hgroups _ _ _, hfinite⟩ hmove, fun x hx => ?_⟩
  have hplain := Single.isPlain_chars hx places
  refine ⟨?_, hplain, fun rest hrest => takeNumber_plain hplain hrest⟩
  rw [Single.ofString?, Single.text, String.toList_ofList]
  exact ofLiteral?_chars hx places

/-- A closed triangle at three places. -/
theorem triangle_reads_back :
    parse (print
        [.draw .move .absolute [⟨1, 2⟩], .draw .line .relative [⟨3, 0⟩, ⟨0, 0.5⟩], .close] 3)
      = .ok ([.draw .move .absolute [⟨1, 2⟩], .draw .line .relative [⟨3, 0⟩, ⟨0, 0.5⟩],
          .close].map (Command.mapNumbers (Single.reread 3))) := by
  refine (print_reads_back 3 ?_ ?_ ?_).1
  · intro c hc
    obtain rfl := Option.some.inj hc
    rfl
  · intro k m gs hmem
    simp only [List.mem_cons, Command.draw.injEq, List.not_mem_nil, or_false, reduceCtorEq] at hmem
    obtain ⟨rfl, -, h⟩ | ⟨rfl, -, h⟩ := hmem <;> rw [eq_of_heq h] <;> exact List.cons_ne_nil _ _
  · intro c hc xs hxs x hx
    simp only [List.mem_cons, List.not_mem_nil, or_false] at hc
    obtain rfl | rfl | rfl := hc <;>
      simp only [Command.numbers, Kind.numbers, List.map_cons, List.map_nil, List.mem_cons,
        List.not_mem_nil, or_false] at hxs
    · subst hxs
      simp only [List.mem_cons, List.not_mem_nil, or_false] at hx
      obtain rfl | rfl := hx <;> rfl
    · obtain rfl | rfl := hxs <;> simp only [List.mem_cons, List.not_mem_nil, or_false] at hx <;>
        obtain rfl | rfl := hx <;> rfl

end VectorGraphics.Path
