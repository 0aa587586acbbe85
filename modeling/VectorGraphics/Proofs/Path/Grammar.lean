import VectorGraphics.Proofs.Path.Numerals
import VectorGraphics.Proofs.Path.Openings
import VectorGraphics.Proofs.Path.RoundTrip

/-!
# The grammar of path data

A path is spelled by a sequence of tokens: each command by its letter and the parameters of its
groups in order, where the two flags of an arc are single digits (`Spelled`). A text writes a
sequence of tokens one after the other, with any separators before, between and after them
(`Written`); a number is written by a literal that is as long as it can be.

Reading path data inverts the two relations, and no other text can be read (`parse_eq_ok_iff`).
-/

namespace VectorGraphics.Path

/-! ## Tokens -/

/-- What path data is made of. -/
inductive Token
  /-- The letter of a command. -/
  | letter (c : Char)
  /-- A number. -/
  | number (x : Single)
  /-- A flag. -/
  | flag (b : Bool)

/-- How a token is written before the rest of a text. -/
inductive Token.Writes : Token → List Char → List Char → Prop
  /-- A letter stands for itself. -/
  | letter {c : Char} {rest : List Char} (hc : c.isAlpha = true) : Writes (.letter c) [c] rest
  /-- A number is written by a literal which the rest does not continue. -/
  | number {x : Single} {literal rest : List Char} (hlongest : IsLongest literal rest)
      (hx : Single.ofLiteral? literal = some x) : Writes (.number x) literal rest
  /-- A flag is one digit. -/
  | flag {b : Bool} {rest : List Char} : Writes (.flag b) [if b then '1' else '0'] rest

/-- A text that consists of the given tokens and separators before, between and after them. -/
inductive Written : List Token → List Char → Prop
  /-- The end of the text. -/
  | stop : Written [] []
  /-- A separator. -/
  | separator {ts : List Token} {c : Char} {cs : List Char} (hc : isSeparator c = true)
      (h : Written ts cs) : Written ts (c :: cs)
  /-- A token. -/
  | token {t : Token} {ts : List Token} {cs rest : List Char} (ht : t.Writes cs rest)
      (h : Written ts rest) : Written (t :: ts) (cs ++ rest)

/-- The parameters of a group; those of an arc after the third are two flags. -/
def Kind.tokens : (k : Kind) → k.Group → List Token
  | .arc, g => [.number g.radiusX, .number g.radiusY, .number g.angle, .flag g.large,
      .flag g.clockwise, .number g.stop.x, .number g.stop.y]
  | k, g => (k.numbers g).map .number

/-- The tokens that spell a command: its letter and the parameters of one or more groups. A close
has a letter of either case. -/
inductive Command.Spelled : Command → List Token → Prop
  /-- A drawing command. -/
  | draw {k : Kind} {m : Mode} {gs : List k.Group} (hgs : gs ≠ []) :
      Spelled (.draw k m gs) (.letter (Command.draw k m gs).letter :: gs.flatMap k.tokens)
  /-- A close. -/
  | close {c : Char} (hc : c = 'Z' ∨ c = 'z') : Spelled .close [.letter c]

/-- The tokens that spell a path: those of its commands, one after the other. -/
inductive Spelled : List Command → List Token → Prop
  /-- No command. -/
  | nil : Spelled [] []
  /-- A command and those after it. -/
  | cons {c : Command} {cs : List Command} {ts more : List Token} (hc : c.Spelled ts)
      (h : Spelled cs more) : Spelled (c :: cs) (ts ++ more)

/-! ## Letters -/

theorem isSeparator_of_isAlpha {c : Char} (hc : c.isAlpha = true) : isSeparator c = false :=
  isSeparator_of_forall (by simp) hc

theorem beginsNumber_of_isAlpha {c : Char} (hc : c.isAlpha = true) : beginsNumber c = false := by
  rw [Bool.eq_false_iff]
  intro hs
  simp only [beginsNumber, Bool.or_eq_true, decide_eq_true_eq] at hs
  obtain ((hdigit | rfl) | rfl) | rfl := hs
  · simp only [Char.isAlpha, Char.isUpper, Char.isLower, Char.isDigit, Bool.or_eq_true,
      Bool.and_eq_true, decide_eq_true_eq, UInt32.le_iff_toNat_le] at hc hdigit
    obtain hc | hc := hc
    · exact absurd (hc.1.trans hdigit.2) (by decide)
    · exact absurd (hc.1.trans hdigit.2) (by decide)
  all_goals exact absurd hc (by decide)

/-- A character is what it is in lower case, or the letter of the other case. -/
theorem eq_or_eq_of_toLower {c d : Char} (h : c.toLower = d) :
    c = d ∨ c = Char.ofNat (d.toNat - 32) := by
  rw [Char.toLower] at h
  split at h
  · next hupper =>
    have hle : c.toNat ≤ 90 := hupper.2
    have hd : d.toNat = c.toNat + 32 := by
      rw [← h]
      exact (UInt32.toNat_add c.val 32).trans
        (Nat.mod_eq_of_lt (by change c.toNat + 32 < _; omega))
    exact .inr (by rw [hd, Nat.add_sub_cancel, Char.ofNat_toNat])
  · exact .inl h

/-- The letters that stand for a close. -/
theorem letter_of_close {c : Char} (h : kindOfLetter? c = some none) : c = 'Z' ∨ c = 'z' := by
  unfold kindOfLetter? at h
  split at h <;> simp only [Option.some.injEq, reduceCtorEq] at h
  next hlower => exact (eq_or_eq_of_toLower hlower).symm

/-- The letter of a kind has the case of its mode. -/
theorem letter_of_kind {c : Char} {k : Kind} (h : kindOfLetter? c = some (some k))
    (gs : List k.Group) : c = (Command.draw k (modeOfLetter c) gs).letter := by
  unfold kindOfLetter? at h
  split at h <;> simp only [Option.some.injEq, reduceCtorEq] at h <;> subst h <;>
  next hlower => obtain rfl | rfl := eq_or_eq_of_toLower hlower <;> rfl

/-! ## Where tokens begin -/

theorem isSeparator_head_skip {cs rest : List Char} {c : Char}
    (h : skipSeparators cs = c :: rest) : isSeparator c = false := by
  have := List.head?_dropWhile_not isSeparator cs
  rwa [← skipSeparators, h] at this

/-- No token begins with a separator. -/
theorem Token.Writes.skipSeparators {t : Token} {cs rest : List Char} (h : t.Writes cs rest) :
    skipSeparators (cs ++ rest) = cs ++ rest := by
  have hhead : ∃ c more, cs = c :: more ∧ isSeparator c = false := by
    cases h with
    | @letter c rest hc => exact ⟨c, [], rfl, isSeparator_of_isAlpha hc⟩
    | number hlongest hx =>
      obtain ⟨c, more, rfl, hc⟩ := hlongest.isNumeral.beginsNumber hx
      exact ⟨c, more, rfl, isSeparator_of_beginsNumber hc⟩
    | @flag b rest => exact ⟨_, [], rfl, by cases b <;> rfl⟩
  obtain ⟨c, more, rfl, hc⟩ := hhead
  refine skipSeparators_of_head fun d hd => ?_
  rwa [← Option.some.inj hd]

/-- Separators in front make no difference. -/
theorem written_skipSeparators {ts : List Token} {cs : List Char} :
    Written ts (skipSeparators cs) ↔ Written ts cs := by
  constructor
  · intro h
    induction cs with
    | nil => exact h
    | cons c cs ih =>
      cases hc : isSeparator c with
      | true => exact .separator hc (ih (by rwa [skipSeparators_cons hc] at h))
      | false => rwa [skipSeparators_of_head fun d hd => by rwa [← Option.some.inj hd]] at h
  · intro h
    induction h with
    | stop => exact .stop
    | separator hc _ ih => rwa [skipSeparators_cons hc]
    | token ht h =>
      rw [ht.skipSeparators]
      exact .token ht h

theorem written_nil_iff {cs : List Char} : Written [] cs ↔ skipSeparators cs = [] := by
  rw [← written_skipSeparators]
  refine ⟨fun h => ?_, fun h => h ▸ .stop⟩
  generalize hds : skipSeparators cs = ds at h
  cases h with
  | stop => rfl
  | separator hc => exact absurd (hc.symm.trans (isSeparator_head_skip hds)) nofun

/-- The first token stands behind the separators in front. -/
theorem written_cons_iff {t : Token} {ts : List Token} {cs : List Char} :
    Written (t :: ts) cs
      ↔ ∃ front rest, skipSeparators cs = front ++ rest ∧ t.Writes front rest
          ∧ Written ts rest := by
  rw [← written_skipSeparators]
  constructor
  · intro h
    generalize hds : skipSeparators cs = ds at h
    cases h with
    | separator hc => exact absurd (hc.symm.trans (isSeparator_head_skip hds)) nofun
    | token ht h => exact ⟨_, _, rfl, ht, h⟩
  · rintro ⟨front, rest, hskip, ht, h⟩
    exact hskip ▸ .token ht h

/-! ## Parameters -/

/-- What the parameter of a slot is written as. -/
def Kind.Slot.token : Kind.Slot → Single → Token
  | .number, x => .number x
  | .flag, x => .flag (x == 1)

/-- Whether a number can be the parameter of a slot. -/
def Kind.Slot.Fits (slot : Kind.Slot) (x : Single) : Prop :=
  slot = .flag → ∃ b, x = Kind.ofFlag b

/-- Only flags have to be flags. -/
theorem fits_number (x : Single) : Kind.Slot.Fits .number x := by rintro ⟨⟩

/-- A number is read off the front of a text if and only if it is written there. -/
theorem takeParameter_number_eq_ok_iff {cs rest : List Char} {x : Single} :
    takeParameter .number cs = .ok (x, rest)
      ↔ ∃ front, cs = front ++ rest ∧ (Kind.Slot.number.token x).Writes front rest := by
  constructor
  · intro h
    simp only [takeParameter] at h
    split at h
    · next hx =>
      simp only [Except.ok.injEq, Prod.mk.injEq] at h
      obtain ⟨rfl, rfl⟩ := h
      obtain ⟨happend, hlongest⟩ := takeNumber_eq_iff.1 (Prod.ext rfl rfl)
      exact ⟨_, happend, .number hlongest hx⟩
    · cases h
  · rintro ⟨front, rfl, h⟩
    cases h with
    | number hlongest hx => simp only [takeParameter, takeNumber_eq_iff.2 ⟨rfl, hlongest⟩, hx]

/-- A flag is written as one digit. -/
theorem writes_flag (b : Bool) (rest : List Char) :
    (Kind.Slot.flag.token (Kind.ofFlag b)).Writes [if b then '1' else '0'] rest := by
  rw [Kind.Slot.token, ofFlag_beq_one]
  exact .flag

/-- A flag is read off the front of a text if and only if it is written there. -/
theorem takeParameter_flag_eq_ok_iff {cs rest : List Char} {x : Single} :
    takeParameter .flag cs = .ok (x, rest)
      ↔ Kind.Slot.flag.Fits x
        ∧ ∃ front, cs = front ++ rest ∧ (Kind.Slot.flag.token x).Writes front rest := by
  constructor
  · intro h
    cases cs with
    | nil => cases h
    | cons c cs =>
      simp only [takeParameter] at h
      split at h
      · next hc =>
        simp only [Except.ok.injEq, Prod.mk.injEq] at h
        obtain ⟨rfl, rfl⟩ := h
        exact ⟨fun _ => ⟨false, rfl⟩, ['0'], congrArg (· :: cs) hc, writes_flag false cs⟩
      · split at h
        · next hc =>
          simp only [Except.ok.injEq, Prod.mk.injEq] at h
          obtain ⟨rfl, rfl⟩ := h
          exact ⟨fun _ => ⟨true, rfl⟩, ['1'], congrArg (· :: cs) hc, writes_flag true cs⟩
        · cases h
  · rintro ⟨hfits, front, rfl, h⟩
    obtain ⟨b, rfl⟩ := hfits rfl
    rw [Kind.Slot.token, ofFlag_beq_one] at h
    cases h with
    | flag => cases b <;> rfl

/-- A parameter is read off the front of a text if and only if it is written there. -/
theorem takeParameter_eq_ok_iff {slot : Kind.Slot} {cs rest : List Char} {x : Single} :
    takeParameter slot cs = .ok (x, rest)
      ↔ slot.Fits x ∧ ∃ front, cs = front ++ rest ∧ (slot.token x).Writes front rest := by
  cases slot with
  | number => exact takeParameter_number_eq_ok_iff.trans (and_iff_right (fits_number x)).symm
  | flag => exact takeParameter_flag_eq_ok_iff

/-- A parameter begins as parameters do. -/
theorem Token.Writes.beginsNumber {slot : Kind.Slot} {x : Single} {front rest : List Char}
    (h : (slot.token x).Writes front rest) :
    ∃ c cs, front = c :: cs ∧ beginsNumber c = true := by
  cases slot with
  | number =>
    cases h with
    | number hlongest hx => exact hlongest.isNumeral.beginsNumber hx
  | flag =>
    rw [Kind.Slot.token] at h
    generalize (x == 1) = b at h
    cases h with
    | flag => exact ⟨_, [], rfl, by cases b <;> rfl⟩

/-! ## The parameters after a letter -/

/-- Parameters with the slots that they are read for, the `n`th slot first. -/
def slotted (slots : List Kind.Slot) : ℕ → List Single → List (Kind.Slot × Single)
  | _, [] => []
  | n, x :: xs => (slots[n % slots.length]?.getD .number, x) :: slotted slots (n + 1) xs

/-- The tokens of parameters. -/
def slotTokens (ps : List (Kind.Slot × Single)) : List Token := ps.map fun p => p.1.token p.2

/-- Tokens that are not continued by parameters: none, or those of a command. -/
def EndsGroups (ts : List Token) : Prop := ∀ t, ts.head? = some t → ∃ c, t = .letter c

theorem parameters_skipSeparators (slots : List Kind.Slot) (n : ℕ) (cs : List Char) :
    parameters slots n (skipSeparators cs) = parameters slots n cs := by
  induction cs with
  | nil => rfl
  | cons c cs ih =>
    cases hc : isSeparator c with
    | true => rw [skipSeparators_cons hc, ih, parameters_separator hc]
    | false => rw [skipSeparators_of_head fun d hd => by rwa [← Option.some.inj hd]]

/-- Parameters that are read are written in front of the rest. -/
theorem written_of_parameters {slots : List Kind.Slot} {n : ℕ} {cs rest : List Char}
    {xs : List Single} (h : parameters slots n cs = .ok (xs, rest)) {ts : List Token}
    (hts : Written ts rest) : Written (slotTokens (slotted slots n xs) ++ ts) cs := by
  fun_induction parameters slots n cs generalizing xs rest with
  | case1 n cs hs =>
    obtain ⟨rfl, rfl⟩ := Prod.mk.inj (Except.ok.inj h)
    exact written_skipSeparators.1 (hs ▸ hts)
  | case2 | case3 => cases h
  | case4 n cs c r hs hc x r' hx hlt xs' r'' hok ih =>
    obtain ⟨rfl, rfl⟩ := Prod.mk.inj (Except.ok.inj h)
    obtain ⟨-, front, hfront, hwrites⟩ := takeParameter_eq_ok_iff.1 hx
    exact written_cons_iff.2 ⟨front, r', hs.trans hfront, hwrites, ih hok hts⟩
  | case5 n cs c r hs hc =>
    obtain ⟨rfl, rfl⟩ := Prod.mk.inj (Except.ok.inj h)
    exact written_skipSeparators.1 (hs ▸ hts)

/-- Written parameters are read up to the next command. -/
theorem parameters_of_written {slots : List Kind.Slot} {n : ℕ} {cs : List Char}
    {xs : List Single} {ts : List Token} (hts : EndsGroups ts)
    (hfits : ∀ p ∈ slotted slots n xs, p.1.Fits p.2)
    (h : Written (slotTokens (slotted slots n xs) ++ ts) cs) :
    ∃ rest, parameters slots n cs = .ok (xs, rest) ∧ Written ts rest := by
  induction xs generalizing n cs with
  | nil =>
    refine ⟨skipSeparators cs, ?_, written_skipSeparators.2 h⟩
    cases ts with
    | nil => rw [parameters_eq, written_nil_iff.1 h]
    | cons t ts =>
      obtain ⟨c, rfl⟩ := hts t rfl
      obtain ⟨front, rest, hskip, hwrites, -⟩ := written_cons_iff.1 h
      cases hwrites with
      | letter hc => simp [parameters_eq, hskip, beginsNumber_of_isAlpha hc]
  | cons x xs ih =>
    obtain ⟨front, rest, hskip, hwrites, hmore⟩ := written_cons_iff.1 h
    obtain ⟨hx, hxs⟩ := List.forall_mem_cons.1 hfits
    obtain ⟨rest', hrest', hwritten⟩ := ih hxs hmore
    have htake := takeParameter_eq_ok_iff.2 ⟨hx, front, rfl, hwrites⟩
    obtain ⟨c, front, rfl, hc⟩ := hwrites.beginsNumber
    refine ⟨rest', ?_, hwritten⟩
    rw [← parameters_skipSeparators, hskip]
    exact parameters_parameter hc htake hrest'

/-! ## Groups -/

/-- The parameters of a group fill its slots. -/
theorem slotted_append {slots : List Kind.Slot} {n : ℕ} (hn : n % slots.length = 0)
    {before after : List Kind.Slot} (hslots : slots = before ++ after) {xs : List Single}
    (hlength : xs.length = after.length) (ys : List Single) :
    slotted slots (n + before.length) (xs ++ ys)
      = after.zip xs ++ slotted slots (n + slots.length) ys := by
  induction after generalizing before xs with
  | nil =>
    obtain rfl := List.eq_nil_of_length_eq_zero hlength
    rw [hslots, List.append_nil]
    rfl
  | cons slot after ih =>
    cases xs with
    | nil => cases hlength
    | cons x xs =>
      have hlt : before.length < slots.length := by
        rw [hslots, List.length_append, List.length_cons]
        omega
      have hslot : slots[(n + before.length) % slots.length]? = some slot := by
        rw [Nat.add_mod, hn, Nat.zero_add, Nat.mod_mod, Nat.mod_eq_of_lt hlt, hslots,
          List.getElem?_append_right le_rfl, Nat.sub_self, List.getElem?_cons_zero]
      have happend : slots = (before ++ [slot]) ++ after := by
        rw [hslots, List.append_assoc]
        rfl
      have hmore := ih happend (Nat.succ.inj hlength)
      rw [List.length_append, List.length_singleton, ← Nat.add_assoc] at hmore
      rw [List.cons_append, slotted, hslot, hmore]
      rfl

theorem slotted_flatten {slots : List Kind.Slot} {n : ℕ} (hn : n % slots.length = 0)
    {pieces : List (List Single)} (hlength : ∀ xs ∈ pieces, xs.length = slots.length) :
    slotted slots n pieces.flatten = pieces.flatMap slots.zip := by
  induction pieces generalizing n with
  | nil => rfl
  | cons xs pieces ih =>
    obtain ⟨hxs, hpieces⟩ := List.forall_mem_cons.1 hlength
    have happend := slotted_append hn (List.nil_append slots).symm hxs pieces.flatten
    rw [ih (by rw [Nat.add_mod_right, hn]) hpieces] at happend
    exact happend

theorem tokens_eq (k : Kind) (g : k.Group) :
    k.tokens g = slotTokens (k.slots.zip (k.numbers g)) := by
  cases k with
  | arc =>
    simp only [Kind.tokens, Kind.slots, Kind.numbers, slotTokens, List.zip_cons_cons,
      List.zip_nil_left, List.map_cons, List.map_nil, Kind.Slot.token, ofFlag_beq_one]
  | _ => rfl

theorem fits_numbers (k : Kind) (g : k.Group) :
    ∀ p ∈ k.slots.zip (k.numbers g), p.1.Fits p.2 := by
  cases k with
  | arc =>
    simp only [Kind.slots, Kind.numbers, List.zip_cons_cons, List.zip_nil_left,
      List.forall_mem_cons]
    exact ⟨fits_number _, fits_number _, fits_number _, fun _ => ⟨_, rfl⟩, fun _ => ⟨_, rfl⟩,
      fits_number _, fits_number _, List.forall_mem_nil _⟩
  | _ =>
    -- No other kind has a flag.
    intro p hp hflag
    exact absurd (hflag ▸ (List.of_mem_zip hp).1) (by decide)

theorem ofNumbers?_numbers (k : Kind) (g : k.Group) : k.ofNumbers? (k.numbers g) = some g := by
  cases k with
  | arc => simp only [Kind.numbers, Kind.ofNumbers?, ofFlag_beq_one]
  | _ => rfl

/-- The tokens of a group tell its numbers, up to the numbers that stand for a flag. -/
theorem slotTokens_of_ofNumbers? {k : Kind} {xs : List Single} {g : k.Group}
    (h : k.ofNumbers? xs = some g) :
    xs.length = k.arity ∧ slotTokens (k.slots.zip xs) = k.tokens g := by
  unfold Kind.ofNumbers? at h
  split at h
  all_goals cases h
  all_goals exact ⟨rfl, rfl⟩

theorem flatten_chunks {α : Type} {n : ℕ} (hn : n ≠ 0) (l : List α) :
    (chunks n l).flatten = l := by
  fun_induction chunks n l with
  | case1 l h => exact (h.resolve_left hn).symm
  | case2 l h ih => rw [List.flatten_cons, ih, List.take_append_drop]

theorem slotTokens_of_mapM {k : Kind} {pieces : List (List Single)} {gs : List k.Group}
    (h : pieces.mapM k.ofNumbers? = some gs) :
    (∀ xs ∈ pieces, xs.length = k.arity)
      ∧ slotTokens (pieces.flatMap k.slots.zip) = gs.flatMap k.tokens := by
  induction pieces generalizing gs with
  | nil =>
    obtain rfl := Option.some.inj h
    exact ⟨nofun, rfl⟩
  | cons xs pieces ih =>
    rw [List.mapM_cons, Option.bind_eq_bind, Option.bind_eq_some_iff] at h
    obtain ⟨g, hg, h⟩ := h
    obtain ⟨more, hmore, h⟩ := Option.bind_eq_some_iff.1 h
    obtain rfl := Option.some.inj h
    obtain ⟨hlength, htokens⟩ := slotTokens_of_ofNumbers? hg
    obtain ⟨hlengths, hall⟩ := ih hmore
    refine ⟨List.forall_mem_cons.2 ⟨hlength, hlengths⟩, ?_⟩
    rw [slotTokens] at htokens hall ⊢
    rw [List.flatMap_cons, List.flatMap_cons, List.map_append, htokens, hall]

/-- The groups of a command are spelled by the parameters that they are read from. -/
theorem slotTokens_of_groups? {k : Kind} {xs : List Single} {gs : List k.Group}
    (h : k.groups? xs = some gs) : slotTokens (slotted k.slots 0 xs) = gs.flatMap k.tokens := by
  rw [Kind.groups?] at h
  split at h
  · cases h
  · obtain ⟨hlengths, htokens⟩ := slotTokens_of_mapM h
    rw [← htokens, ← slotted_flatten (Nat.zero_mod _) hlengths, flatten_chunks (arity_pos k).ne']

/-! ## Commands -/

/-- The command that is read from a letter and parameters is spelled by them. -/
theorem spelled_of_ofParameters {c : Char} {kind : Option Kind} {xs : List Single}
    {command : Command} (hkind : kindOfLetter? c = some kind)
    (h : ofParameters c kind xs = .ok command) :
    command.Spelled
      (.letter c :: slotTokens (slotted ((kind.map Kind.slots).getD []) 0 xs)) := by
  unfold ofParameters at h
  split at h
  · split at h
    · next hxs =>
      obtain rfl := Except.ok.inj h
      rw [hxs]
      exact .close (letter_of_close hkind)
    · cases h
  · next k =>
    split at h
    · next gs hgs =>
      obtain rfl := Except.ok.inj h
      rw [Option.map_some, Option.getD_some, slotTokens_of_groups? hgs]
      have hdraw : (Command.draw k (modeOfLetter c) gs).Spelled _ := .draw (groups?_ne_nil hgs)
      rwa [← letter_of_kind hkind gs] at hdraw
    · cases h

theorem spelled_of_commands {cs : List Char} {path : List Command} (h : commands cs = .ok path) :
    ∃ ts, Spelled path ts ∧ Written ts cs := by
  fun_induction commands cs generalizing path with
  | case1 cs hs =>
    obtain rfl := Except.ok.inj h
    exact ⟨[], .nil, written_nil_iff.2 hs⟩
  | case2 | case3 | case4 | case5 | case7 => cases h
  | case6 cs c rest hs halpha kind hkind xs rest' hxs hlt command hcommand more hmore ih =>
    obtain rfl := Except.ok.inj h
    obtain ⟨ts, hts, hwritten⟩ := ih hmore
    refine ⟨_, .cons (spelled_of_ofParameters hkind hcommand) hts, ?_⟩
    exact written_cons_iff.2 ⟨[c], rest, hs, .letter halpha, written_of_parameters hxs hwritten⟩

theorem Spelled.endsGroups {cs : List Command} {ts : List Token} (h : Spelled cs ts) :
    EndsGroups ts := by
  intro t ht
  cases h with
  | nil => cases ht
  | cons hc =>
    cases hc with
    | draw => exact ⟨_, (Option.some.inj ht).symm⟩
    | close => exact ⟨_, (Option.some.inj ht).symm⟩

/-- What is read from the letter and the parameters that spell a command. -/
theorem exists_parameters_of_spelled {c : Command} {ts : List Token} (h : c.Spelled ts) :
    ∃ letter kind xs,
      ts = .letter letter :: slotTokens (slotted ((kind.map Kind.slots).getD []) 0 xs)
      ∧ kindOfLetter? letter = some kind ∧ ofParameters letter kind xs = .ok c
      ∧ ∀ p ∈ slotted ((kind.map Kind.slots).getD []) 0 xs, p.1.Fits p.2 := by
  cases h with
  | @draw k m gs hgs =>
    have hgroups : k.groups? (gs.flatMap k.numbers) = some gs := by
      rw [groups?_flatMap (length_numbers k) (ofNumbers?_numbers k) hgs, List.map_id']
    have hslotted : slotted k.slots 0 (gs.flatMap k.numbers)
        = gs.flatMap fun g => k.slots.zip (k.numbers g) := by
      rw [List.flatMap_def, slotted_flatten (Nat.zero_mod _), List.flatMap_map]
      intro xs hxs
      obtain ⟨g, -, rfl⟩ := List.mem_map.1 hxs
      exact length_numbers k g
    refine ⟨_, some k, gs.flatMap k.numbers, ?_, kindOfLetter?_letter (.draw k m gs), ?_, ?_⟩
    · rw [Option.map_some, Option.getD_some, hslotted, slotTokens, List.map_flatMap]
      exact congrArg _ (List.flatMap_congr fun g _ => tokens_eq k g)
    · simp only [ofParameters, hgroups, modeOfLetter_letter]
    · rw [Option.map_some, Option.getD_some, hslotted]
      intro p hp
      obtain ⟨g, -, hmem⟩ := List.mem_flatMap.1 hp
      exact fits_numbers k g p hmem
  | close hc =>
    refine ⟨_, none, [], rfl, ?_, rfl, List.forall_mem_nil _⟩
    obtain rfl | rfl := hc <;> rfl

/-- A text that writes the tokens of a path is read as the path. -/
theorem commands_of_spelled {path : List Command} {ts : List Token} (hts : Spelled path ts)
    {cs : List Char} (h : Written ts cs) : commands cs = .ok path := by
  induction hts generalizing cs with
  | nil =>
    unfold commands
    split
    · rfl
    · next hs => cases (written_nil_iff.1 h).symm.trans hs
  | cons hc hmore ih =>
    obtain ⟨letter, kind, xs, rfl, hkind, hparameters, hfits⟩ := exists_parameters_of_spelled hc
    obtain ⟨front, params, hskip, hletter, hwritten⟩ := written_cons_iff.1 h
    obtain ⟨rest, hxs, hrest⟩ := parameters_of_written hmore.endsGroups hfits hwritten
    cases hletter with
    | letter halpha => exact commands_cons hskip halpha hkind hxs hparameters (ih hrest)

namespace Written

variable {ts : List Token} {cs rest : List Char}

/-- A number in front, as the scanner takes it. -/
theorem number {x : Single} {literal : List Char} (htake : takeNumber cs = (literal, rest))
    (hx : Single.ofLiteral? literal = some x) (h : Written ts rest) :
    Written (.number x :: ts) cs := by
  obtain ⟨rfl, hlongest⟩ := takeNumber_eq_iff.1 htake
  exact .token (.number hlongest hx) h

theorem letter {c : Char} (hc : c.isAlpha = true) (h : Written ts cs) :
    Written (.letter c :: ts) (c :: cs) :=
  .token (.letter hc) h

theorem zero (h : Written ts cs) : Written (.flag false :: ts) ('0' :: cs) := .token .flag h

theorem one (h : Written ts cs) : Written (.flag true :: ts) ('1' :: cs) := .token .flag h

end Written

/-- **Path data is read exactly as it is written.** A text is read as a path if and only if it
writes tokens that spell the path and the path, if not empty, begins with a move. Between which
tokens separators stand, and which, makes no difference. -/
theorem parse_eq_ok_iff (s : String) (cs : List Command) :
    (parse s = .ok cs ↔ (∃ ts, Spelled cs ts ∧ Written ts s.toList)
        ∧ ∀ c, cs.head? = some c → c.isKind .move = true)
      ∧ ∀ ts t, Spelled cs ts → Written ts s.toList → Written ts t.toList →
          parse t = parse s := by
  refine ⟨⟨fun h => ⟨?_, (isPath_of_parse h).move⟩, ?_⟩, fun ts t hts hs ht => ?_⟩
  · have hcommands : commands s.toList = .ok cs := by
      rw [parse] at h
      split at h
      · cases h
      · next hnil => rw [hnil, ← Except.ok.inj h]
      · next hcons =>
        split at h
        · rw [hcons, ← Except.ok.inj h]
        · cases h
    exact spelled_of_commands hcommands
  · rintro ⟨⟨ts, hts, hs⟩, hmove⟩
    rw [parse, commands_of_spelled hts hs]
    cases cs with
    | nil => rfl
    | cons c cs => exact if_pos (hmove c rfl)
  · rw [parse, parse, commands_of_spelled hts hs, commands_of_spelled hts ht]

/-- An arc whose flags and end stand together, and the same arc with separators everywhere. -/
theorem glued_arc_is_read :
    parse "M0 0a1 1 0 0110,5z" = .ok [.draw .move .absolute [⟨0, 0⟩],
        .draw .arc .relative [⟨1, 1, 0, false, true, ⟨10, 5⟩⟩], .close]
      ∧ parse "M 0,0 a 1 1,0 0 1,10 5 z" = parse "M0 0a1 1 0 0110,5z" := by
  have hspelled : Spelled [.draw .move .absolute [⟨0, 0⟩],
      .draw .arc .relative [⟨1, 1, 0, false, true, ⟨10, 5⟩⟩], .close]
      [.letter 'M', .number 0, .number 0, .letter 'a', .number 1, .number 1, .number 0,
        .flag false, .flag true, .number 10, .number 5, .letter 'z'] :=
    .cons (.draw (List.cons_ne_nil _ _)) (.cons (.draw (List.cons_ne_nil _ _))
      (.cons (.close (.inr rfl)) .nil))
  have hglued : Written [.letter 'M', .number 0, .number 0, .letter 'a', .number 1, .number 1,
      .number 0, .flag false, .flag true, .number 10, .number 5, .letter 'z']
      "M0 0a1 1 0 0110,5z".toList := by
    refine .letter rfl (.number rfl rfl (.separator rfl (.number rfl rfl (.letter rfl ?_))))
    refine .number rfl rfl (.separator rfl (.number rfl rfl (.separator rfl ?_)))
    refine .number rfl rfl (.separator rfl (.zero (.one (.number rfl rfl (.separator rfl ?_)))))
    exact .number rfl rfl (.letter rfl .stop)
  have hapart : Written [.letter 'M', .number 0, .number 0, .letter 'a', .number 1, .number 1,
      .number 0, .flag false, .flag true, .number 10, .number 5, .letter 'z']
      "M 0,0 a 1 1,0 0 1,10 5 z".toList := by
    refine .letter rfl (.separator rfl (.number rfl rfl (.separator rfl (.number rfl rfl ?_))))
    refine .separator rfl (.letter rfl (.separator rfl (.number rfl rfl (.separator rfl ?_))))
    refine .number rfl rfl (.separator rfl (.number rfl rfl (.separator rfl (.zero ?_))))
    refine .separator rfl (.one (.separator rfl (.number rfl rfl (.separator rfl ?_))))
    exact .number rfl rfl (.separator rfl (.letter rfl .stop))
  obtain ⟨hiff, hsame⟩ := parse_eq_ok_iff "M0 0a1 1 0 0110,5z" [.draw .move .absolute [⟨0, 0⟩],
    .draw .arc .relative [⟨1, 1, 0, false, true, ⟨10, 5⟩⟩], .close]
  refine ⟨hiff.2 ⟨⟨_, hspelled, hglued⟩, fun c hc => ?_⟩, hsame _ _ hspelled hglued hapart⟩
  rw [← Option.some.inj hc]
  rfl

end VectorGraphics.Path
