import VectorGraphics.Path.Printer
import VectorGraphics.Text.Quoted

/-!
# Reading path data

Path data is a sequence of command letters, each followed by its parameters. Blanks and commas may
stand anywhere between these and are never needed where a parameter ends by itself: a number is
as long as it can be, and a flag is one digit.

* `takeNumber` takes the longest number off the front of a text.
* `parameters` reads the parameters after a letter, `commands` the whole of a text.
* `parse` also asks that a path begin with a move.
-/

namespace VectorGraphics.Path

/-- Why a text is no path data. -/
inductive DataError
  /-- A letter that is no command. -/
  | unknownCommand (letter : Char)
  /-- A run of characters that looks like a number and is none. -/
  | invalidNumber (text : String)
  /-- A number of parameters that does not make whole groups. -/
  | wrongCount (letter : Char) (arity count : Nat)
  /-- Something other than 0 or 1 where a flag is due. -/
  | invalidFlag (text : String)
  /-- Something other than a letter where a command is due. -/
  | missingCommand (text : String)
  /-- A first command that is no move. -/
  | missingMove (letter : Char)
  deriving DecidableEq, Repr

/-- The error in words. -/
def DataError.message : DataError → String
  | .unknownCommand letter => s!"Unknown command: {letter}"
  | .invalidNumber text => s!"Invalid number: {Text.quoted text}"
  | .wrongCount letter arity count =>
    s!"Command {letter} takes {arity} numbers per group, got {count}"
  | .invalidFlag text => s!"Expected flag (0 or 1), got: {Text.quoted text}"
  | .missingCommand text => s!"Expected command letter before {Text.quoted text}"
  | .missingMove letter => s!"Path must start with a move-to, found {letter}"

/-! ## Tokens -/

/-- The characters that may stand between two tokens. -/
def isSeparator (c : Char) : Bool := Text.isAsciiBlank c || c = ','

/-- A text without the separators in front. -/
def skipSeparators (cs : List Char) : List Char := cs.dropWhile isSeparator

/-- Whether a character can begin a parameter. -/
def beginsNumber (c : Char) : Bool := c.isDigit || c = '.' || c = '-' || c = '+'

/-- An optional sign and the rest. -/
def takeSign : List Char → List Char × List Char
  | '-' :: cs => (['-'], cs)
  | '+' :: cs => (['+'], cs)
  | cs => ([], cs)

/-- A point with the digits after it, if a point comes next, and the rest. -/
def takePointed : List Char → List Char × List Char
  | '.' :: cs => ('.' :: (Decimal.takeDigits cs).1, (Decimal.takeDigits cs).2)
  | cs => ([], cs)

/-- The letter of a power of ten with an optional sign and the digits after it, if such a letter
comes next, and the rest. -/
def takePower : List Char → List Char × List Char
  | [] => ([], [])
  | c :: cs =>
    if c = 'e' ∨ c = 'E' then
      (c :: (takeSign cs).1 ++ (Decimal.takeDigits (takeSign cs).2).1,
        (Decimal.takeDigits (takeSign cs).2).2)
    else ([], c :: cs)

/-- The longest number in front and the rest. What is taken need not be a valid number. -/
def takeNumber (cs : List Char) : List Char × List Char :=
  let (sign, cs) := takeSign cs
  let (whole, cs) := Decimal.takeDigits cs
  let (fraction, cs) := takePointed cs
  let (power, cs) := takePower cs
  (sign ++ whole ++ fraction ++ power, cs)

/-- Reads the parameter of a slot off the front of a text. -/
def takeParameter : Kind.Slot → List Char → Except DataError (Single × List Char)
  | .number, cs =>
    let (literal, rest) := takeNumber cs
    match Single.ofLiteral? literal with
    | some x => .ok (x, rest)
    | none => .error (.invalidNumber (.ofList literal))
  | .flag, [] => .error (.invalidFlag "")
  | .flag, c :: cs =>
    if c = '0' then .ok (0, cs)
    else if c = '1' then .ok (1, cs)
    else .error (.invalidFlag (.singleton c))

/-! ## Tokens shorten the text -/

theorem skipSeparators_length_le (cs : List Char) : (skipSeparators cs).length ≤ cs.length :=
  (List.dropWhile_sublist _).length_le

theorem takeDigits_append (cs : List Char) :
    (Decimal.takeDigits cs).1 ++ (Decimal.takeDigits cs).2 = cs :=
  List.takeWhile_append_dropWhile

theorem takeSign_append (cs : List Char) : (takeSign cs).1 ++ (takeSign cs).2 = cs := by
  unfold takeSign
  split <;> rfl

theorem takePointed_append (cs : List Char) : (takePointed cs).1 ++ (takePointed cs).2 = cs := by
  unfold takePointed
  split
  · simp [takeDigits_append]
  · rfl

theorem takePower_append (cs : List Char) : (takePower cs).1 ++ (takePower cs).2 = cs := by
  unfold takePower
  split
  · rfl
  · split
    · simp [takeDigits_append, takeSign_append]
    · rfl

/-- Taking a number loses nothing. -/
theorem takeNumber_append (cs : List Char) : (takeNumber cs).1 ++ (takeNumber cs).2 = cs := by
  simp only [takeNumber, List.append_assoc, takePower_append, takePointed_append,
    takeDigits_append, takeSign_append]

/-- A number that begins properly has at least one character. -/
theorem takeNumber_ne_nil {c : Char} {cs : List Char} (h : beginsNumber c) :
    (takeNumber (c :: cs)).1 ≠ [] := by
  intro hnil
  simp only [takeNumber, List.append_eq_nil_iff] at hnil
  obtain ⟨⟨⟨hsign, hwhole⟩, hfraction⟩, _⟩ := hnil
  by_cases hm : c = '-'
  · subst hm
    simp [takeSign] at hsign
  by_cases hp : c = '+'
  · subst hp
    simp [takeSign] at hsign
  have hs : takeSign (c :: cs) = ([], c :: cs) := by
    unfold takeSign
    split
    · simp_all
    · simp_all
    · rfl
  rw [hs] at hwhole hfraction
  by_cases hd : c.isDigit
  · simp [Decimal.takeDigits, hd] at hwhole
  · have hdot : c = '.' := by simpa [beginsNumber, hm, hp, hd] using h
    subst hdot
    simp [Decimal.takeDigits, takePointed] at hfraction

/-- Reading a parameter shortens the text. -/
theorem takeParameter_length_lt {slot : Kind.Slot} {c : Char} {cs rest : List Char} {x : Single}
    (hc : beginsNumber c) (h : takeParameter slot (c :: cs) = .ok (x, rest)) :
    rest.length < (c :: cs).length := by
  cases slot with
  | number =>
    simp only [takeParameter] at h
    split at h
    · simp only [Except.ok.injEq, Prod.mk.injEq] at h
      have happ := congrArg List.length (takeNumber_append (c :: cs))
      have hpos := List.length_pos_iff.2 (@takeNumber_ne_nil c cs hc)
      simp only [List.length_append] at happ
      rw [← h.2]
      omega
    · simp at h
  | flag =>
    simp only [takeParameter] at h
    split at h
    · simp_all
    · split at h
      · simp_all
      · simp at h

/-! ## Commands -/

/-- Reads the parameters after a letter, as far as they go, for groups of the given slots; `n` of
them have been read. Without slots every parameter is a number. -/
def parameters (slots : List Kind.Slot) (n : Nat) (cs : List Char) :
    Except DataError (List Single × List Char) :=
  match hs : skipSeparators cs with
  | [] => .ok ([], [])
  | c :: rest =>
    if hc : beginsNumber c then
      match h : takeParameter (slots[n % slots.length]?.getD .number) (c :: rest) with
      | .error e => .error e
      | .ok (x, rest') =>
        have : rest'.length < cs.length := by
          have h₁ := takeParameter_length_lt hc h
          have h₂ := skipSeparators_length_le cs
          rw [hs] at h₂
          omega
        match parameters slots (n + 1) rest' with
        | .error e => .error e
        | .ok (xs, rest'') => .ok (x :: xs, rest'')
    else .ok ([], c :: rest)
termination_by cs.length

/-- Reading parameters does not lengthen the text. -/
theorem parameters_length_le {slots : List Kind.Slot} {n : Nat} {cs rest : List Char}
    {xs : List Single} (h : parameters slots n cs = .ok (xs, rest)) :
    rest.length ≤ cs.length := by
  fun_induction parameters slots n cs generalizing xs rest with
  | case1 n cs hs => simp_all
  | case2 n cs c r hs hc e he => simp at h
  | case3 n cs c r hs hc x r' hx hlt e he ih => simp_all
  | case4 n cs c r hs hc x r' hx hlt xs' r'' hok ih =>
    simp only [Except.ok.injEq, Prod.mk.injEq] at h
    have := ih hok
    rw [← h.2]
    omega
  | case5 n cs c r hs hc =>
    simp only [Except.ok.injEq, Prod.mk.injEq] at h
    have := skipSeparators_length_le cs
    rw [hs] at this
    rw [← h.2]
    exact this

/-- What a command letter stands for: a kind of drawing, or a close (`none`). -/
def kindOfLetter? (c : Char) : Option (Option Kind) :=
  match c.toLower with
  | 'm' => some (some .move)
  | 'l' => some (some .line)
  | 'h' => some (some .horizontal)
  | 'v' => some (some .vertical)
  | 'c' => some (some .cubic)
  | 's' => some (some .smoothCubic)
  | 'q' => some (some .quadratic)
  | 't' => some (some .smoothQuadratic)
  | 'a' => some (some .arc)
  | 'z' => some none
  | _ => none

/-- The mode that the case of a letter stands for. -/
def modeOfLetter (c : Char) : Mode := if c.isLower then .relative else .absolute

/-- Cuts a list into pieces of length `n`, the last of which may be shorter. -/
def chunks {α : Type} (n : Nat) (l : List α) : List (List α) :=
  if _h : n = 0 ∨ l = [] then []
  else l.take n :: chunks n (l.drop n)
termination_by l.length
decreasing_by
  simp only [not_or] at _h
  have := List.length_pos_iff.2 _h.2
  simp only [List.length_drop]
  omega

/-- The groups of a kind made up by a list of parameters, if they are whole and at least one. -/
def Kind.groups? (k : Kind) (xs : List Single) : Option (List k.Group) :=
  if xs = [] then none else (chunks k.arity xs).mapM k.ofNumbers?

/-- The command with a letter and its parameters. -/
def ofParameters (letter : Char) (kind : Option Kind) (xs : List Single) :
    Except DataError Command :=
  match kind with
  | none => if xs = [] then .ok .close else .error (.wrongCount letter 0 xs.length)
  | some k =>
    match k.groups? xs with
    | some groups => .ok (.draw k (modeOfLetter letter) groups)
    | none => .error (.wrongCount letter k.arity xs.length)

/-- How many characters of an unreadable rest of the text an error shows. -/
def shownRest : Nat := 16

/-- Reads commands to the end of the text. -/
def commands (cs : List Char) : Except DataError (List Command) :=
  match hs : skipSeparators cs with
  | [] => .ok []
  | c :: rest =>
    if c.isAlpha then
      match kindOfLetter? c with
      | none => .error (.unknownCommand c)
      | some kind =>
        match h : parameters ((kind.map Kind.slots).getD []) 0 rest with
        | .error e => .error e
        | .ok (xs, rest') =>
          have : rest'.length < cs.length := by
            have h₁ := parameters_length_le h
            have h₂ := skipSeparators_length_le cs
            rw [hs] at h₂
            simp only [List.length_cons] at h₂
            omega
          match ofParameters c kind xs with
          | .error e => .error e
          | .ok command =>
            match commands rest' with
            | .error e => .error e
            | .ok more => .ok (command :: more)
    else .error (.missingCommand (.ofList ((c :: rest).take shownRest)))
termination_by cs.length

/-- Reads path data. A path is empty or begins with a move. -/
def parse (s : String) : Except DataError (List Command) :=
  match commands s.toList with
  | .error e => .error e
  | .ok [] => .ok []
  | .ok (c :: cs) => if c.isKind .move then .ok (c :: cs) else .error (.missingMove c.letter)

end VectorGraphics.Path
