/-!
# Character references

Inside character data and attribute values, `&name;` stands for one of five characters and `&#n;`
or `&#xn;` for the character with a given code point. `decode` resolves every reference of a text;
`encodeText` and `encodeValue` write the characters that would otherwise be read as markup.

Reading and writing differ in origin. `decode` and the messages of a `ReferenceError` follow the
XML reader quick-xml, which is not part of the program; `encodeText` and `encodeValue` are the
program's own.
-/

namespace VectorGraphics.Markup

-- Sums start from the zero of the core library, whatever else is in scope.
attribute [local instance (high)] Zero.ofOfNat0

/-- Why a number is no character. -/
inductive NumberError
  | sign
  | empty
  | invalidDigit
  | tooLarge
  | zero
  /-- A number that is no code point of a character. -/
  | noCharacter (code : Nat)
  deriving DecidableEq, Repr

/-- Why a reference cannot be resolved. Positions are bytes from the start of the text. -/
inductive ReferenceError
  /-- An ampersand without a semicolon before the next ampersand or the end. -/
  | unterminated (start stop : Nat)
  /-- A name that stands for nothing. -/
  | unknownName (start stop : Nat) (name : String)
  | number (error : NumberError)
  deriving DecidableEq, Repr

/-- The error in words. -/
def NumberError.message : NumberError → String
  | .sign => "unexpected number sign"
  | .empty => "cannot parse integer from empty string"
  | .invalidDigit => "invalid digit found in string"
  | .tooLarge => "number too large to fit in target type"
  | .zero => "0x0 character is not permitted in XML"
  | .noCharacter code => s!"`{code}` is not a valid codepoint"

/-- The error in words. -/
def ReferenceError.message : ReferenceError → String
  | .unterminated start stop =>
    s!"Error while escaping character at range {start}..{stop}: Cannot find ';' after '&'"
  | .unknownName start stop name => s!"at {start}..{stop}: unrecognized entity `{name}`"
  | .number e => s!"invalid character reference: {e.message}"

/-! ## Numbers -/

/-- The value of a digit in a base up to 16. -/
def digitValue? (base : Nat) (c : Char) : Option Nat :=
  let value :=
    if c.isDigit then c.toNat - '0'.toNat
    else if 'a' ≤ c ∧ c ≤ 'f' then c.toNat - 'a'.toNat + 10
    else if 'A' ≤ c ∧ c ≤ 'F' then c.toNat - 'A'.toNat + 10
    else base
  if value < base then some value else none

/-- Reads digits after a number read so far; the result stays below `2 ^ 32`. -/
def readDigits (base : Nat) : Nat → List Char → Except NumberError Nat
  | n, [] => .ok n
  | n, c :: cs =>
    match digitValue? base c with
    | none => .error .invalidDigit
    | some d =>
      if base * n + d < 2 ^ 32 then readDigits base (base * n + d) cs else .error .tooLarge

/-- Reads a number without a sign. -/
def readNumber (base : Nat) : List Char → Except NumberError Nat
  | [] => .error .empty
  | c :: cs => if c = '+' ∨ c = '-' then .error .sign else readDigits base 0 (c :: cs)

/-- The character with a given code point. -/
def charOfCode (n : Nat) : Except NumberError Char :=
  if n = 0 then .error .zero
  else if n.isValidChar then .ok (.ofNat n)
  else .error (.noCharacter n)

/-- The character that a number after `#` stands for; it is hexadecimal after `x`. -/
def charOfNumber (cs : List Char) : Except NumberError Char := do
  let n ← match cs with
    | 'x' :: digits => readNumber 16 digits
    | digits => readNumber 10 digits
  charOfCode n

/-! ## Decoding -/

/-- The names that every document knows. -/
def charOfName? (name : String) : Option Char :=
  [("lt", '<'), ("gt", '>'), ("amp", '&'), ("apos", '\''), ("quot", '"')].lookup name

/-- The length of a text in bytes. -/
def byteLength (cs : List Char) : Nat := (cs.map Char.utf8Size).sum

/-- Resolves what stands between `&` and `;`, which begins at byte `start`. -/
def resolve (start : Nat) (cs : List Char) : Except ReferenceError Char :=
  match cs with
  | '#' :: number =>
    match charOfNumber number with
    | .ok c => .ok c
    | .error e => .error (.number e)
  | name =>
    match charOfName? (.ofList name) with
    | some c => .ok c
    | none => .error (.unknownName start (start + byteLength name) (.ofList name))

/-- Whether a character ends the search for the end of a reference. -/
def endsReference (c : Char) : Bool := c = '&' || c = ';'

theorem length_dropWhile_le {α : Type} (p : α → Bool) (l : List α) :
    (l.dropWhile p).length ≤ l.length :=
  (List.dropWhile_sublist p).length_le

/-- Resolves the references of a text that begins at byte `position` of a longer one and goes on
to its end. -/
def decodeFrom (position : Nat) (cs : List Char) : Except ReferenceError (List Char) :=
  match cs with
  | [] => .ok []
  | c :: rest =>
    if c = '&' then
      let body := rest.takeWhile (!endsReference ·)
      match h : rest.dropWhile (!endsReference ·) with
      | ';' :: rest' =>
        have : rest'.length < rest.length + 1 := by
          have := length_dropWhile_le (!endsReference ·) rest
          rw [h, List.length_cons] at this
          omega
        match resolve (position + 1) body with
        | .error e => .error e
        | .ok d =>
          match decodeFrom (position + byteLength body + 2) rest' with
          | .error e => .error e
          | .ok ds => .ok (d :: ds)
      | _ => .error (.unterminated position (position + byteLength (c :: rest)))
    else
      match decodeFrom (position + c.utf8Size) rest with
      | .error e => .error e
      | .ok ds => .ok (c :: ds)
termination_by cs.length

/-- Resolves all references of a text. -/
def decode (cs : List Char) : Except ReferenceError (List Char) := decodeFrom 0 cs

/-! ## Encoding -/

/-- A character of character data. -/
def encodeTextChar (c : Char) : List Char :=
  if c = '&' then ['&', 'a', 'm', 'p', ';']
  else if c = '<' then ['&', 'l', 't', ';']
  else if c = '>' then ['&', 'g', 't', ';']
  else [c]

/-- A character of an attribute value between double quotes. -/
def encodeValueChar (c : Char) : List Char :=
  if c = '"' then ['&', 'q', 'u', 'o', 't', ';'] else encodeTextChar c

/-- Character data as it is written. -/
def encodeText (s : String) : List Char := s.toList.flatMap encodeTextChar

/-- An attribute value as it is written between double quotes. -/
def encodeValue (s : String) : List Char := s.toList.flatMap encodeValueChar

end VectorGraphics.Markup
