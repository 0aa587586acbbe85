import VectorGraphics.Markup.Reference

/-!
# Attributes of a tag

What stands between the name of a tag and its end is a list of attributes `key="value"` or
`key='value'`, with blanks around the parts and between the attributes. `readAttributes` reads
them in order and resolves the references of each value before it looks at the next attribute.

As with the tokens, the program takes the attributes as the XML reader hands them over. What is
refused, and the messages and positions of an `AttributeError`, are those of quick-xml; the order in
which values are resolved is that of the program.
-/

namespace VectorGraphics.Markup

/-- Why a list of attributes cannot be read. Positions are bytes from the start of the tag. -/
inductive AttributeError
  /-- Something other than `=` after a key. -/
  | missingEquals (position : Nat)
  /-- The end of the tag after `=`. -/
  | missingValue (position : Nat)
  /-- A value without quotes. -/
  | unquotedValue (position : Nat)
  /-- A value without its closing quote. -/
  | unclosedValue (position : Nat) (quote : Char)
  /-- A key that an earlier attribute has. -/
  | duplicate (position earlier : Nat)
  deriving DecidableEq, Repr

/-- The error in words. -/
def AttributeError.message : AttributeError → String
  | .missingEquals position =>
    s!"position {position}: attribute key must be directly followed by `=` or space"
  | .missingValue position => s!"position {position}: `=` must be followed by an attribute value"
  | .unquotedValue position =>
    s!"position {position}: attribute value must be enclosed in `\"` or `'`"
  | .unclosedValue position quote =>
    s!"position {position}: missing closing quote `{quote}` in attribute value"
  | .duplicate position earlier =>
    s!"position {position}: duplicated attribute, previous declaration at position {earlier}"

/-- The blanks of markup: space, tab, carriage return and line feed. -/
def isSpace (c : Char) : Bool := c = ' ' || c = '\t' || c = '\r' || c = '\n'

/-- Whether a character ends a key. -/
def endsKey (c : Char) : Bool := c = '=' || isSpace c

/-- An attribute as it is written, with the position of its key. -/
structure RawAttribute where
  key : List Char
  value : List Char
  position : Nat

/-- Takes one attribute off a text that begins with its key; the tag is `total` bytes long, and
`seen` holds the keys before with their positions. -/
def takeAttribute (total : Nat) (seen : List (List Char × Nat)) (c : Char) (cs : List Char) :
    Except AttributeError (RawAttribute × List Char) :=
  let offset (rest : List Char) : Nat := total - byteLength rest
  let start := offset (c :: cs)
  let key := c :: cs.takeWhile (!endsKey ·)
  match (cs.dropWhile (!endsKey ·)).dropWhile isSpace with
  | '=' :: afterEquals =>
    match seen.lookup key with
    | some earlier => .error (.duplicate start earlier)
    | none =>
      match afterEquals.dropWhile isSpace with
      | [] => .error (.missingValue total)
      | q :: rest =>
        if q = '"' ∨ q = '\'' then
          match rest.dropWhile (· != q) with
          | [] => .error (.unclosedValue total q)
          | _ :: rest' => .ok (⟨key, rest.takeWhile (· != q), start⟩, rest')
        else .error (.unquotedValue (offset (q :: rest)))
  | rest => .error (.missingEquals (offset rest))

/-- Taking an attribute shortens the text. -/
theorem takeAttribute_length_lt {total : Nat} {seen : List (List Char × Nat)} {c : Char}
    {cs rest : List Char} {a : RawAttribute}
    (h : takeAttribute total seen c cs = .ok (a, rest)) : rest.length < cs.length := by
  have hkey := length_dropWhile_le (!endsKey ·) cs
  have hblank := length_dropWhile_le isSpace (cs.dropWhile (!endsKey ·))
  simp only [takeAttribute] at h
  split at h
  · next afterEquals heq =>
    rw [heq, List.length_cons] at hblank
    have hgap := length_dropWhile_le isSpace afterEquals
    split at h
    · simp at h
    · split at h
      · simp at h
      · next q r hq =>
        rw [hq, List.length_cons] at hgap
        have hvalue := length_dropWhile_le (· != q) r
        split at h
        · split at h
          · simp at h
          · next hr =>
            rw [hr, List.length_cons] at hvalue
            simp only [Except.ok.injEq, Prod.mk.injEq] at h
            rw [← h.2]
            omega
        · simp at h
  · simp at h

/-- Why a tag cannot be read. -/
inductive TagError
  | attribute (error : AttributeError)
  | reference (error : ReferenceError)
  deriving DecidableEq, Repr

/-- Reads the attributes of a tag of `total` bytes from a text that ends with the tag. -/
def readAttributes (total : Nat) (seen : List (List Char × Nat)) (cs : List Char) :
    Except TagError (List (String × String)) :=
  match hs : cs.dropWhile isSpace with
  | [] => .ok []
  | c :: rest =>
    match h : takeAttribute total seen c rest with
    | .error e => .error (.attribute e)
    | .ok (a, rest') =>
      have : rest'.length < cs.length := by
        have h₁ := takeAttribute_length_lt h
        have h₂ := length_dropWhile_le isSpace cs
        rw [hs, List.length_cons] at h₂
        omega
      match decode a.value with
      | .error e => .error (.reference e)
      | .ok value =>
        match readAttributes total ((a.key, a.position) :: seen) rest' with
        | .error e => .error e
        | .ok more => .ok ((.ofList a.key, .ofList value) :: more)
termination_by cs.length

end VectorGraphics.Markup
