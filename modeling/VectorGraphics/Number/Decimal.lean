import VectorGraphics.Number.Binary

/-!
# Decimal numbers and their literals

A `Decimal` is a magnitude `digits · 10 ^ exponent`. It is read from a literal
(`Decimal.ofLiteral?`), rounded once to a single (`Decimal.toSingle`), and written without an
exponent (`Decimal.positional`). `Single.ofLiteral?` reads a number with its sign, and the names
of infinity and NaN.
-/

namespace VectorGraphics

-- Powers are those of the core library, whatever else is in scope.
attribute [local instance (high)] instPowNat

/-- The magnitude `digits · 10 ^ exponent`. -/
structure Decimal where
  /-- All digits, as one whole number. -/
  digits : Nat
  /-- The power of ten of the last digit. -/
  exponent : Int
  deriving DecidableEq, Repr

namespace Decimal

/-! ## Reading -/

/-- The number written by a list of decimal digits. -/
def natOfDigits (cs : List Char) : Nat :=
  cs.foldl (fun n c => 10 * n + (c.toNat - '0'.toNat)) 0

/-- The digits at the front of a text, and the rest. -/
def takeDigits (cs : List Char) : List Char × List Char :=
  (cs.takeWhile Char.isDigit, cs.dropWhile Char.isDigit)

/-- A nonempty run of digits and nothing else. -/
def nat? (cs : List Char) : Option Nat :=
  if cs ≠ [] ∧ cs.all Char.isDigit then some (natOfDigits cs) else none

/-- Digits with an optional sign, and nothing else. -/
def int? : List Char → Option Int
  | '-' :: cs => (nat? cs).map fun n => -(n : Int)
  | '+' :: cs => (nat? cs).map Int.ofNat
  | cs => (nat? cs).map Int.ofNat

/-- What follows the digits of a literal: nothing, or `e` or `E` and a power of ten. -/
def power? : List Char → Option Int
  | [] => some 0
  | c :: cs => if c = 'e' ∨ c = 'E' then int? cs else none

/-- The digits after a point, if a point comes next, and the rest. -/
def takeFraction : List Char → List Char × List Char
  | '.' :: cs => takeDigits cs
  | cs => ([], cs)

/-- Reads digits with an optional point and an optional power of ten. At least one digit stands
before or after the point. -/
def ofLiteral? (cs : List Char) : Option Decimal :=
  let (whole, rest) := takeDigits cs
  let (fraction, rest) := takeFraction rest
  if whole = [] ∧ fraction = [] then none
  else (power? rest).map fun power =>
    ⟨natOfDigits (whole ++ fraction), power - fraction.length⟩

/-- The single nearest to a decimal, ties to even. -/
def toSingle (d : Decimal) : Single :=
  .ofModel (.ofScientific d.digits d.exponent)

/-! ## Writing -/

/-- The digits of a natural number. -/
def digitsOfNat (n : Nat) : List Char := Nat.toDigits 10 n

/-- A whole number of units of `10 ^ -places`, with a point and exactly `places` digits after it
when `places` is positive. -/
def pointed (n places : Nat) : List Char :=
  let ds := digitsOfNat n
  if places = 0 then ds
  else
    let ds := List.replicate (places + 1 - ds.length) '0' ++ ds
    ds.take (ds.length - places) ++ '.' :: ds.drop (ds.length - places)

/-- Writes all digits without an exponent. -/
def positional (d : Decimal) : List Char :=
  match d.exponent with
  | .ofNat k => digitsOfNat (d.digits * 10 ^ k)
  | .negSucc k => pointed d.digits (k + 1)

end Decimal

/-! ## Literals with a sign -/

namespace Single

/-- Reads a literal without a sign: a decimal number, or `inf`, `infinity` or `nan` in any case. -/
def ofUnsigned? (cs : List Char) : Option Single :=
  let word := String.ofList (cs.map Char.toLower)
  if word = "inf" ∨ word = "infinity" then some infinity
  else if word = "nan" then some nan
  else (Decimal.ofLiteral? cs).map Decimal.toSingle

/-- Reads a literal with an optional sign. -/
def ofLiteral? : List Char → Option Single
  | '-' :: cs => (ofUnsigned? cs).map fun x => -x
  | '+' :: cs => ofUnsigned? cs
  | cs => ofUnsigned? cs

/-- Reads a text that is one literal and nothing else. -/
def ofString? (s : String) : Option Single := ofLiteral? s.toList

end Single

end VectorGraphics
