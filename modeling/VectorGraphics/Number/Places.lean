import VectorGraphics.Number.Shortest
import VectorGraphics.Text.Search

/-!
# Numbers rounded to decimal places

`Single.text` writes a coordinate rounded to a number of decimal places: a whole number without a
point, and otherwise the fewest digits that give the rounded value, never with an exponent.
-/

namespace VectorGraphics

-- Powers are those of the core library, whatever else is in scope.
attribute [local instance (high)] instPowNat

/-- `num / den` rounded to the nearest whole number, a half going to the even one. -/
def roundQuotientEven (num den : Nat) : Nat :=
  let q := num / den
  match compare (2 * (num % den)) den with
  | .lt => q
  | .gt => q + 1
  | .eq => if q % 2 = 0 then q else q + 1

namespace Double

/-- The exact value of a double with `places` digits after the point, a half going to the even
digit. -/
def fixed (x : Double) (places : Nat) : List Char :=
  match x.toModel.unpack with
  | .finite s m e _ =>
    signText s ++ Decimal.pointed
      (roundQuotientEven (m * 2 ^ e.toNat * 10 ^ places) (2 ^ (-e).toNat)) places
  | .zero s => signText s ++ Decimal.pointed 0 places
  | u => nonfiniteText u

/-- The text of an integer. -/
def intText (n : Int) : List Char :=
  if n < 0 then '-' :: Decimal.digitsOfNat n.natAbs else Decimal.digitsOfNat n.natAbs

end Double

namespace Single

/-- A coordinate rounded to `places` decimal places: `x · 10 ^ places` is rounded to a whole
number, a half going away from zero, and divided by `10 ^ places` again, all in double precision.
A result within half a place of a whole number is written as that number. -/
def chars (x : Single) (places : UInt8) : List Char :=
  if x.isFinite then
    let factor := Double.pow 10 places.toNat
    let rounded := (x.widen * factor).round / factor
    if (rounded - rounded.round).abs < 0.5 / factor then Double.intText rounded.round.truncate
    else
      match rounded.shortest? with
      | some cs => cs
      | none => Text.dropRightWhile (· == '.')
          (Text.dropRightWhile (· == '0') (rounded.fixed places.toNat))
  else nonfiniteText x.toModel.unpack

/-- The text of a coordinate rounded to `places` decimal places. -/
def text (x : Single) (places : UInt8) : String := .ofList (x.chars places)

end Single

/-- Three more places than a coordinate has, as far as there are more. -/
def finerPlaces (places : UInt8) : UInt8 := if places ≤ 252 then places + 3 else 255

end VectorGraphics
