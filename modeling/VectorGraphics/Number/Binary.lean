/-!
# Binary floating-point numbers

Coordinates are single-precision numbers; rounding to decimal places works in double precision.
Both are the floating-point types of the standard library, whose operations are defined through
the unpacked form `± mantissa · 2 ^ exponent`, and so is everything here.

* `Single.widen` is exact, and `Double.narrow` rounds to nearest, ties to even.
* `Double.nearestInt` and `Double.round` round to whole numbers, a half going away from zero;
  `Double.truncate` drops the fraction.
* `Single.min`, `Single.max` and `Single.clamp` pass over a NaN, `Single.hypot` is rounded once
  from double precision.
-/

namespace VectorGraphics

open Float.Model (UnpackedFloat)

-- Powers are those of the core library, whatever else is in scope. A literal exponent carries its
-- type for the same reason.
attribute [local instance (high)] instPowNat

/-- Single-precision numbers, the coordinates of a drawing. -/
abbrev Single := Float32

/-- Double-precision numbers, in which coordinates are rounded for printing. -/
abbrev Double := Float

/-! ## Changing precision -/

namespace Double

/-- The number packed from its unpacked form. -/
def pack (u : UnpackedFloat) : Double := .ofModel (.pack u)

/-- The double nearest to `± mantissa · 2 ^ exponent`, ties to even. -/
def ofBinary (sign : UnpackedFloat.Sign) (mantissa : Nat) (exponent : Int) : Double :=
  pack (.round .binary64 sign mantissa exponent)

end Double

namespace Single

/-- The number packed from its unpacked form. -/
def pack (u : UnpackedFloat) : Single := .ofModel (.pack u)

/-- The single nearest to `± mantissa · 2 ^ exponent`, ties to even. -/
def ofBinary (sign : UnpackedFloat.Sign) (mantissa : Nat) (exponent : Int) : Single :=
  pack (.round .binary32 sign mantissa exponent)

/-- The double equal to a single. -/
def widen (x : Single) : Double :=
  match x.toModel.unpack with
  | .finite s m e _ => .ofBinary s m e
  | u => .pack u

/-- Positive infinity. -/
def infinity : Single := pack (.infinity .positive)

/-- Not a number. -/
def nan : Single := pack .notANumber

end Single

namespace Double

/-- The single nearest to a double, ties to even; too large a number becomes infinite. -/
def narrow (x : Double) : Single :=
  match x.toModel.unpack with
  | .finite s m e _ => .ofBinary s m e
  | u => .pack u

/-! ## Whole numbers -/

/-- The whole number nearest to `mantissa · 2 ^ exponent`, a half going up. -/
def nearestNat (mantissa : Nat) (exponent : Int) : Nat :=
  if 0 ≤ exponent then mantissa * 2 ^ exponent.toNat
  else (2 * mantissa + 2 ^ (-exponent).toNat) / 2 ^ ((-exponent).toNat + 1)

/-- The whole number in `mantissa · 2 ^ exponent`. -/
def wholeNat (mantissa : Nat) (exponent : Int) : Nat :=
  mantissa * 2 ^ exponent.toNat / 2 ^ (-exponent).toNat

/-- The nearest integral double, a half going away from zero. -/
def round (x : Double) : Double :=
  match x.toModel.unpack with
  | .finite s m e _ => ofBinary s (nearestNat m e) 0
  | u => pack u

/-- The integer below or equal in magnitude, clamped to the 64-bit integers; zero for NaN. -/
def truncate (x : Double) : Int :=
  match x.toModel.unpack with
  | .finite s m e _ => min (max (s.apply (wholeNat m e)) (-(2 ^ (63 : Nat)))) (2 ^ (63 : Nat) - 1)
  | .infinity .positive => 2 ^ (63 : Nat) - 1
  | .infinity .negative => -(2 ^ (63 : Nat))
  | _ => 0

/-- The double nearest to an integer. -/
def ofInt (n : Int) : Double :=
  if n < 0 then ofBinary .negative n.natAbs 0 else ofBinary .positive n.natAbs 0

/-- `b ^ n` by repeated squaring, each product rounded; the least significant bit of the exponent
comes first. -/
def pow (b : Double) (n : Nat) : Double :=
  go 1 b n
where
  /-- The running product times `b ^ n`. -/
  go (r b : Double) (n : Nat) : Double :=
    let r := if n % 2 = 1 then r * b else r
    if n / 2 = 0 then r else go r (b * b) (n / 2)
  termination_by n
  decreasing_by omega

end Double

/-! ## Comparison, sums and length -/

namespace Single

/-- The smaller of two numbers; a NaN gives way to the other. -/
def min (a b : Single) : Single :=
  if a.isNaN then b else if b < a then b else a

/-- The larger of two numbers; a NaN gives way to the other. -/
def max (a b : Single) : Single :=
  if a.isNaN then b else if a < b then b else a

/-- The number moved into the interval from `low` to `high`; a NaN stays. -/
def clamp (x low high : Single) : Single :=
  if x < low then low else if high < x then high else x

/-- The length of the vector `(x, y)`; infinite as soon as one side is. -/
def hypot (x y : Single) : Single :=
  if x.isInf || y.isInf then infinity
  else Double.narrow (x.widen * x.widen + y.widen * y.widen).sqrt

end Single

end VectorGraphics
