import VectorGraphics.Number.Binary

/-!
# Trigonometric functions in single precision

The functions are fixed down to the last bit: each is a stated sequence of correctly rounded
operations.

* `Single.sin` and `Single.cos` reduce the angle to the nearest multiple of π/2 and evaluate a
  polynomial in double precision, rounding to single once at the end. A large angle is reduced
  with as many digits of 2/π as its exponent needs.
* `Single.tan` reduces the angle in the same way, and continues in single precision with what is
  left in two parts.
* `Single.arccos`, `Single.arctan` and `Single.arctan2` work in single precision throughout, with
  constants split into a leading and a trailing part.
* `Single.toRadians` and `Single.toDegrees` multiply by one rounded constant.
-/

namespace VectorGraphics

-- Powers are those of the core library, whatever else is in scope. A literal exponent carries its
-- type for the same reason.
attribute [local instance (high)] instPowNat

namespace Double

/-- `± mantissa · 2 ^ exponent`, for constants that are given exactly. -/
def exactly (mantissa : Int) (exponent : Int) : Double :=
  ofBinary (if mantissa < 0 then .negative else .positive) mantissa.natAbs exponent

end Double

namespace Single

/-- The bits of the magnitude, which order the numbers by size. -/
def magnitudeBits (x : Single) : UInt32 := x.toBits &&& 0x7fffffff

/-- Whether the sign bit is set. -/
def isNegative (x : Single) : Bool := x.toBits ≥ 0x80000000

/-- The number with the last twelve bits of its mantissa cleared. -/
def leading (x : Single) : Single := .ofBits (x.toBits &&& 0xfffff000)

/-- Exponent and first three bits of the mantissa, a coarse size. -/
def coarseSize (x : Single) : UInt32 := (x.toBits >>> 20) &&& 0x7ff

/-! ## Sine and cosine -/

/-- `x · (1 + S(x²))` for an even quadrant. -/
def sinePolynomial (x x2 : Double) : Double :=
  let s1 := Double.exactly (-0x1555545995a603) (-55)
  let s2 := Double.exactly 0x11107605230bc4 (-59)
  let s3 := Double.exactly (-0x1994eb3774cf24) (-65)
  let x3 := x * x2
  let high := s2 + x2 * s3
  let x7 := x3 * x2
  let low := x + x3 * s1
  low + x7 * high

/-- `± (1 + C(x²))` for an odd quadrant; the sign is that of all coefficients. -/
def cosinePolynomial (negative : Bool) (x2 : Double) : Double :=
  let signed (c : Double) : Double := if negative then -c else c
  let c0 := signed 1
  let c1 := signed (Double.exactly (-0x1ffffffd0c621c) (-54))
  let c2 := signed (Double.exactly 0x155553e1068f19 (-57))
  let c3 := signed (Double.exactly (-0x16c087e89a359d) (-62))
  let c4 := signed (Double.exactly 0x199343027bf8c3 (-68))
  let x4 := x2 * x2
  let high := c3 + x2 * c4
  let low := c0 + x2 * c1
  let x6 := x4 * x2
  let c := low + x4 * c2
  c + x6 * high

/-- The sine of `x + quadrant · π/2`, where `signQuadrant` fixes the sign. -/
def reducedSine (x : Double) (quadrant signQuadrant : Int) : Single :=
  let negative := signQuadrant % 4 = 2 ∨ signQuadrant % 4 = 3
  if quadrant % 2 = 0 then
    let flipped := signQuadrant % 4 = 1 ∨ signQuadrant % 4 = 2
    Double.narrow (sinePolynomial (x * if flipped then -1 else 1) (x * x))
  else Double.narrow (cosinePolynomial negative (x * x))

/-- π/2 as a double. -/
def halfPi : Double := Double.exactly 0x1921fb54442d18 (-52)

/-- The nearest multiple of π/2 of a moderate angle, and what is left. -/
def reduceModerate (x : Double) : Int × Double :=
  let r := x * Double.exactly 0x145f306dc9c883 (-29)
  let n := (r.truncate + 0x800000) / 0x1000000
  (n, x - Double.ofInt n * halfPi)

/-- The first 256 bits of 2/π. -/
def twoOverPi : Nat := 0xa2f9836e4e441529fc2757d1f534ddc0db6295993c439041fe5163abdebbc561

/-- The 32 bits of 2/π that end `8 · (i + 1)` bits after the point. -/
def twoOverPiWindow (i : Nat) : Nat := twoOverPi / 2 ^ (256 - 8 * (i + 1)) % 2 ^ (32 : Nat)

/-- The nearest multiple of π/2 of the magnitude of a large angle, and what is left. The mantissa
is multiplied by the 96 bits of 2/π that matter for its exponent, and the top two bits of the
product are the quadrant. -/
def reduceLarge (x : Single) : Int × Double :=
  let bits := x.toBits.toNat
  let i := bits / 2 ^ (26 : Nat) % 16
  let shift := bits / 2 ^ (23 : Nat) % 8
  let mantissa := (bits % 2 ^ (23 : Nat) + 2 ^ (23 : Nat)) * 2 ^ shift
  let high := mantissa * twoOverPiWindow i % 2 ^ (32 : Nat)
  let middle := mantissa * twoOverPiWindow (i + 4)
  let low := mantissa * twoOverPiWindow (i + 8)
  let product := (low / 2 ^ (32 : Nat) + high * 2 ^ (32 : Nat) + middle) % 2 ^ (64 : Nat)
  let n : Nat := (product + 2 ^ (61 : Nat)) % 2 ^ (64 : Nat) / 2 ^ (62 : Nat)
  let rest := Int.bmod ((product : Int) - n * 2 ^ (62 : Nat)) (2 ^ (64 : Nat))
  (n, Double.ofInt rest * Double.exactly 0x1921fb54442d18 (-114))

/-- The sine of `x + turn · π/2`, for `turn` 0 or 1. -/
def sineShifted (x : Single) (turn : Int) : Single :=
  let size := x.coarseSize
  if size < 0x3f4 then
    if size < 0x398 then (if turn = 0 then x else 1)
    else reducedSine x.widen turn 0
  else if size < 0x42f then
    let (n, rest) := reduceModerate x.widen
    reducedSine rest (n + turn) n
  else if size < 0x7f8 then
    let (n, rest) := reduceLarge x
    reducedSine rest (n + turn) (n + if x.isNegative then 1 else 0)
  else x - x

/-- The sine of an angle in radians. -/
def sin (x : Single) : Single := x.sineShifted 0

/-- The cosine of an angle in radians. -/
def cos (x : Single) : Single := x.sineShifted 1

/-! ## Tangent -/

/-- The polynomial coefficients of the tangent after the linear term. -/
def tanCoefficients : List Single :=
  [3.3333334327e-01, 1.3333334029e-01, 5.3968254477e-02, 2.1869488060e-02, 8.8632395491e-03,
   3.5920790397e-03, 1.4562094584e-03, 5.8804126456e-04, 2.4646313977e-04, 7.8179444245e-05,
   7.1407252108e-05, -1.8558637748e-05, 2.5907305826e-05]

/-- Every second member of a list, beginning with the first. -/
def everySecond : List Single → List Single
  | [] => []
  | [c] => [c]
  | c :: _ :: cs => c :: everySecond cs

/-- `c₀ + w · (c₁ + w · (c₂ + …))`. -/
def horner (w : Single) : List Single → Single
  | [] => 0
  | [c] => c
  | c :: cs => c + w * horner w cs

/-- The tangent of `x + y` when `odd` is false, and `-1 / tan (x + y)` when it is true, for
`x + y` of magnitude at most about π/4 and `y` a small correction. -/
def reducedTan (x y : Single) (odd : Bool) : Single :=
  let size := x.magnitudeBits
  if size < 0x39000000 then (if odd then -1 / x else x)
  else
    let large := size ≥ 0x3f2ca140
    let iy : Single := if odd then -1 else 1
    let outerSign : Single := if x.isNegative then -1 else 1
    let (u, v) := if x.isNegative then (-x, -y) else (x, y)
    let folded := ((7.8539812565e-01 : Single) - u) + (3.7748947079e-08 - v)
    if large ∧ folded.abs < 1.220703125e-4 then outerSign * iy * (1 - 2 * iy * folded)
    else
      let x := if large then folded else x
      let y := if large then 0 else y
      let z := x * x
      let w := z * z
      let r := horner w (everySecond (tanCoefficients.drop 1))
      let v := z * horner w (everySecond (tanCoefficients.drop 2))
      let s := z * x
      let r := y + z * (s * (r + v) + y)
      let r := r + 3.3333334327e-01 * s
      let w := x + r
      if large then outerSign * (iy - 2 * (x - (w * w / (w + iy) - r)))
      else if odd then
        let z := w.leading
        let v := r - (z - x)
        let a := -1 / w
        let t := a.leading
        let s := 1 + t * z
        t + a * (s + t * v)
      else w

/-- The nearest multiple of π/2 of an angle, and what is left. -/
def reduceHalfPi (x : Single) : Int × Double :=
  if x.coarseSize < 0x42f then reduceModerate x.widen
  else
    let (n, rest) := reduceLarge x
    (n, if x.isNegative then -rest else rest)

/-- The tangent of an angle in radians. -/
def tan (x : Single) : Single :=
  let size := x.magnitudeBits
  if size ≤ 0x3f490fda then reducedTan x 0 false
  else if size ≥ 0x7f800000 then x - x
  else
    let (n, rest) := reduceHalfPi x
    let high := Double.narrow rest
    reducedTan high (Double.narrow (rest - high.widen)) (n % 2 = 1)

/-! ## Inverse functions -/

/-- The numerator's and the denominator's polynomials of the arc cosine. -/
def arccosRatio (z : Single) : Single :=
  let p := z * horner z
    [1.6666667163e-01, -3.2556581497e-01, 2.0121252537e-01, -4.0055535734e-02, 7.9153501429e-04,
     3.4793309169e-05]
  let q := horner z
    [1, -2.4033949375e+00, 2.0209457874e+00, -6.8828397989e-01, 7.7038154006e-02]
  p / q

/-- The angle between 0 and π with a given cosine, in radians; NaN outside -1 to 1. -/
def arccos (x : Single) : Single :=
  let pi : Single := 3.1415925026e+00
  let halfPiHigh : Single := 1.5707962513e+00
  let halfPiLow : Single := 7.5497894159e-08
  let size := x.magnitudeBits
  if size = 0x3f800000 then (if x.isNegative then pi + 2 * halfPiLow else 0)
  else if size > 0x3f800000 then (x - x) / (x - x)
  else if size < 0x3f000000 then
    if size ≤ 0x32800000 then halfPiHigh + halfPiLow
    else halfPiHigh - (x - (halfPiLow - x * arccosRatio (x * x)))
  else if x.isNegative then
    let z := (1 + x) * 0.5
    let s := z.sqrt
    pi - 2 * (s + (arccosRatio z * s - halfPiLow))
  else
    let z := (1 - x) * 0.5
    let s := z.sqrt
    let high := leading s
    let low := (z - high * high) / (s + high)
    2 * (high + (arccosRatio z * s + low))

/-- `x` less its arc tangent, as a multiple of `x`, for small `x`. -/
def arctanRatio (x : Single) : Single :=
  let z := x * x
  let w := z * z
  z * horner w
      [3.3333334327e-01, 1.4285714924e-01, 9.0908870101e-02, 6.6610731184e-02, 4.9768779427e-02,
       1.6285819933e-02]
    + w * horner w
      [-2.0000000298e-01, -1.1111110449e-01, -7.6918758452e-02, -5.8335702866e-02,
       -3.6531571299e-02]

/-- The angle between -π/2 and π/2 with a given tangent, in radians. A number from 7/16 on is
first moved near zero by the addition theorem, around 1/2, 1, 3/2 or infinity. -/
def arctan (x : Single) : Single :=
  let size := x.magnitudeBits
  let signed (z : Single) : Single := if x.isNegative then -z else z
  let around (high low u : Single) : Single :=
    signed (high - ((u * arctanRatio u - low) - u))
  if size ≥ 0x4c000000 then
    if x.isNaN then x else signed (1.5707962513e+00 + 7.5497894159e-08)
  else if size < 0x3ee00000 then
    if size < 0x31000000 then x else x - x * arctanRatio x
  else
    let a := x.abs
    if size < 0x3f300000 then
      around 4.6364760399e-01 5.0121582440e-09 ((2 * a - 1) / (2 + a))
    else if size < 0x3f980000 then
      around 7.8539812565e-01 3.7748947079e-08 ((a - 1) / (a + 1))
    else if size < 0x401c0000 then
      around 9.8279368877e-01 3.4473217170e-08 ((a - 1.5) / (1 + 1.5 * a))
    else around 1.5707962513e+00 7.5497894159e-08 (-1 / a)

/-- The angle of the vector `(x, y)` to the x axis, in radians. -/
def arctan2 (y x : Single) : Single :=
  let pi : Single := 3.1415927410e+00
  let halfPi : Single := 1.5707963705e+00
  let piLow : Single := -8.7422776573e-08
  let sizeX := x.magnitudeBits
  let sizeY := y.magnitudeBits
  let signed (z : Single) : Single := if y.isNegative then -z else z
  if x.isNaN ∨ y.isNaN then x + y
  else if x.toBits = 0x3f800000 then y.arctan
  else if sizeY = 0 then (if x.isNegative then signed pi else y)
  else if sizeX = 0 then signed halfPi
  else if sizeX = 0x7f800000 then
    if sizeY = 0x7f800000 then
      signed (if x.isNegative then 3 * 7.8539818525e-01 else 7.8539818525e-01)
    else signed (if x.isNegative then pi else 0)
  else if sizeY = 0x7f800000 then signed halfPi
  else
    let k : Int := ((sizeY.toNat : Int) - sizeX.toNat) / 2 ^ (23 : Nat)
    let z :=
      if k > 60 then halfPi + 0.5 * piLow
      else if x.isNegative ∧ k < -60 then 0
      else arctan (y / x).abs
    if x.isNegative then
      if y.isNegative then (z - piLow) - pi else pi - (z - piLow)
    else signed z

/-! ## Degrees -/

/-- An angle in degrees, in radians. -/
def toRadians (x : Single) : Single := x * ((3.1415927410 : Single) / 180)

/-- An angle in radians, in degrees. -/
def toDegrees (x : Single) : Single := x * 57.29578

end Single

end VectorGraphics
