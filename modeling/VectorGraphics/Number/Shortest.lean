import VectorGraphics.Number.Decimal

/-!
# The fewest digits that read back

Every finite binary number stands for an interval of reals that round to it. `shortest` finds, on
the coarsest power-of-ten grid that has a point in that interval, the point nearest to the number
itself. Below that grid at most two points have to be looked at, the neighbours of the number.

* `RoundingInterval.ofSingle` and `RoundingInterval.ofDouble` give the interval.
* `RoundingInterval.onGrid?` is the choice on one grid, `RoundingInterval.shortest` the search.
* `Single.shortest` writes a single out in full, `Double.shortest?` a double where its point
  falls among the digits or near them.

The program does not find these digits itself: for a double it asks ryu, a printer of shortest
digits that is not part of it. The search here is not the algorithm of that printer but what it is
documented to give, the nearest of the shortest texts that read back, in the layout that it uses
without an exponent. What the program does around it, rounding to decimal places and printing whole
numbers by themselves, is in `Number.Places`.
-/

namespace VectorGraphics

open Float.Model (UnpackedFloat Format)

-- Powers are those of the core library, whatever else is in scope.
attribute [local instance (high)] instPowNat

/-- Which of two equally near numbers is taken. -/
inductive Tie
  /-- The larger one. -/
  | up
  /-- The one with an even last digit. -/
  | toEven
  deriving DecidableEq, Repr

/-- The reals that round to one binary number, all in units of `2 ^ exponent`. -/
structure RoundingInterval where
  /-- The lower end. -/
  lower : Nat
  /-- The number itself. -/
  value : Nat
  /-- The upper end. -/
  upper : Nat
  /-- The power of two of the unit. -/
  exponent : Int
  /-- Whether the ends belong to the interval. -/
  closed : Bool
  deriving DecidableEq, Repr

namespace RoundingInterval

/-- The interval of `mantissa · 2 ^ exponent` in a binary format. It reaches half a unit in the
last place to either side, a quarter below a power of two, and holds its ends when the mantissa
is even. -/
def ofBinary (format : Format) (mantissa : Nat) (exponent : Int) : RoundingInterval :=
  let atPower := mantissa = 2 ^ (format.mantissaBits - 1) ∧ format.minExponent < exponent
  { lower := 4 * mantissa - if atPower then 1 else 2
    value := 4 * mantissa
    upper := 4 * mantissa + 2
    exponent := exponent - 2
    closed := mantissa % 2 = 0 }

/-- `d · 10 ^ k` against `n · 2 ^ q`, after clearing the negative powers. -/
def compareBinary (d : Nat) (k : Int) (n : Nat) (q : Int) : Ordering :=
  compare (d * 10 ^ k.toNat * 2 ^ (-q).toNat) (n * 2 ^ q.toNat * 10 ^ (-k).toNat)

/-- Whether `d · 10 ^ k` lies in the interval. -/
def holds (r : RoundingInterval) (d : Nat) (k : Int) : Bool :=
  let low := compareBinary d k r.lower r.exponent
  let high := compareBinary d k r.upper r.exponent
  if r.closed then low.isGE && high.isLE else low.isGT && high.isLT

/-- The largest `d` for which `d · 10 ^ k` does not exceed the number. -/
def floorOnGrid (r : RoundingInterval) (k : Int) : Nat :=
  r.value * 2 ^ r.exponent.toNat * 10 ^ (-k).toNat / (10 ^ k.toNat * 2 ^ (-r.exponent).toNat)

/-- The point of the grid `10 ^ k` nearest to the number, if one lies in the interval. -/
def onGrid? (tie : Tie) (r : RoundingInterval) (k : Int) : Option Nat :=
  let d := r.floorOnGrid k
  match r.holds d k, r.holds (d + 1) k with
  | false, false => none
  | true, false => some d
  | false, true => some (d + 1)
  | true, true =>
    match compareBinary (2 * d + 1) k (2 * r.value) r.exponent with
    | .gt => some d
    | .lt => some (d + 1)
    | .eq =>
      match tie with
      | .up => some (d + 1)
      | .toEven => some (if d % 2 = 0 then d else d + 1)

/-- A power of ten above the number. -/
def topExponent (r : RoundingInterval) : Int :=
  ((r.value.log2 + 1 + r.exponent) * 1234) / 4096 + 1

/-- The first grid with a point in the interval, among `10 ^ k` and the `n` finer ones after it. -/
def search (tie : Tie) (r : RoundingInterval) : Nat → Int → Decimal
  | 0, k => ⟨r.floorOnGrid k, k⟩
  | n + 1, k =>
    match r.onGrid? tie k with
    | some d => ⟨d, k⟩
    | none => search tie r n (k - 1)

/-- The decimal with the fewest digits in the interval, of those the one nearest to the number.
Twenty grids below the top one are enough for both formats. -/
def shortest (tie : Tie) (r : RoundingInterval) : Decimal :=
  search tie r 20 r.topExponent

end RoundingInterval

/-! ## Text -/

/-- A minus sign for a negative number. -/
def signText : UnpackedFloat.Sign → List Char
  | .positive => []
  | .negative => ['-']

/-- The names of the numbers that are not finite. -/
def nonfiniteText : UnpackedFloat → List Char
  | .infinity .positive => ['i', 'n', 'f']
  | .infinity .negative => ['-', 'i', 'n', 'f']
  | _ => ['N', 'a', 'N']

namespace Single

/-- The fewest digits that read back, without an exponent. -/
def shortest (x : Single) : List Char :=
  match x.toModel.unpack with
  | .finite s m e _ =>
    signText s ++ ((RoundingInterval.ofBinary .binary32 m e).shortest .up).positional
  | .zero s => signText s ++ ['0']
  | u => nonfiniteText u

end Single

namespace Double

/-- The fewest digits that read back, for a number between `10 ^ -5` and `10 ^ 16` in magnitude;
beyond those its text would have an exponent. -/
def shortest? (x : Double) : Option (List Char) :=
  match x.toModel.unpack with
  | .finite s m e _ =>
    let d := (RoundingInterval.ofBinary .binary64 m e).shortest .toEven
    let point := (Decimal.digitsOfNat d.digits).length + d.exponent
    if -5 < point ∧ point ≤ 16 then
      some (signText s ++ if 0 ≤ d.exponent then d.positional ++ ['.', '0'] else d.positional)
    else none
  | .zero s => some (signText s ++ ['0', '.', '0'])
  | _ => none

end Double

end VectorGraphics
