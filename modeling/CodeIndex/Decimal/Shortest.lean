/-! # Shortest decimals of floats

A finite float stands for the interval of reals that round to it. Its shortest decimal is the one
with the fewest digits in that interval, and of those the nearest to the float.
-/

namespace CodeIndex.Decimal

/-- A positive decimal: `digits` in order, with a point after the first, times `10^exponent`. -/
structure Scientific where
  digits : List Nat
  exponent : Int
deriving DecidableEq, Repr

/-- A positive real together with the interval that rounds to it, as numerators over one common
denominator. -/
structure Interval where
  low : Nat
  value : Nat
  high : Nat
  denominator : Nat
  /-- Whether the ends belong to the interval. -/
  closed : Bool

/-- The interval of `significand * 2^exponent`, where `narrow` says that the float below is only
half as far away as the one above. -/
def Interval.ofBinary (significand : Nat) (exponent : Int) (narrow : Bool) : Interval :=
  let low := 4 * significand - (if narrow then 1 else 2)
  let closed := significand % 2 == 0
  match exponent - 2 with
  | .ofNat e =>
    ⟨low <<< e, (4 * significand) <<< e, (4 * significand + 2) <<< e, 1, closed⟩
  | .negSucc e => ⟨low, 4 * significand, 4 * significand + 2, 1 <<< (e + 1), closed⟩

namespace Interval

/-- The same interval in units of `10^k`. -/
def inUnits (i : Interval) : Int → Interval
  | .ofNat k => { i with denominator := i.denominator * Nat.pow 10 k }
  | .negSucc k =>
    let unit := Nat.pow 10 (k + 1)
    { i with low := i.low * unit, value := i.value * unit, high := i.high * unit }

def containsNat (i : Interval) (n : Nat) : Bool :=
  let x := n * i.denominator
  if i.closed then i.low ≤ x && x ≤ i.high else i.low < x && x < i.high

/-- The whole number in the interval that is nearest to its value; of two equally near ones the
even one. -/
def nearestNat? (i : Interval) : Option Nat :=
  let below := i.value / i.denominator
  let above := below + 1
  match i.containsNat below && 0 < below, i.containsNat above with
  | true, false => some below
  | false, true => some above
  | false, false => none
  | true, true =>
    let twice := 2 * i.value
    let middle := (below + above) * i.denominator
    if twice < middle || (twice == middle && below % 2 == 0) then some below else some above

/-- The exponent of the power of ten at or below the value. -/
def magnitude (i : Interval) : Int :=
  if i.denominator ≤ i.value then
    (Nat.toDigits 10 (i.value / i.denominator)).length - 1
  else
    let length := (Nat.toDigits 10 (i.denominator / i.value)).length
    if i.denominator ≤ i.value * Nat.pow 10 (length - 1) then 1 - (length : Int) else -(length : Int)

def shortestFrom (i : Interval) (unit : Int) : Nat → Nat × Int
  | 0 => ((i.inUnits unit).value / (i.inUnits unit).denominator, unit)
  | tries + 1 =>
    match (i.inUnits unit).nearestNat? with
    | some n => (n, unit)
    | none => shortestFrom i (unit - 1) tries

end Interval

def digitsOf (n : Nat) : List Nat :=
  (Nat.toDigits 10 n).map fun c => c.toNat - 48

def dropZeros (ds : List Nat) : List Nat :=
  (ds.reverse.dropWhile (· == 0)).reverse

/-- Seventeen digits tell every float from its neighbours. -/
def Interval.shortest (i : Interval) : Scientific :=
  let (n, unit) := i.shortestFrom i.magnitude 17
  let ds := digitsOf n
  ⟨dropZeros ds, unit + ((ds.length - 1 : Nat) : Int)⟩

/-- The fraction of a float, which has 52 bits, and its exponent, which has 11. -/
def fractionAndExponent (x : Float) : Nat × Nat :=
  let bits := x.toBits.toNat
  (bits % (1 <<< 52), (bits >>> 52) % (1 <<< 11))

/-- The shortest decimal of a float's magnitude; `none` for zero, infinities and what is not a
number. -/
def shortest? (x : Float) : Option Scientific :=
  let (fraction, biased) := fractionAndExponent x
  if biased = 2047 then none
  else if biased = 0 then
    if fraction = 0 then none else some (Interval.ofBinary fraction (-1074) false).shortest
  else
    some (Interval.ofBinary ((1 <<< 52) + fraction) ((biased : Int) - 1075)
      (fraction == 0 && 1 < biased)).shortest

end CodeIndex.Decimal
