import CodeIndex.Decimal.Shortest

/-! # Rounded decimals of floats

A finite float is a fraction, and its decimals are rounded from that fraction: to a number of
digits behind the point, or to a number of digits in all. Of two equally near decimals the even one
is taken.
-/

namespace CodeIndex.Decimal

/-- A fraction that is not negative. -/
structure Fraction where
  numerator : Nat
  denominator : Nat
deriving DecidableEq, Repr

namespace Fraction

def ofFloat? (x : Float) : Option Fraction :=
  let (fraction, biased) := fractionAndExponent x
  if biased = 2047 then none
  else
    let significand := if biased = 0 then fraction else (1 <<< 52) + fraction
    match ((max biased 1 : Nat) : Int) - 1075 with
    | .ofNat e => some ⟨significand <<< e, 1⟩
    | .negSucc e => some ⟨significand, 1 <<< (e + 1)⟩

def round (f : Fraction) : Nat :=
  let below := f.numerator / f.denominator
  let twice := 2 * (f.numerator % f.denominator)
  if f.denominator < twice || (twice = f.denominator && below % 2 = 1) then below + 1 else below

/-- The fraction in units of `10^k`. -/
def inUnits (f : Fraction) : Int → Fraction
  | .ofNat k => { f with denominator := f.denominator * Nat.pow 10 k }
  | .negSucc k => { f with numerator := f.numerator * Nat.pow 10 (k + 1) }

/-- The exponent of the power of ten at or below a positive fraction. -/
def magnitude (f : Fraction) : Int :=
  Interval.magnitude ⟨0, f.numerator, 0, f.denominator, true⟩

/-- The decimal of `count + 1` digits that is nearest to a fraction; that of zero is all zeros. -/
def toDigits (f : Fraction) (count : Nat) : Scientific :=
  if f.numerator = 0 then ⟨List.replicate (count + 1) 0, 0⟩
  else
    let exponent := f.magnitude
    let ds := digitsOf (f.inUnits (exponent - count)).round
    if ds.length ≤ count + 1 then ⟨ds, exponent⟩ else ⟨ds.dropLast, exponent + 1⟩

end Fraction

def digitText (ds : List Nat) : List Char :=
  ds.map fun d => Char.ofNat (48 + d)

/-- A fraction with `places` digits behind the point. -/
def fixedText (f : Fraction) (places : Nat) : List Char × List Char :=
  let ds := digitsOf (f.inUnits (-(places : Int))).round
  let ds := List.replicate (places + 1 - ds.length) 0 ++ ds
  (digitText (ds.take (ds.length - places)), digitText (ds.drop (ds.length - places)))

/-- An exponent with its sign and at least two digits. -/
def exponentText (e : Int) : List Char :=
  let ds := digitText (digitsOf e.natAbs)
  (if e < 0 then '-' else '+') :: (List.replicate (2 - ds.length) '0' ++ ds)

end CodeIndex.Decimal
