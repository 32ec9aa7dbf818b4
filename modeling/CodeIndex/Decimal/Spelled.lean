/-! # Decimals as they are spelled

A decimal is spelled by digits, at most one point among them and perhaps an exponent. It stands for
the float that is nearest to it.
-/

namespace CodeIndex.Decimal

/-- A decimal that is not negative: its digits as one number times a power of ten. -/
structure Spelled where
  digits : List Nat
  exponent : Int
deriving DecidableEq, Repr

namespace Spelled

def takeDigits (cs : List Char) : List Nat × List Char :=
  ((cs.takeWhile Char.isDigit).map fun c => c.toNat - 48, cs.dropWhile Char.isDigit)

def natOf (ds : List Nat) : Nat :=
  ds.foldl (fun n d => 10 * n + d) 0

/-- The exponent at the front and what follows it; without digits there is none. -/
def takeExponent (cs : List Char) : Int × List Char :=
  let read (sign : Int) (rest : List Char) : Int × List Char :=
    match takeDigits rest with
    | ([], _) => (0, cs)
    | (ds, rest) => (sign * natOf ds, rest)
  match cs with
  | 'e' :: '-' :: rest | 'E' :: '-' :: rest => read (-1) rest
  | 'e' :: '+' :: rest | 'E' :: '+' :: rest => read 1 rest
  | 'e' :: rest | 'E' :: rest => read 1 rest
  | _ => (0, cs)

/-- The decimal at the front and what follows it. At least one digit stands before or after the
point. -/
def take? (cs : List Char) : Option (Spelled × List Char) :=
  let (whole, rest) := takeDigits cs
  let (decimals, rest) := match rest with
    | '.' :: rest => takeDigits rest
    | rest => ([], rest)
  if whole.isEmpty && decimals.isEmpty then none
  else
    let (exponent, rest) := takeExponent rest
    some (⟨whole ++ decimals, exponent - decimals.length⟩, rest)

/-- The nearest float; infinity beyond all floats. -/
def float (d : Spelled) : Float :=
  let digits := d.digits.dropWhile (· == 0)
  let size : Int := digits.length + d.exponent
  if digits.isEmpty ∨ size < -400 then 0
  else if 400 < size then 1 / 0
  else Float.ofScientific (natOf digits) (d.exponent < 0) d.exponent.natAbs

end Spelled

end CodeIndex.Decimal
