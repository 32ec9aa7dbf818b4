import CodeIndex.Json.Token

/-! # Numbers of JSON texts

An integer of 64 bits, signed or not, is kept exactly. Any other number becomes a float: as many
leading digits as fit into 64 bits are scaled by a power of ten in float arithmetic.
-/

namespace CodeIndex.Json

inductive Number where
  /-- An integer from `-2^63` to `2^64 - 1`. -/
  | int (n : Int)
  | float (x : Float)
deriving Repr, BEq

/-- Appends digits to `value` as long as it stays below `2^64`, and counts those appended. -/
def absorb (value count : Nat) : List Nat → Nat × Nat
  | [] => (value, count)
  | d :: ds => if 10 * value + d < UInt64.size then absorb (10 * value + d) (count + 1) ds
    else (value, count)

/-- `x / 10^n`, in steps that a float can represent. -/
def scaleDown (x : Float) (n : Nat) : Float :=
  if n ≤ 308 then x / Float.ofScientific 1 false n
  else if x == 0 then x
  else scaleDown (x / Float.ofScientific 1 false 308) (n - 308)
termination_by n

/-- `significand * 10^n`; `none` when it exceeds every float. -/
def scale? (significand : Nat) (n : Int) : Option Float :=
  let x := significand.toUInt64.toFloat
  match n with
  | .ofNat n =>
    if n ≤ 308 then
      let y := x * Float.ofScientific 1 false n
      if y.isInf then none else some y
    else if significand = 0 then some x
    else none
  | .negSucc n => some (scaleDown x (n + 1))

def natOfDigits (ds : List Nat) : Nat :=
  ds.foldl (fun n d => 10 * n + d) 0

namespace Numeral

/-- The value when it is written without a point and an exponent and fits into 64 bits. -/
def int? (n : Numeral) : Option Int :=
  let value := natOfDigits n.whole
  if n.fraction.isEmpty && n.exponent.isNone then
    if n.negative then
      if 0 < value ∧ value ≤ 1 <<< 63 then some (-(value : Int)) else none
    else if value < UInt64.size then some value else none
  else none

/-- The magnitude as a float; `none` when it exceeds every float. -/
def magnitude? (n : Numeral) : Option Float :=
  let (significand, taken) := absorb 0 0 n.whole
  let (significand, decimals) := absorb significand 0 n.fraction
  let shift : Int := (n.whole.length - taken : Nat) - (decimals : Int)
  match n.exponent with
  | none => scale? significand shift
  | some (negative, ds) =>
    let exponent := natOfDigits ds
    if 1 <<< 31 ≤ exponent then
      if negative || significand == 0 then some 0 else none
    else scale? significand (if negative then shift - exponent else shift + exponent)

/-- The value of a numeral; `none` when it exceeds every float. -/
def value? (n : Numeral) : Option Number :=
  match n.int? with
  | some i => some (.int i)
  | none => n.magnitude?.map fun x => .float (if n.negative then -x else x)

end Numeral

end CodeIndex.Json
