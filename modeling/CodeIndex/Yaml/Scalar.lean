import CodeIndex.Decimal.Spelled
import CodeIndex.Yaml.Problem
import CodeIndex.Yaml.Value

/-! # Plain scalars

A plain scalar is null, a boolean or a number if it is written like one, and a string otherwise.
Digits behind a leading zero are a string, and so is a decimal that exceeds every float.
-/

namespace CodeIndex.Yaml.Scalar

def isNull (s : String) : Bool :=
  ["null", "Null", "NULL", "~"].contains s

def bool? (s : String) : Option Bool :=
  if ["true", "True", "TRUE"].contains s then some true
  else if ["false", "False", "FALSE"].contains s then some false
  else none

def isSign (c : Char) : Bool := c == '+' || c == '-'

def digit? (c : Char) : Option Nat :=
  if '0' ≤ c ∧ c ≤ '9' then some (c.toNat - 48)
  else if 'a' ≤ c ∧ c ≤ 'f' then some (c.toNat - 87)
  else if 'A' ≤ c ∧ c ≤ 'F' then some (c.toNat - 55)
  else none

/-- The number that digits of a base spell, of which there has to be one. -/
def natOfDigits? (base : Nat) : List Char → Option Nat
  | [] => none
  | cs =>
    cs.foldlM (fun n c => (digit? c).bind fun d => if d < base then some (base * n + d) else none) 0

/-- Whether a text is two or more digits, the first of them zero, behind at most one sign. -/
def hasLeadingZero (cs : List Char) : Bool :=
  let cs := match cs with
    | c :: rest => if isSign c then rest else cs
    | [] => []
  match cs with
  | '0' :: d :: rest => (d :: rest).all Char.isDigit
  | _ => false

/-- The magnitude of an integer: sixteen, eight and two as bases are announced by a letter. -/
def magnitude? : List Char → Option Nat
  | '0' :: 'x' :: ds => natOfDigits? 16 ds
  | '0' :: 'o' :: ds => natOfDigits? 8 ds
  | '0' :: 'b' :: ds => natOfDigits? 2 ds
  | ds => if hasLeadingZero ds then none else natOfDigits? 10 ds

def int? : List Char → Option Int
  | '+' :: ds => (magnitude? ds).map fun n => n
  | '-' :: ds => (magnitude? ds).map fun n => -(n : Int)
  | ds => (magnitude? ds).map fun n => n

/-! ## Floats -/

/-- The decimal that a text without a plus sign spells, as the nearest float, if there is a finite
one. -/
def decimal? (cs : List Char) : Option Float :=
  let (negative, cs) := match cs with
    | '-' :: cs => (true, cs)
    | cs => (false, cs)
  match Decimal.Spelled.take? cs with
  | some (d, []) => if d.float.isInf then none else some (if negative then -d.float else d.float)
  | _ => none

def float? (s : String) : Option Float :=
  if [".inf", ".Inf", ".INF", "+.inf", "+.Inf", "+.INF"].contains s then some (1 / 0)
  else if ["-.inf", "-.Inf", "-.INF"].contains s then some (-1 / 0)
  else if [".nan", ".NaN", ".NAN"].contains s then some (0 / 0)
  else
    match s.toList with
    | '+' :: c :: cs => if isSign c then none else decimal? (c :: cs)
    | cs => decimal? cs

/-- An integer as a value. Beyond 64 bits there are none, up to the 128 bits at which integers
stop being integers. -/
def intValue? (n : Int) : Option (Except Problem Value) :=
  if Int64.minValue.toInt ≤ n ∧ n < UInt64.size then some (.ok (.number (.int n)))
  else if -(1 <<< 127 : Nat) ≤ n ∧ n < (1 <<< 128 : Nat) then some (.error .hugeInteger)
  else none

def integer? (s : String) : Option (Except Problem Value) :=
  (int? s.toList).bind intValue?

def plainValue (s : String) : Except Problem Value :=
  if s.isEmpty || isNull s then .ok .null
  else
    match bool? s with
    | some b => .ok (.bool b)
    | none =>
      match integer? s with
      | some result => result
      | none =>
        if hasLeadingZero s.toList then .ok (.string s)
        else
          match float? s with
          | some x => .ok (.number (.float x))
          | none => .ok (.string s)

end CodeIndex.Yaml.Scalar
