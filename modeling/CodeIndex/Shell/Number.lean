import CodeIndex.Text.Segments

/-! # Numbers in texts

A number may have blanks and a sign in front of its digits. The digits are octal behind a zero and
hexadecimal behind `0x` where these are looked for.
-/

namespace CodeIndex.Shell

def wrap (n : Int) : Int :=
  Int.bmod n UInt64.size

def maxInteger : Int := Int64.maxValue.toInt

def minInteger : Int := Int64.minValue.toInt

def isNumberBlank (c : Char) : Bool :=
  " \t\n\x0b\x0c\r".toList.contains c

/-- The value of a digit, letters counting on from ten. -/
def digitValue? (c : Char) : Option Nat :=
  if c.isDigit then some (c.toNat - 48)
  else if 'a' ≤ c ∧ c ≤ 'z' then some (c.toNat - 87)
  else if 'A' ≤ c ∧ c ≤ 'Z' then some (c.toNat - 55)
  else none

def isDigitOf (base : Nat) (c : Char) : Bool :=
  (digitValue? c).any (· < base)

/-- The number that the digits of a base spell, and what follows them. -/
def natural (base value : Nat) : List Char → Nat × List Char
  | [] => (value, [])
  | c :: cs =>
    if isDigitOf base c then natural base (base * value + (digitValue? c).getD 0) cs
    else (value, c :: cs)

/-- The number that digits at the front spell, and what follows them; none without digits. -/
def magnitude? (decimal : Bool) : List Char → Option (Nat × List Char)
  | cs =>
    let hexadecimal (c : Char) (rest : List Char) : Option (Nat × List Char) :=
      if isDigitOf 16 c then some (natural 16 0 (c :: rest)) else none
    let plain : Option (Nat × List Char) :=
      match cs with
      | [] => none
      | c :: _ =>
        let base := if !decimal && c = '0' then 8 else 10
        if isDigitOf base c then some (natural base 0 cs) else none
    match decimal, cs with
    | false, '0' :: 'x' :: c :: rest | false, '0' :: 'X' :: c :: rest =>
      hexadecimal c rest <|> plain
    | _, _ => plain

/-- A number that a text begins with. -/
structure LeadingNumber where
  isNegative : Bool
  magnitude : Nat
  /-- What follows the number. -/
  rest : List Char

/-- The number that a text begins with, if it begins with one. -/
def leadingNumber? (decimal : Bool) (cs : List Char) : Option LeadingNumber :=
  let cs := cs.dropWhile isNumberBlank
  let (isNegative, digits) := match cs with
    | '-' :: rest => (true, rest)
    | '+' :: rest => (false, rest)
    | _ => (false, cs)
  (magnitude? decimal digits).map fun (magnitude, rest) => { isNegative, magnitude, rest }

namespace LeadingNumber

def value (n : LeadingNumber) : Int :=
  if n.isNegative then -(n.magnitude : Int) else n.magnitude

def clamped (n : LeadingNumber) : Int :=
  max minInteger (min maxInteger n.value)

end LeadingNumber

/-- The whole number that a text consists of. A text of nothing but blanks is zero where numbers
need not be decimal. -/
def integer? (decimal : Bool) (s : String) : Option Int :=
  match leadingNumber? decimal s.toList with
  | none =>
    if !decimal && s.toList.all isNumberBlank then some 0 else none
  | some n =>
    if n.rest.all isNumberBlank && n.clamped = n.value then some n.value else none

/-- The natural number that a text consists of, if it is not beyond what 32 bits hold. -/
def natural? (s : String) : Option Nat :=
  match integer? true s with
  | some n => if 0 ≤ n ∧ n ≤ Int32.maxValue.toInt then some n.toNat else none
  | none => none

end CodeIndex.Shell
