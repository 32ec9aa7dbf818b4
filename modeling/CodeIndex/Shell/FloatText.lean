import CodeIndex.Decimal.Rounded
import CodeIndex.Decimal.Spelled
import CodeIndex.Shell.Number

/-! # Floats in formats

A float is written with a number of digits behind the point, with an exponent, in whichever of these
forms suits it, or in hexadecimal digits; and it is read from any of these forms.
-/

namespace CodeIndex.Shell.FloatText

open Decimal (Fraction)

/-- The forms in which a float is written. -/
inductive Form where
  | fixed
  | exponent
  | general
  | hexadecimal
deriving DecidableEq, Repr

/-- The digits behind the point, and the point if they are any or it is kept anyway. -/
def behindPoint (keepsPoint : Bool) (ds : List Char) : List Char :=
  if ds.isEmpty && !keepsPoint then [] else '.' :: ds

def fixed (keepsPoint : Bool) (f : Fraction) (places : Nat) : List Char :=
  let (whole, decimals) := Decimal.fixedText f places
  whole ++ behindPoint keepsPoint decimals

def exponent (keepsPoint : Bool) (f : Fraction) (places : Nat) : List Char :=
  let s := f.toDigits places
  let ds := Decimal.digitText s.digits
  ds.take 1 ++ behindPoint keepsPoint (ds.drop 1) ++ 'e' :: Decimal.exponentText s.exponent

def withoutZeros (cs : List Char) : List Char :=
  if cs.contains '.' then
    let kept := cs.reverse.dropWhile (· == '0')
    (if kept.head? == some '.' then kept.drop 1 else kept).reverse
  else cs

/-- The form with `precision` digits in all that suits a fraction: no exponent where the point
stands among the digits or a little in front of them. -/
def general (keepsZeros : Bool) (f : Fraction) (precision : Nat) : List Char :=
  let precision := max precision 1
  let e := (f.toDigits (precision - 1)).exponent
  if -4 ≤ e ∧ e < precision then
    let cs := fixed keepsZeros f ((precision : Int) - 1 - e).toNat
    if keepsZeros then cs else withoutZeros cs
  else
    let cs := exponent keepsZeros f (precision - 1)
    if keepsZeros then cs
    else
      let (digits, power) := cs.span (· ≠ 'e')
      withoutZeros digits ++ power

def hexDigits (n width : Nat) : List Char :=
  let ds := Nat.toDigits 16 n
  List.replicate (width - ds.length) '0' ++ ds

/-- The form in hexadecimal digits, with as many of them as there are or a given number. -/
def hexadecimal (keepsPoint : Bool) (x : Float) (precision : Option Nat) : List Char :=
  let (fraction, biased) := Decimal.fractionAndExponent x
  let significand := if biased = 0 then fraction else (1 <<< 52) + fraction
  let power : Int := if significand = 0 then 0 else ((max biased 1 : Nat) : Int) - 1023
  let ds := hexDigits fraction 13
  let (whole, decimals) := match precision with
    | none =>
      (significand >>> 52, (ds.reverse.dropWhile (· == '0')).reverse)
    | some n =>
      if n < 13 then
        let rounded := Fraction.round ⟨significand, 1 <<< (4 * (13 - n))⟩
        let unit := 1 <<< (4 * n)
        (rounded / unit, if n = 0 then [] else hexDigits (rounded % unit) n)
      else (significand >>> 52, ds ++ List.replicate (n - 13) '0')
  "0x".toList ++ Nat.toDigits 16 whole ++ behindPoint keepsPoint decimals ++ 'p' ::
    (if power < 0 then '-' else '+') :: Nat.toDigits 10 power.natAbs

/-- The digits of a float's magnitude; `full` keeps the point and what is behind it. -/
def digits (form : Form) (full : Bool) (precision : Option Nat) (x : Float) : List Char :=
  match Fraction.ofFloat? x with
  | none => (if x.isNaN then "nan" else "inf").toList
  | some f =>
    match form with
    | .fixed => fixed full f (precision.getD 6)
    | .exponent => exponent full f (precision.getD 6)
    | .general => general full f (precision.getD 6)
    | .hexadecimal => hexadecimal full x precision

/-! ## Reading -/

/-- A float at the front of a text: its magnitude and its sign. -/
structure Leading where
  isNegative : Bool := false
  value : Float
  rest : List Char
  /-- Whether the float is too large or too small to be kept. -/
  isOutOfRange : Bool := false

def afterWord? (word : String) (cs : List Char) : Option (List Char) :=
  if (cs.take word.length).map Char.toLower = word.toList then some (cs.drop word.length) else none

/-- The float that is nearest to a number of halves, quarters and so on. -/
def ofBinary (n : Nat) (power : Int) : Float :=
  let surplus := (Nat.log2 n : Int) - 80
  if 0 < surplus then
    let kept := n >>> surplus.toNat
    let kept := if kept <<< surplus.toNat = n then kept else kept ||| 1
    (Float.ofScientific kept false 0).scaleB (power + surplus)
  else (Float.ofScientific n false 0).scaleB power

def hexadecimal? (cs : List Char) : Option Leading :=
  let (whole, rest) := cs.span (isDigitOf 16)
  let (decimals, rest) := match rest with
    | '.' :: rest => rest.span (isDigitOf 16)
    | _ => ([], rest)
  if whole.isEmpty && decimals.isEmpty then none
  else
    let (power, rest) : Int × List Char := match rest with
      | 'p' :: after | 'P' :: after =>
        let (sign, digits) : Int × List Char := match after with
          | '-' :: ds => (-1, ds)
          | '+' :: ds => (1, ds)
          | ds => (1, ds)
        match magnitude? true digits with
        | some (n, rest) => (sign * n, rest)
        | none => (0, rest)
      | _ => (0, rest)
    let n := (natural 16 0 (whole ++ decimals)).1
    let value := ofBinary n (power - 4 * decimals.length)
    some { value, rest, isOutOfRange := value.isInf || (value == 0 && n ≠ 0) }

/-- A float that is not negative at the front of a text. -/
def unsigned? (cs : List Char) : Option Leading :=
  match afterWord? "infinity" cs, afterWord? "inf" cs, afterWord? "nan" cs, afterWord? "0x" cs with
  | some rest, _, _, _ | none, some rest, _, _ => some { value := 1 / 0, rest }
  | none, none, some rest, _ =>
    let rest := match rest.head?, rest.drop 1 |>.span isTag with
      | some '(', (_, ')' :: after) => after
      | _, _ => rest
    some { value := 0 / 0, rest }
  | none, none, none, some rest =>
    match hexadecimal? rest with
    | some n => some n
    | none => some { value := 0, rest := cs.drop 1 }
  | none, none, none, none =>
    (Decimal.Spelled.take? cs).map fun (d, rest) =>
      let value := d.float
      let isTiny := value < 2.2250738585072014e-308 && d.digits.any (· ≠ 0)
      { value, rest, isOutOfRange := value.isInf || isTiny }
where
  isTag (c : Char) : Bool := c.isAlphanum || c == '_'

def leading? (cs : List Char) : Option Leading :=
  match cs.dropWhile isNumberBlank with
  | '-' :: rest => (unsigned? rest).map fun n => { n with isNegative := true }
  | '+' :: rest => unsigned? rest
  | rest => unsigned? rest

end CodeIndex.Shell.FloatText
