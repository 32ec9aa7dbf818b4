import CodeIndex.Decimal.Rounded
import CodeIndex.Decimal.Spelled

/-! # Cells of tables

A column of texts turns numbers into texts. A column of numbers turns a text that spells a number,
and a float that is whole, into an integer; it keeps anything else as it is, but what it keeps is
no number to those who read it.
-/

namespace CodeIndex

/-- What is written into a cell. -/
inductive Cell where
  | null
  | integer (n : Int)
  | real (x : Float)
  | text (s : String)
deriving Repr

/-- The types of what a column of numbers may hold besides integers. -/
inductive CellType where
  | real
  | text
deriving DecidableEq, Repr

def CellType.word : CellType → String
  | .real => "Real"
  | .text => "Text"

/-- A cell in a column of numbers. -/
inductive NumberCell where
  | number (n : Int)
  | misfit (type : CellType)
deriving DecidableEq, Repr

namespace NumberCell

/-- The integer that a float is. -/
def whole? (x : Float) : Option Int :=
  match Decimal.Fraction.ofFloat? x with
  | none => none
  | some f =>
    if f.numerator % f.denominator ≠ 0 then none
    else
      let n : Int := f.numerator / f.denominator
      if n ≤ Int64.maxValue.toInt then some (if x < 0 then -n else n) else none

def ofReal (x : Float) : NumberCell :=
  match whole? x with
  | some n => .number n
  | none => .misfit .real

def isSpace (c : Char) : Bool :=
  c == ' ' || ('\t' ≤ c && c ≤ '\r')

/-- The number that a text spells, with blanks around it. -/
def ofText (s : String) : NumberCell :=
  let cs := ((s.toList.dropWhile isSpace).reverse.dropWhile isSpace).reverse
  let (negative, cs) := match cs with
    | '-' :: cs => (true, cs)
    | '+' :: cs => (false, cs)
    | cs => (false, cs)
  match Decimal.Spelled.take? cs with
  | some (d, []) =>
    let n : Int := Decimal.Spelled.natOf d.digits
    let signed := if negative then -n else n
    let fits := Int64.minValue.toInt ≤ signed && signed ≤ Int64.maxValue.toInt
    if cs.all Char.isDigit && fits then .number signed
    else ofReal (if negative then -d.float else d.float)
  | _ => .misfit .text

end NumberCell

namespace Cell

/-- The cell in a column of numbers, none of which is empty. -/
def numberCell? : Cell → Option NumberCell
  | .null => none
  | .integer n => some (.number n)
  | .real x => some (.ofReal x)
  | .text s => some (.ofText s)

def number? (c : Cell) : Option Int :=
  match c.numberCell? with
  | some (.number n) => some n
  | _ => none

def precision : Nat := 15

def realText (x : Float) : String :=
  match Decimal.Fraction.ofFloat? x with
  | none => if x < 0 then "-Inf" else "Inf"
  | some f =>
    let d := f.toDigits (precision - 1)
    let sign := if x < 0 then ['-'] else []
    let ds := Decimal.digitText (Decimal.dropZeros d.digits)
    let ds := if ds.isEmpty then ['0'] else ds
    let pointed (whole decimals : List Char) : List Char :=
      whole ++ '.' :: (if decimals.isEmpty then ['0'] else decimals)
    let body :=
      if d.exponent < -4 ∨ (precision : Int) < d.exponent then
        pointed (ds.take 1) (ds.drop 1) ++ 'e' :: Decimal.exponentText d.exponent
      else
        match d.exponent with
        | .ofNat e =>
          let ds := ds ++ List.replicate (e + 1 - ds.length) '0'
          pointed (ds.take (e + 1)) (ds.drop (e + 1))
        | .negSucc e => pointed ['0'] (List.replicate e '0' ++ ds)
    String.ofList (sign ++ body)

def text? : Cell → Option String
  | .integer n => some (toString n)
  | .real x => some (realText x)
  | .text s => some s
  | .null => none

def nullable? : Cell → Option (Option String)
  | .null => some none
  | cell => cell.text?.map some

end Cell

end CodeIndex
