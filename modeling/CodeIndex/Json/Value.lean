import CodeIndex.Decimal.Shortest
import CodeIndex.Json.Number

/-! # JSON values and how they are written

Compact text has no blanks. Indented text has one item a line, two blanks a level, and the fields
of every object in the order of their names.
-/

namespace CodeIndex.Json

inductive Value where
  | null
  | bool (b : Bool)
  | number (n : Number)
  | string (s : String)
  | array (items : List Value)
  /-- Fields in their order; no name occurs twice. -/
  | object (fields : List (String × Value))
deriving Repr, BEq

namespace Value

def int (n : Int) : Value := .number (.int n)

def nat (n : Nat) : Value := .int n

def typeName : Value → String
  | .null => "null"
  | .bool _ => "boolean"
  | .number _ => "number"
  | .string _ => "string"
  | .array _ => "array"
  | .object _ => "object"

def field? (v : Value) (name : String) : Option Value :=
  match v with
  | .object fields => fields.lookup name
  | _ => none

end Value

/-! ## Strings -/

def hexDigit (n : Nat) : Char :=
  if n < 10 then Char.ofNat (48 + n) else Char.ofNat (87 + n)

/-- A character inside quotes: quotes, backslashes and control characters are escaped. -/
def escapeChar (c : Char) : List Char :=
  match c with
  | '"' => ['\\', '"']
  | '\\' => ['\\', '\\']
  | '\n' => ['\\', 'n']
  | '\r' => ['\\', 'r']
  | '\t' => ['\\', 't']
  | '\x08' => ['\\', 'b']
  | '\x0c' => ['\\', 'f']
  | c =>
    if c.toNat < 0x20 then ['\\', 'u', '0', '0', hexDigit (c.toNat / 16), hexDigit (c.toNat % 16)]
    else [c]

def quote (s : String) : String :=
  String.ofList ('"' :: (s.toList.flatMap escapeChar ++ ['"']))

/-! ## Numbers -/

def digitChar (d : Nat) : Char :=
  Char.ofNat (48 + d)

/-- The text of a positive decimal: plain when its exponent lies between `-5` and `15`, with at
least one digit after the point, and else with an exponent that shows its sign. -/
def decimalText (x : Decimal.Scientific) : String :=
  let ds := x.digits.map digitChar
  if 0 ≤ x.exponent ∧ x.exponent ≤ 15 then
    let places := x.exponent.toNat + 1
    let whole := (ds ++ List.replicate (places - ds.length) '0').take places
    let decimals := if ds.length ≤ places then ['0'] else ds.drop places
    String.ofList (whole ++ '.' :: decimals)
  else if -5 ≤ x.exponent ∧ x.exponent < 0 then
    String.ofList ('0' :: '.' :: (List.replicate (-x.exponent - 1).toNat '0' ++ ds))
  else
    let mantissa := match ds with
      | [] => []
      | [d] => [d]
      | d :: rest => d :: '.' :: rest
    let sign := if x.exponent < 0 then '-' else '+'
    String.ofList (mantissa ++ ['e', sign]) ++ toString x.exponent.natAbs

/-- The text of a float. What is not finite has no text of its own and is written as null. -/
def floatText (x : Float) : String :=
  let negative := x.toBits >>> 63 == 1
  match Decimal.shortest? x with
  | some d => (if negative then "-" else "") ++ decimalText d
  | none => if x == 0 then (if negative then "-0.0" else "0.0") else "null"

def Number.text : Number → String
  | .int n => toString n
  | .float x => floatText x

/-! ## Compact text -/

namespace Value

mutual

def compact : Value → String
  | .null => "null"
  | .bool true => "true"
  | .bool false => "false"
  | .number n => n.text
  | .string s => quote s
  | .array [] => "[]"
  | .array (x :: xs) => "[" ++ x.compact ++ compactItems xs ++ "]"
  | .object [] => "\x7b\x7d"
  | .object ((name, x) :: fields) =>
    "\x7b" ++ quote name ++ ":" ++ x.compact ++ compactFields fields ++ "\x7d"

def compactItems : List Value → String
  | [] => ""
  | x :: xs => "," ++ x.compact ++ compactItems xs

def compactFields : List (String × Value) → String
  | [] => ""
  | (name, x) :: fields => "," ++ quote name ++ ":" ++ x.compact ++ compactFields fields

end

/-! ## Indented text -/

/-- Inserts a field in the order of names, in place of one of the same name. -/
def insertField (name : String) (v : Value) : List (String × Value) → List (String × Value)
  | [] => [(name, v)]
  | (other, w) :: fields =>
    if name < other then (name, v) :: (other, w) :: fields
    else if name = other then (name, v) :: fields
    else (other, w) :: insertField name v fields

mutual

/-- The same value with the fields of every object in the order of their names. -/
def sorted : Value → Value
  | .array xs => .array (sortedItems xs)
  | .object fields => .object (sortedFields fields)
  | v => v

def sortedItems : List Value → List Value
  | [] => []
  | x :: xs => x.sorted :: sortedItems xs

def sortedFields : List (String × Value) → List (String × Value)
  | [] => []
  | (name, x) :: fields => insertField name x.sorted (sortedFields fields)

end

def lineStart (depth : Nat) : String :=
  "\n" ++ String.ofList (List.replicate (2 * depth) ' ')

mutual

def indentedAt (depth : Nat) : Value → String
  | .array [] => "[]"
  | .array (x :: xs) =>
    "[" ++ lineStart (depth + 1) ++ x.indentedAt (depth + 1) ++ indentedItems (depth + 1) xs
      ++ lineStart depth ++ "]"
  | .object [] => "\x7b\x7d"
  | .object ((name, x) :: fields) =>
    "\x7b" ++ lineStart (depth + 1) ++ quote name ++ ": " ++ x.indentedAt (depth + 1)
      ++ indentedFields (depth + 1) fields ++ lineStart depth ++ "\x7d"
  | v => v.compact

def indentedItems (depth : Nat) : List Value → String
  | [] => ""
  | x :: xs => "," ++ lineStart depth ++ x.indentedAt depth ++ indentedItems depth xs

def indentedFields (depth : Nat) : List (String × Value) → String
  | [] => ""
  | (name, x) :: fields =>
    "," ++ lineStart depth ++ quote name ++ ": " ++ x.indentedAt depth
      ++ indentedFields depth fields

end

def indented (v : Value) : String :=
  v.sorted.indentedAt 0

end Value

end CodeIndex.Json
