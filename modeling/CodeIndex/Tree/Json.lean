import CodeIndex.Json.Reader
import CodeIndex.Tree.Address
import CodeIndex.Tree.Node

/-! # Trees as JSON values

A literal is a bare scalar. A branch is an object whose `kind` and `location` are left out when it
has none; its `children` are always written.
-/

namespace CodeIndex

open Json (Value)

namespace Span

def toJson (s : Span) : Value :=
  .object [("start_line", .nat s.start.toNat), ("end_line", .nat s.stop.toNat)]

/-- A span is an object with both bounds, or an array of exactly both. -/
def ofJson? : Value → Option Span
  | .object fields => do
    return ⟨← (← fields.lookup "start_line").word?, ← (← fields.lookup "end_line").word?⟩
  | .array [start, stop] => do return ⟨← start.word?, ← stop.word?⟩
  | _ => none

end Span

namespace Address

def toJson (a : Address) : Value := .string a.text

def ofJson? (v : Value) : Option Address := do
  (parse (← v.string?)).toOption

end Address

namespace Literal

/-- An integer of a JSON text, signed where it fits. -/
def ofInt (n : Int) : Literal :=
  if n ≤ Int64.maxValue.toInt then .int (Int64.ofInt n) else .large (UInt64.ofNat n.toNat)

def ofNumber : Json.Number → Literal
  | .int n => ofInt n
  | .float x => .float x

def toJson : Literal → Value
  | .nil => .null
  | .bool b => .bool b
  | .int n => .int n.toInt
  | .large n => .nat n.toNat
  | .float x => .number (.float x)
  | .str s => .string s

end Literal

namespace Node

/-- The fields of a branch in the order in which they are written. -/
def fieldsJson (kind : Option String) (children : List Value) (location : Option Span) :
    List (String × Value) :=
  (kind.toList.map fun k => ("kind", .string k)) ++ [("children", .array children)]
    ++ location.toList.map fun s => ("location", s.toJson)

mutual

def toJson : Node → Value
  | .branch kind children location => .object (fieldsJson kind (toJsons children) location)
  | .literal value => value.toJson

def toJsons : List Node → List Value
  | [] => []
  | n :: ns => n.toJson :: toJsons ns

end

/-- The kind of a branch: absent, null or a string. -/
def kindOfJson? : Option Value → Option (Option String)
  | none => some none
  | some v => v.optional? Value.string?

def locationOfJson? : Option Value → Option (Option Span)
  | none => some none
  | some v => v.optional? Span.ofJson?

mutual

/-- The tree that a JSON value stands for. An array is no node, and the children of a branch are
an array where they are given. -/
def ofJson? : Value → Option Node
  | .null => some (.literal .nil)
  | .bool b => some (.literal (.bool b))
  | .number n => some (.literal (.ofNumber n))
  | .string s => some (.literal (.str s))
  | .array _ => none
  | .object fields => do
    let children ← childrenOfJson? fields
    return .branch (← kindOfJson? (fields.lookup "kind")) children
      (← locationOfJson? (fields.lookup "location"))

/-- The children among the fields of an object, the first of that name. -/
def childrenOfJson? : List (String × Value) → Option (List Node)
  | [] => some []
  | (name, v) :: fields => if name = "children" then itemsOfJson? v else childrenOfJson? fields

def itemsOfJson? : Value → Option (List Node)
  | .array items => ofJsons? items
  | _ => none

def ofJsons? : List Value → Option (List Node)
  | [] => some []
  | v :: vs => do return (← ofJson? v) :: (← ofJsons? vs)

end

end Node

end CodeIndex
