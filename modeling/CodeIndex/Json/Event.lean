import CodeIndex.Json.Escape
import CodeIndex.Json.Number
import CodeIndex.Json.Problem

/-! # Events of JSON texts

The grammar of brackets, commas and colons turns tokens into events, up to the first place at
which the text stops being JSON. Whoever follows the events may object to one of them before that
place is reached.
-/

namespace CodeIndex.Json

open Text

inductive Event where
  | null
  | bool (b : Bool)
  | number (n : Numeral)
  | string (raw : Octets)
  | openArray
  | closeArray
  | openObject
  | closeObject
  | key (raw : Octets)
  /-- A comma between two values or two fields. -/
  | comma
deriving DecidableEq, Repr

/-- How a text ends. -/
inductive Ending where
  | complete
  | unfinished
  | malformed
  /-- A token that the end of the text interrupts. -/
  | cut (t : Token)
deriving DecidableEq, Repr

structure EventStream where
  events : List Event
  ending : Ending
deriving Repr

inductive Bracket where
  | array
  | object
deriving DecidableEq, Repr

/-- What may come next. -/
inductive Expected where
  | value
  /-- A first item or the end of the array. -/
  | item
  /-- A first name or the end of the object. -/
  | field
  | name
  | colon
  /-- A comma or the end of what encloses the value just read. -/
  | separator
deriving DecidableEq, Repr

namespace EventStream

/-- One step of the grammar: the event of a token and what encloses and may follow it. -/
def step (enclosing : List Bracket) (expected : Expected) (t : Token) :
    Except Ending (Option Event × List Bracket × Expected) :=
  match expected, enclosing, t with
  | .item, .array :: enclosing, .closeArray => .ok (some .closeArray, enclosing, .separator)
  | .value, enclosing, t | .item, enclosing, t =>
    match t with
    | .null => .ok (some .null, enclosing, .separator)
    | .bool b => .ok (some (.bool b), enclosing, .separator)
    | .number n => .ok (some (.number n), enclosing, .separator)
    | .string raw => .ok (some (.string raw), enclosing, .separator)
    | .openArray => .ok (some .openArray, .array :: enclosing, .item)
    | .openObject => .ok (some .openObject, .object :: enclosing, .field)
    | .cutWord | .cutNumber | .cutString _ => .error (.cut t)
    | _ => .error .malformed
  | .field, .object :: enclosing, .closeObject => .ok (some .closeObject, enclosing, .separator)
  | .field, enclosing, .string raw | .name, enclosing, .string raw =>
    .ok (some (.key raw), enclosing, .colon)
  | .field, _, .cutString raw | .name, _, .cutString raw => .error (.cut (.cutString raw))
  | .colon, enclosing, .colon => .ok (none, enclosing, .value)
  | .separator, .array :: enclosing, .comma => .ok (some .comma, .array :: enclosing, .value)
  | .separator, .array :: enclosing, .closeArray => .ok (some .closeArray, enclosing, .separator)
  | .separator, .object :: enclosing, .comma => .ok (some .comma, .object :: enclosing, .name)
  | .separator, .object :: enclosing, .closeObject => .ok (some .closeObject, enclosing, .separator)
  | _, _, _ => .error .malformed

/-- Follows the grammar behind the events in `read`, which are in reverse. -/
def follow (read : List Event) (enclosing : List Bracket) (expected : Expected) :
    List Token → EventStream
  | [] =>
    match expected, enclosing with
    | .separator, [] => ⟨read.reverse, .complete⟩
    | _, _ => ⟨read.reverse, .unfinished⟩
  | t :: ts =>
    match step enclosing expected t with
    | .ok (some e, enclosing, expected) => follow (e :: read) enclosing expected ts
    | .ok (none, enclosing, expected) => follow read enclosing expected ts
    | .error ending => ⟨read.reverse, ending⟩

def ofTokens (ts : List Token) : EventStream :=
  follow [] [] .value ts

end EventStream

def events (s : Octets) : EventStream :=
  .ofTokens (tokens s)

/-- The problem of a string that is decoded and that the end of the text may interrupt. -/
def problemOfCutString (raw : Octets) : Problem :=
  match unescape raw with
  | .bad => .malformed
  | .text _ | .unfinished => .unfinished

def readString (raw : Octets) : Except Problem String :=
  match decodeString? raw with
  | some s => .ok s
  | none => .error .malformed

def readNumber (n : Numeral) : Except Problem Number :=
  match n.value? with
  | some x => .ok x
  | none => .error .malformed

end CodeIndex.Json
