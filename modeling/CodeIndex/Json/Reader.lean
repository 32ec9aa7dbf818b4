import CodeIndex.Json.Event
import CodeIndex.Json.Value

/-! # Reading JSON values

Of two fields with one name in an object the later one stands, and the fields are kept in the
order of their names.
-/

namespace CodeIndex.Json

open Text

namespace Value

/-- An array or an object that is being read. -/
inductive Frame where
  /-- The items so far, in reverse. -/
  | array (items : List Value)
  | object (fields : List (String × Value)) (name : String)

structure Build where
  frames : List Frame := []
  result : Option Value := none

namespace Build

def deliver (b : Build) (v : Value) : Build :=
  match b.frames with
  | [] => { b with result := some v }
  | .array items :: frames => { b with frames := .array (v :: items) :: frames }
  | .object fields name :: frames =>
    { b with frames := .object (insertField name v fields) name :: frames }

def step (b : Build) : Event → Except Problem Build
  | .null => .ok (b.deliver .null)
  | .bool x => .ok (b.deliver (.bool x))
  | .number n => do return b.deliver (.number (← readNumber n))
  | .string raw => do return b.deliver (.string (← readString raw))
  | .openArray => .ok { b with frames := .array [] :: b.frames }
  | .openObject => .ok { b with frames := .object [] "" :: b.frames }
  | .closeArray | .closeObject =>
    match b.frames with
    | [] => .error .malformed
    | .array items :: frames => .ok ({ b with frames }.deliver (.array items.reverse))
    | .object fields _ :: frames => .ok ({ b with frames }.deliver (.object fields))
  | .key raw => do
    let name ← readString raw
    match b.frames with
    | .object fields _ :: frames => return { b with frames := .object fields name :: frames }
    | _ => .error .malformed
  | .comma => .ok b

end Build

/-- Reads the value that octets spell. -/
def read (s : Octets) : Except Problem Value := do
  let stream := events s
  let built ← stream.events.foldlM Build.step {}
  match stream.ending, built.result with
  | .complete, some v => return v
  | .complete, none | .unfinished, _ => .error .unfinished
  | .malformed, _ => .error .malformed
  | .cut (.cutString raw), _ => .error (problemOfCutString raw)
  | .cut _, _ => .error .unfinished

mutual

def depth : Value → Nat
  | .array xs => depthItems xs + 1
  | .object fields => depthFields fields + 1
  | _ => 0

def depthItems : List Value → Nat
  | [] => 0
  | x :: xs => max x.depth (depthItems xs)

def depthFields : List (String × Value) → Nat
  | [] => 0
  | (_, x) :: fields => max x.depth (depthFields fields)

end

/-! ## Values of given types -/

def string? : Value → Option String
  | .string s => some s
  | _ => none

def bool? : Value → Option Bool
  | .bool b => some b
  | _ => none

/-- An integer, which has neither a point nor an exponent. -/
def int? : Value → Option Int
  | .number (.int n) => some n
  | _ => none

def natBelow? (bound : Nat) (v : Value) : Option Nat :=
  match v.int? with
  | some (.ofNat n) => if n < bound then some n else none
  | _ => none

def word? (v : Value) : Option UInt32 :=
  (v.natBelow? UInt32.size).map UInt32.ofNat

/-- A count, which has 64 bits. -/
def count? (v : Value) : Option Nat :=
  v.natBelow? UInt64.size

/-- An identifier, a signed integer of 64 bits. -/
def id? (v : Value) : Option Int :=
  match v.int? with
  | some n => if n ≤ Int64.maxValue.toInt then some n else none
  | none => none

def items? : Value → Option (List Value)
  | .array xs => some xs
  | _ => none

/-- A value that may be absent: null counts as absence. -/
def optional? (f : Value → Option α) : Value → Option (Option α)
  | .null => some none
  | v => (f v).map some

end Value

end CodeIndex.Json
