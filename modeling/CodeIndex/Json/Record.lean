import CodeIndex.Json.Reader

/-! # Records as JSON values

A record is an object with a field for each of its parts, or an array of the parts in their order.
-/

namespace CodeIndex.Json

/-- The form of a record. -/
structure RecordForm where
  /-- The names of the parts, in their order. -/
  names : List String
  /-- The number of parts behind which an array may end. -/
  least : Nat
  /-- Whether an object may have fields of other names. -/
  extensible : Bool := true

abbrev Fields := List (String × Value)

def RecordForm.fields? (form : RecordForm) : Value → Option Fields
  | .object fields =>
    if form.extensible || fields.all fun (name, _) => form.names.contains name then some fields
    else none
  | .array items =>
    if form.least ≤ items.length ∧ items.length ≤ form.names.length then
      some (form.names.zip items)
    else none
  | _ => none

namespace Fields

def required (fields : Fields) (name : String) (read : Value → Option α) : Option α :=
  (fields.lookup name).bind read

/-- A part that may be left out or null. -/
def optional (fields : Fields) (name : String) (read : Value → Option α) : Option (Option α) :=
  match fields.lookup name with
  | none => some none
  | some v => v.optional? read

/-- A part that has a value of its own when it is left out. -/
def withDefault (fields : Fields) (name : String) (read : Value → Option α) (default : α) :
    Option α :=
  match fields.lookup name with
  | none => some default
  | some v => read v

end Fields

namespace Value

def list? (read : Value → Option α) (v : Value) : Option (List α) := do
  (← v.items?).mapM read

def ofOption (write : α → Value) : Option α → Value
  | none => .null
  | some x => write x

/-- A field that is left out when there is nothing to write. -/
def fieldIfAny (name : String) (write : α → Value) : Option α → List (String × Value)
  | none => []
  | some x => [(name, write x)]

end Value

end CodeIndex.Json
