import CodeIndex.Error
import CodeIndex.Json.Reader

/-! # Parameters of requests

Parameters are the fields of an object; null is an object without any.
-/

namespace CodeIndex.Params

open Json (Value)

def ensureObject : Value → Except Error Unit
  | .object _ | .null => .ok ()
  | v => .error { cause := .paramsNotObject v.typeName }

def find (params : Value) (name : String) : Except Error Value :=
  match params.field? name with
  | some v => .ok v
  | none => .error { cause := .missingParameter name }

def string (params : Value) (name : String) : Except Error String := do
  match ← find params name with
  | .string s => return s
  | v => .error { cause := .notAString name v.typeName }

/-- A line number, which is an integer of 32 bits and at least one. -/
def line (params : Value) (name : String) : Except Error UInt32 := do
  let v ← find params name
  match v.word? with
  | some n => if n = 0 then .error { cause := .notALine name v } else return n
  | none => .error { cause := .notALine name v }

end CodeIndex.Params
