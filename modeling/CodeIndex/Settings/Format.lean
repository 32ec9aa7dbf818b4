import CodeIndex.Json.Record
import CodeIndex.Yaml.Value

/-! # Formats of settings

Settings are given as JSON values or as YAML values, and both are read through the few questions
that this class asks. A YAML list or record may be null for having nothing in it, tags on YAML
values count for nothing, and a YAML record is always a mapping.
-/

namespace CodeIndex

/-- Values that settings can be read from. -/
class SettingsFormat (ν : Type) where
  string? : ν → Option String
  bool? : ν → Option Bool
  /-- An integer below a bound that is not negative. -/
  natBelow? : Nat → ν → Option Nat
  items? : ν → Option (List ν)
  isNull : ν → Bool
  /-- The parts of a record of a form. -/
  fields? : Json.RecordForm → ν → Option (List (String × ν))
  /-- The parts of a record whose further parts, given by their names, depend on its `kind`. -/
  kindedFields? : (String → List String) → ν → Option (String × Json.Fields)

namespace SettingsFormat

variable {ν : Type} [SettingsFormat ν]

def list? (read : ν → Option α) (v : ν) : Option (List α) := do
  (← items? v).mapM read

def required (fields : List (String × ν)) (name : String) (read : ν → Option α) : Option α :=
  (fields.lookup name).bind read

/-- A part that has a value of its own when it is left out. -/
def withDefault (fields : List (String × ν)) (name : String) (read : ν → Option α) (default : α) :
    Option α :=
  match fields.lookup name with
  | none => some default
  | some v => read v

/-- A part that may be left out or null. -/
def optional (fields : List (String × ν)) (name : String) (read : ν → Option α) :
    Option (Option α) :=
  match fields.lookup name with
  | none => some none
  | some v => if isNull v then some none else (read v).map some

end SettingsFormat

/-! ## JSON -/

namespace Json.Value

/-- The kind of a record and its further parts: an object has a field for the kind, and an array
begins with it. -/
def kindedFields? (names : String → List String) : Value → Option (String × Fields)
  | .object fields => do return (← (← fields.lookup "kind").string?, fields)
  | .array (.string kind :: parts) =>
    if parts.length ≤ (names kind).length then some (kind, (names kind).zip parts) else none
  | _ => none

end Json.Value

instance : SettingsFormat Json.Value where
  string? := Json.Value.string?
  bool? := Json.Value.bool?
  natBelow? := Json.Value.natBelow?
  items? := Json.Value.items?
  isNull v := v == .null
  fields? := Json.RecordForm.fields?
  kindedFields? := Json.Value.kindedFields?

/-! ## YAML -/

namespace Yaml.Value

def string? (v : Value) : Option String :=
  match v.untagged with
  | .string s => some s
  | _ => none

def bool? (v : Value) : Option Bool :=
  match v.untagged with
  | .bool b => some b
  | _ => none

def natBelow? (bound : Nat) (v : Value) : Option Nat :=
  match v.untagged with
  | .number (.int (.ofNat n)) => if n < bound then some n else none
  | _ => none

def items? (v : Value) : Option (List Value) :=
  match v.untagged with
  | .sequence items => some items
  | .null => some []
  | _ => none

def isNull : Value → Bool
  | .null => true
  | _ => false

/-- The parts of a record. Its keys are strings, and none of its parts may be given twice. -/
def fields? (form : Json.RecordForm) (v : Value) : Option (List (String × Value)) := do
  let entries ← match v.untagged with
    | .mapping entries => some entries
    | .null => some []
    | _ => none
  let fields ← entries.mapM fun (k, w) => do return (← k.string?, w)
  if ((fields.map (·.1)).filter form.names.contains).Nodup ∧
      (form.extensible || fields.all fun (name, _) => form.names.contains name) then some fields
  else none

mutual

/-- The JSON value without tags that a YAML value stands for. The names of nested fields are not
kept where they are no strings. -/
def untaggedJson? : Value → Option Json.Value
  | .null => some .null
  | .bool b => some (.bool b)
  | .number (.int n) => some (.number (.int n))
  | .number (.float x) => some (.number (.float x))
  | .string s => some (.string s)
  | .sequence items => (untaggedJsons? items).map .array
  | .mapping entries => (untaggedEntries? entries).map .object
  | .tagged .. => none

def untaggedJsons? : List Value → Option (List Json.Value)
  | [] => some []
  | v :: vs => do return (← v.untaggedJson?) :: (← untaggedJsons? vs)

def untaggedEntries? : List (Value × Value) → Option (List (String × Json.Value))
  | [] => some []
  | (k, v) :: es => do
    let k ← k.untaggedJson?
    let v ← v.untaggedJson?
    return (k.string?.getD "", v) :: (← untaggedEntries? es)

end

/-- The name that a key gives to a part: a string, or the number of the part among `names`. -/
def partName? (names : List String) : Value → Option String
  | .string s => some s
  | .number (.int (.ofNat n)) => some (names[n]?.getD "")
  | _ => none

/-- The kind of a record and its further parts. Tags are not allowed anywhere inside. -/
def kindedFields? (names : String → List String) : Value → Option (String × Json.Fields)
  | .mapping entries => do
    let (_, v) ← entries.find? fun (k, _) => k.same (.string "kind")
    let kind ← v.string?
    let fields ← (entries.filter fun (k, _) => !k.same (.string "kind")).mapM fun (k, w) => do
      return (← partName? (names kind) k, ← w.untaggedJson?)
    if ((fields.map (·.1)).filter (names kind).contains).Nodup then some (kind, fields) else none
  | .sequence (v :: items) => do
    let kind ← v.string?
    let parts ← untaggedJsons? items
    if parts.length ≤ (names kind).length then some (kind, (names kind).zip parts) else none
  | _ => none

end Yaml.Value

instance : SettingsFormat Yaml.Value where
  string? := Yaml.Value.string?
  bool? := Yaml.Value.bool?
  natBelow? := Yaml.Value.natBelow?
  items? := Yaml.Value.items?
  isNull := Yaml.Value.isNull
  fields? := Yaml.Value.fields?
  kindedFields? := Yaml.Value.kindedFields?

end CodeIndex
