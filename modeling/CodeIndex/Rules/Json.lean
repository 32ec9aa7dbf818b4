import CodeIndex.Rules
import CodeIndex.Settings.Format

/-! # Rules as JSON and YAML values -/

namespace CodeIndex

open Json (Value)
open SettingsFormat

namespace NodeRule

def form : Json.RecordForm where
  names := ["kind", "name_child"]
  least := 1
  extensible := false

def toJson (r : NodeRule) : Value :=
  .object [("kind", .string r.kind), ("name_child", .nat r.nameChild)]

def decode? [SettingsFormat ν] (v : ν) : Option NodeRule := do
  let fields ← fields? form v
  return {
    kind := ← required fields "kind" string?
    nameChild := ← withDefault fields "name_child" (natBelow? UInt64.size) 0 }

end NodeRule

namespace LanguageRules

def form : Json.RecordForm where
  names :=
    ["name", "type_definitions", "callables", "singleton_callables", "constant_references", "calls"]
  least := 3
  extensible := false

def rulesJson (rules : List NodeRule) : Value :=
  .array (rules.map NodeRule.toJson)

def toJson (r : LanguageRules) : Value :=
  .object
    [("name", .string r.name), ("type_definitions", rulesJson r.typeDefinitions),
      ("callables", rulesJson r.callables),
      ("singleton_callables", rulesJson r.singletonCallables),
      ("constant_references", rulesJson r.constantReferences), ("calls", rulesJson r.calls)]

def decode? [SettingsFormat ν] (v : ν) : Option LanguageRules := do
  let fields ← fields? form v
  let rules : ν → Option (List NodeRule) := list? NodeRule.decode?
  return {
    name := ← required fields "name" string?
    typeDefinitions := ← required fields "type_definitions" rules
    callables := ← required fields "callables" rules
    singletonCallables := ← withDefault fields "singleton_callables" rules []
    constantReferences := ← withDefault fields "constant_references" rules []
    calls := ← withDefault fields "calls" rules [] }

end LanguageRules

end CodeIndex
