import CodeIndex.Settings.Basic
import CodeIndex.Settings.Problem
import CodeIndex.Yaml.Printer
import CodeIndex.Yaml.Reader

/-! # Documents of settings

Settings are read from a YAML document that names the version of its schema, and only settings that
make sense are accepted. Those that are accepted can be written as a document that reads as the
same settings.
-/

namespace CodeIndex

namespace Settings

/-! ## Validation -/

def isBadExtension (extension : String) : Bool :=
  extension.isEmpty || extension.startsWith "."

def flaw? (s : Settings) : Option SettingsFlaw :=
  let duplicates := s.language.duplicateKinds
  if s.style.separator.isEmpty then some .emptySeparator
  else if s.style.outermost.isEmpty then some .emptyOutermost
  else if s.extensions.isEmpty then some .noExtensions
  else
    match s.extensions.find? isBadExtension with
    | some extension => some (.badExtension extension)
    | none =>
      if !duplicates.isEmpty then some (.ambiguousKinds duplicates)
      else if s.language.typeDefinitions.isEmpty && s.language.callables.isEmpty then
        some (.noDefinitions s.language.name)
      else
        match s.treeSource with
        | .sidecar suffix => if suffix.isEmpty then some .emptySuffix else none
        | .command argv => if argv.isEmpty then some .emptyCommand else none

def validate (s : Settings) : Except SettingsProblem Unit :=
  match s.flaw? with
  | some reason => .error (.flaw reason)
  | none =>
    match s.threads with
    | some n =>
      if n = 0 ∨ SettingsProblem.maxThreads < n then .error (.threadsOutOfRange n) else .ok ()
    | none => .ok ()

/-! ## Documents -/

def documentVersion? (v : Yaml.Value) : Option Yaml.Value :=
  match v.untagged with
  | .mapping entries => (entries.find? fun (k, _) => k.same (.string "version")).map (·.2)
  | _ => none

/-- Refuses documents of other versions of the schema. A version beyond 32 bits is taken for the
greatest one. -/
def checkVersion (v : Yaml.Value) : Except SettingsProblem Unit :=
  match documentVersion? v with
  | none => .error .missingVersion
  | some version =>
    match version.natBelow? UInt64.size with
    | none => .error (.flaw .versionNotInteger)
    | some n =>
      if n = SettingsProblem.supportedVersion then .ok ()
      else .error (.unsupportedVersion (min n (UInt32.size - 1)))

/-- The settings that a YAML value gives, after a check of its version. -/
def ofValue (v : Yaml.Value) : Except SettingsProblem Settings := do
  checkVersion v
  match decode? v with
  | none => .error (.document .mismatched)
  | some s =>
    s.validate
    return s

/-- The settings that a document gives. -/
def ofYaml (text : String) : Except SettingsProblem Settings :=
  match Yaml.Value.read text with
  | .error problem => .error (.document problem)
  | .ok v => ofValue v

def toYaml (s : Settings) : String :=
  Yaml.print s.toJson

end Settings

end CodeIndex
