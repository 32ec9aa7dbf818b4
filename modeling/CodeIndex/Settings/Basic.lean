import CodeIndex.Extraction.ScopeStack
import CodeIndex.Rules.Json

/-! # Settings

What decides which files are indexed, where their trees come from and what is extracted from them.
Whatever is left out has a default made for Ruby.
-/

namespace CodeIndex

open Json (Value)
open SettingsFormat

/-- Where the trees of files come from. -/
inductive TreeSourceSettings where
  /-- A dump beside each file, under the file's name with a suffix. -/
  | sidecar (suffix : String)
  /-- A program that prints the dump of a file. -/
  | command (argv : List String)
deriving DecidableEq, Repr

/-- The suffix of dumps unless another one is given. -/
def TreeSourceSettings.defaultSuffix : String := "ast.json"

structure Settings where
  version : UInt32 := 1
  language : LanguageRules := .ruby
  style : ScopeStyle := {}
  /-- The extensions of the files to be indexed, without the dot. -/
  extensions : List String := ["rb"]
  /-- The names of directories that are passed over. -/
  excludedDirs : List String := [".git", "vendor", "tmp", "node_modules"]
  followLinks : Bool := false
  treeSource : TreeSourceSettings := .sidecar TreeSourceSettings.defaultSuffix
  captureText : Bool := true
  parallel : Bool := true
  /-- The number of workers, where it is fixed. -/
  threads : Option Nat := none
deriving DecidableEq, Repr

namespace TreeSourceSettings

def kind : TreeSourceSettings → String
  | .sidecar _ => "sidecar"
  | .command _ => "command"

def toJson : TreeSourceSettings → Value
  | .sidecar suffix => .object [("kind", .string "sidecar"), ("suffix", .string suffix)]
  | .command argv =>
    .object [("kind", .string "command"), ("argv", .array (argv.map .string))]

def parts : String → List String
  | "sidecar" => ["suffix"]
  | "command" => ["argv"]
  | _ => []

def decode? [SettingsFormat ν] (v : ν) : Option TreeSourceSettings := do
  match ← kindedFields? parts v with
  | ("sidecar", fields) =>
    return .sidecar (← fields.withDefault "suffix" Value.string? defaultSuffix)
  | ("command", fields) => return .command (← fields.required "argv" (Value.list? Value.string?))
  | _ => none

end TreeSourceSettings

namespace Settings

def form : Json.RecordForm where
  names :=
    ["version", "language", "scope_separator", "global_scope", "source_extensions", "exclude_dirs",
      "follow_links", "tree_source", "capture_source_text", "parallel", "threads"]
  least := 0
  extensible := false

/-- The fields in the order in which they are written. -/
def toJson (s : Settings) : Value :=
  .object (
    [("version", .nat s.version.toNat), ("language", s.language.toJson),
      ("scope_separator", .string s.style.separator), ("global_scope", .string s.style.outermost),
      ("source_extensions", .array (s.extensions.map .string)),
      ("exclude_dirs", .array (s.excludedDirs.map .string)), ("follow_links", .bool s.followLinks),
      ("tree_source", s.treeSource.toJson), ("capture_source_text", .bool s.captureText),
      ("parallel", .bool s.parallel)]
    ++ Value.fieldIfAny "threads" .nat s.threads)

def decode? [SettingsFormat ν] (v : ν) : Option Settings := do
  let fields ← fields? form v
  let d : Settings := {}
  let words : ν → Option (List String) := list? string?
  return {
    version :=
      UInt32.ofNat (← withDefault fields "version" (natBelow? UInt32.size) d.version.toNat)
    language := ← withDefault fields "language" LanguageRules.decode? d.language
    style :=
      { separator := ← withDefault fields "scope_separator" string? d.style.separator
        outermost := ← withDefault fields "global_scope" string? d.style.outermost }
    extensions := ← withDefault fields "source_extensions" words d.extensions
    excludedDirs := ← withDefault fields "exclude_dirs" words d.excludedDirs
    followLinks := ← withDefault fields "follow_links" bool? d.followLinks
    treeSource := ← withDefault fields "tree_source" TreeSourceSettings.decode? d.treeSource
    captureText := ← withDefault fields "capture_source_text" bool? d.captureText
    parallel := ← withDefault fields "parallel" bool? d.parallel
    threads := ← optional fields "threads" (natBelow? UInt64.size) }

def indexes (s : Settings) (extension : String) : Bool :=
  s.extensions.contains extension

def excludes (s : Settings) (name : String) : Bool :=
  s.excludedDirs.contains name

/-- The number of workers, where it is fixed: at least one. -/
def workers? (s : Settings) : Option Nat :=
  s.threads.map (max 1)

end Settings

end CodeIndex
