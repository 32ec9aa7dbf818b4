import CodeIndex.Json.Record

/-! # Reports of a build

A build reports how many files it met, how many of them it indexed, and every file or folder that
it had to leave out, with the reason.
-/

namespace CodeIndex

open Json (Value)

/-- A path that was left out of an index, and why. -/
structure BuildFailure where
  path : String
  message : String
deriving DecidableEq, Repr

structure BuildReport where
  filesDiscovered : Nat := 0
  filesIndexed : Nat := 0
  filesSkipped : Nat := 0
  symbols : Nat := 0
  references : Nat := 0
  failures : List BuildFailure := []
  elapsedMilliseconds : Nat := 0
deriving DecidableEq, Repr

namespace BuildFailure

def form : Json.RecordForm where
  names := ["file_path", "message"]
  least := 2

def toJson (f : BuildFailure) : Value :=
  .object [("file_path", .string f.path), ("message", .string f.message)]

def ofJson? (v : Value) : Option BuildFailure := do
  let fields ← form.fields? v
  return {
    path := ← fields.required "file_path" Value.string?
    message := ← fields.required "message" Value.string? }

end BuildFailure

namespace BuildReport

/-- Whether nothing was left out. -/
def isClean (r : BuildReport) : Bool :=
  r.failures.isEmpty

def form : Json.RecordForm where
  names :=
    ["files_discovered", "files_indexed", "files_skipped", "symbols", "references", "failures",
      "elapsed_ms"]
  least := 7

def toJson (r : BuildReport) : Value :=
  .object
    [("files_discovered", .nat r.filesDiscovered), ("files_indexed", .nat r.filesIndexed),
      ("files_skipped", .nat r.filesSkipped), ("symbols", .nat r.symbols),
      ("references", .nat r.references),
      ("failures", .array (r.failures.map BuildFailure.toJson)),
      ("elapsed_ms", .nat r.elapsedMilliseconds)]

def ofJson? (v : Value) : Option BuildReport := do
  let fields ← form.fields? v
  return {
    filesDiscovered := ← fields.required "files_discovered" Value.count?
    filesIndexed := ← fields.required "files_indexed" Value.count?
    filesSkipped := ← fields.required "files_skipped" Value.count?
    symbols := ← fields.required "symbols" Value.count?
    references := ← fields.required "references" Value.count?
    failures := ← fields.required "failures" (Value.list? BuildFailure.ofJson?)
    elapsedMilliseconds := ← fields.required "elapsed_ms" Value.count? }

end BuildReport

end CodeIndex
