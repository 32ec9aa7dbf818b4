import CodeIndex.Extraction.Json

/-! # Records of an index

What an index keeps of its files, symbols and references. Rows are numbered from one in the order
in which they were extracted, each sort on its own.
-/

namespace CodeIndex

open Json (Value)

/-- A file with its tree. -/
structure IndexedFile where
  id : Int
  path : String
  root : Node
deriving BEq, Repr

/-- A definition, with the path of its file. -/
structure SymbolRecord where
  id : Int
  fileId : Int
  path : String
  name : String
  kind : SymbolKind
  scope : String
  span : Span
  sourceText : Option String
  subtree : Option Node
deriving BEq, Repr

/-- A use of a name, with the path of its file. -/
structure ReferenceRecord where
  id : Int
  fileId : Int
  path : String
  symbolName : String
  span : Span
deriving DecidableEq, Repr

/-- The number of rows of each sort. -/
structure StoreStats where
  files : Nat := 0
  symbols : Nat := 0
  references : Nat := 0
deriving DecidableEq, Repr

/-! ## JSON -/

namespace IndexedFile

def form : Json.RecordForm where
  names := ["id", "file_path", "root"]
  least := 3

def toJson (f : IndexedFile) : Value :=
  .object [("id", .int f.id), ("file_path", .string f.path), ("root", f.root.toJson)]

def ofJson? (v : Value) : Option IndexedFile := do
  let fields ← form.fields? v
  return {
    id := ← fields.required "id" Value.id?
    path := ← fields.required "file_path" Value.string?
    root := ← fields.required "root" Node.ofJson? }

end IndexedFile

namespace SymbolRecord

def form : Json.RecordForm where
  names :=
    ["id", "file_id", "file_path", "name", "kind", "scope", "start_line", "end_line",
      "source_text", "subtree"]
  least := 8

def toJson (s : SymbolRecord) : Value :=
  .object (
    [("id", .int s.id), ("file_id", .int s.fileId), ("file_path", .string s.path),
      ("name", .string s.name), ("kind", s.kind.toJson), ("scope", .string s.scope),
      ("start_line", .nat s.span.start.toNat), ("end_line", .nat s.span.stop.toNat)]
    ++ Value.fieldIfAny "source_text" .string s.sourceText
    ++ Value.fieldIfAny "subtree" Node.toJson s.subtree)

def ofJson? (v : Value) : Option SymbolRecord := do
  let fields ← form.fields? v
  return {
    id := ← fields.required "id" Value.id?
    fileId := ← fields.required "file_id" Value.id?
    path := ← fields.required "file_path" Value.string?
    name := ← fields.required "name" Value.string?
    kind := ← fields.required "kind" SymbolKind.ofJson?
    scope := ← fields.required "scope" Value.string?
    span := ⟨← fields.required "start_line" Value.word?, ← fields.required "end_line" Value.word?⟩
    sourceText := ← fields.optional "source_text" Value.string?
    subtree := ← fields.optional "subtree" Node.ofJson? }

end SymbolRecord

namespace ReferenceRecord

def form : Json.RecordForm where
  names := ["id", "file_id", "file_path", "symbol_name", "start_line", "end_line"]
  least := 6

def toJson (r : ReferenceRecord) : Value :=
  .object
    [("id", .int r.id), ("file_id", .int r.fileId), ("file_path", .string r.path),
      ("symbol_name", .string r.symbolName), ("start_line", .nat r.span.start.toNat),
      ("end_line", .nat r.span.stop.toNat)]

def ofJson? (v : Value) : Option ReferenceRecord := do
  let fields ← form.fields? v
  return {
    id := ← fields.required "id" Value.id?
    fileId := ← fields.required "file_id" Value.id?
    path := ← fields.required "file_path" Value.string?
    symbolName := ← fields.required "symbol_name" Value.string?
    span := ⟨← fields.required "start_line" Value.word?, ← fields.required "end_line" Value.word?⟩ }

end ReferenceRecord

namespace StoreStats

def form : Json.RecordForm where
  names := ["files", "symbols", "references"]
  least := 3

def toJson (s : StoreStats) : Value :=
  .object [("files", .nat s.files), ("symbols", .nat s.symbols), ("references", .nat s.references)]

def ofJson? (v : Value) : Option StoreStats := do
  let fields ← form.fields? v
  return {
    files := ← fields.required "files" Value.count?
    symbols := ← fields.required "symbols" Value.count?
    references := ← fields.required "references" Value.count? }

end StoreStats

end CodeIndex
