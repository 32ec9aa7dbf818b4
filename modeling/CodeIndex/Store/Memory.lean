import CodeIndex.Store.Reader

/-! # Indexes in memory

Three tables of records, searched from the first row on.
-/

namespace CodeIndex

structure MemoryIndex where
  files : List IndexedFile := []
  symbols : List SymbolRecord := []
  references : List ReferenceRecord := []

namespace MemoryIndex

/-- The symbols of a file as records numbered from `id` on. -/
def symbolRecords (fileId : Int) (path : String) (id : Int) :
    List ExtractedSymbol → List SymbolRecord
  | [] => []
  | s :: ss =>
    ⟨id, fileId, path, s.name, s.kind, s.scope, s.span, s.sourceText, s.subtree⟩
      :: symbolRecords fileId path (id + 1) ss

/-- The references of a file as records numbered from `id` on. -/
def referenceRecords (fileId : Int) (path : String) (id : Int) :
    List ExtractedReference → List ReferenceRecord
  | [] => []
  | r :: rs =>
    ⟨id, fileId, path, r.symbolName, r.span⟩ :: referenceRecords fileId path (id + 1) rs

def add (m : MemoryIndex) (f : FileExtraction) : MemoryIndex :=
  let id : Int := m.files.length + 1
  { files := m.files ++ [⟨id, f.path, f.root⟩]
    symbols := m.symbols ++ symbolRecords id f.path (m.symbols.length + 1) f.symbols
    references :=
      m.references ++ referenceRecords id f.path (m.references.length + 1) f.references }

def ofFiles (files : List FileExtraction) : MemoryIndex :=
  files.foldl add {}

def stats (m : MemoryIndex) : StoreStats :=
  ⟨m.files.length, m.symbols.length, m.references.length⟩

def reader (m : MemoryIndex) : IndexReader where
  file path := .ok (m.files.find? (·.path == path))
  hasFile path := .ok (m.files.any (·.path == path))
  filePaths := .ok (m.files.map (·.path))
  symbolsInFile path := .ok (m.symbols.filter (·.path == path))
  symbolsNamed name := .ok (m.symbols.filter (·.name == name))
  referencesNamed name := .ok (m.references.filter (·.symbolName == name))
  stats := .ok m.stats

instance : IndexStore MemoryIndex where
  reader := reader
  rebuild _ files := do
    checkDistinctPaths files
    let m := ofFiles files
    return (m, m.stats)

end MemoryIndex

end CodeIndex
