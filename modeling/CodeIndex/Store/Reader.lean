import CodeIndex.Error
import CodeIndex.Store.Record

/-! # Stores

A store holds one index. It is read by path and by name, every list in the order of the rows, and
written by a rebuild alone, which replaces all of it.
-/

namespace CodeIndex

/-- What an index answers. -/
structure IndexReader where
  file : String → Except Error (Option IndexedFile)
  hasFile : String → Except Error Bool
  /-- The paths of all files. -/
  filePaths : Except Error (List String)
  symbolsInFile : String → Except Error (List SymbolRecord)
  /-- The symbols of a name in any file. -/
  symbolsNamed : String → Except Error (List SymbolRecord)
  /-- The references to a name in any file. -/
  referencesNamed : String → Except Error (List ReferenceRecord)
  stats : Except Error StoreStats

/-- Types of stores. -/
class IndexStore (σ : Type) where
  reader : σ → IndexReader
  /-- The store with an index of `files` in place of what it held, and the size of that index. A
  store that refuses stays as it is. -/
  rebuild : σ → List FileExtraction → Except Error (σ × StoreStats)

/-- The first entry that has come before, be it among `seen`. -/
def firstRepeated? (seen : List String) : List String → Option String
  | [] => none
  | p :: ps => if seen.contains p then some p else firstRepeated? (p :: seen) ps

def checkDistinctPaths (files : List FileExtraction) : Except Error Unit :=
  match firstRepeated? [] (files.map (·.path)) with
  | none => .ok ()
  | some path => .error { cause := .duplicatePath, file := some path }

end CodeIndex
