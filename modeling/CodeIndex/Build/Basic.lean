import CodeIndex.Build.Discovery
import CodeIndex.Build.Source
import CodeIndex.Settings.Document
import CodeIndex.Settings.Extractor
import CodeIndex.Store.Reader

/-! # Builds

A build loads every file that was discovered, extracts what is in it, and replaces the content of a
store by what it has. A file that cannot be loaded is left out and reported, and nothing else
suffers from it.
-/

namespace CodeIndex

namespace Build

/-- What becomes of each path in turn: an extraction, or the failure to load it. -/
def outcomes (source : TreeSource) (extractor : Extractor) (paths : List String) :
    StateM Disk (List (String × Except Error FileExtraction)) :=
  paths.mapM fun path => do
    return (path, (← source path).map extractor.extract)

def extractions (os : List (String × Except Error FileExtraction)) : List FileExtraction :=
  os.filterMap fun (_, o) => o.toOption

def failures (os : List (String × Except Error FileExtraction)) : List BuildFailure :=
  os.filterMap fun (path, o) =>
    match o with
    | .ok _ => none
    | .error e => some ⟨path, e.display⟩

end Build

/-- Indexes what was discovered in place of what a store held. -/
def Discovery.index [IndexStore σ] (found : Discovery) (source : TreeSource)
    (extractor : Extractor) (store : σ) : StateM Disk (Except Error (σ × BuildReport)) := do
  let os ← Build.outcomes source extractor found.files
  let failed := found.failures ++ Build.failures os
  return (IndexStore.rebuild store (Build.extractions os)).map fun (store, stats) =>
    (store, {
      filesDiscovered := found.files.length
      filesIndexed := stats.files
      filesSkipped := failed.length
      symbols := stats.symbols
      references := stats.references
      failures := failed })

namespace Settings

def accepted (s : Settings) : Except Error Settings :=
  match s.validate with
  | .ok () => .ok s
  | .error problem => .error { cause := .settings problem }

def extractFile [Programs] (s : Settings) (cwd : Location) (repository path : String) :
    StateM Disk (Except Error FileExtraction) := do
  return (← s.treeSource.source cwd repository path).map s.extractor.extract

def build [Programs] [IndexStore σ] (s : Settings) (cwd : Location) (repository : String)
    (store : σ) : StateM Disk (Except Error (σ × BuildReport)) := do
  match (← get).discover s cwd repository with
  | .error e => return .error e
  | .ok found => found.index (s.treeSource.source cwd repository) s.extractor store

end Settings

end CodeIndex
