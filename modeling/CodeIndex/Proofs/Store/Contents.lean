import CodeIndex.Proofs.Repeated
import CodeIndex.Store.Memory

/-! # What an index keeps of files

Apart from its numbers, an index in memory holds exactly what was extracted: the trees, symbols and
references of all files with their paths, in the order in which the files came.
-/

namespace CodeIndex

def SymbolRecord.content (s : SymbolRecord) : ExtractedSymbol :=
  ⟨s.name, s.kind, s.scope, s.span, s.sourceText, s.subtree⟩

def ReferenceRecord.content (r : ReferenceRecord) : ExtractedReference :=
  ⟨r.symbolName, r.span⟩

namespace MemoryIndex

theorem content_symbolRecords (fileId : Int) (path : String) (id : Int)
    (ss : List ExtractedSymbol) :
    (symbolRecords fileId path id ss).map (fun s => (s.path, s.content)) =
      ss.map fun s => (path, s) := by
  induction ss generalizing id with
  | nil => rfl
  | cons s ss ih =>
    rw [symbolRecords, List.map_cons, ih, List.map_cons]
    rfl

theorem content_referenceRecords (fileId : Int) (path : String) (id : Int)
    (rs : List ExtractedReference) :
    (referenceRecords fileId path id rs).map (fun r => (r.path, r.content)) =
      rs.map fun r => (path, r) := by
  induction rs generalizing id with
  | nil => rfl
  | cons r rs ih =>
    rw [referenceRecords, List.map_cons, ih, List.map_cons]
    rfl

/-- Tables are filled file by file: what one file adds to a column stands behind what was there. -/
theorem column_ofFiles {β : Type} (column : MemoryIndex → List β)
    (added : FileExtraction → List β) (hempty : column {} = [])
    (hadd : ∀ m f, column (m.add f) = column m ++ added f) (files : List FileExtraction) :
    column (ofFiles files) = files.flatMap added := by
  have hfold : ∀ (files : List FileExtraction) (m : MemoryIndex),
      column (files.foldl add m) = column m ++ files.flatMap added := by
    intro files
    induction files with
    | nil =>
      intro m
      rw [List.flatMap_nil, List.append_nil]
      rfl
    | cons f files ih =>
      intro m
      rw [List.foldl_cons, ih, hadd, List.flatMap_cons, List.append_assoc]
  rw [ofFiles, hfold, hempty, List.nil_append]

theorem files_ofFiles (files : List FileExtraction) :
    (ofFiles files).files.map (fun g => (g.path, g.root)) =
      files.map fun f => (f.path, f.root) := by
  rw [column_ofFiles (fun m => m.files.map fun g => (g.path, g.root)) (fun f => [(f.path, f.root)])
    rfl fun m f => by rw [add, List.map_append]; rfl]
  exact List.map_eq_flatMap.symm

theorem symbols_ofFiles (files : List FileExtraction) :
    (ofFiles files).symbols.map (fun s => (s.path, s.content)) =
      files.flatMap fun f => f.symbols.map fun s => (f.path, s) :=
  column_ofFiles (fun m => m.symbols.map fun s => (s.path, s.content)) _ rfl
    (fun m f => by rw [add, List.map_append, content_symbolRecords]) files

theorem references_ofFiles (files : List FileExtraction) :
    (ofFiles files).references.map (fun r => (r.path, r.content)) =
      files.flatMap fun f => f.references.map fun r => (f.path, r) :=
  column_ofFiles (fun m => m.references.map fun r => (r.path, r.content)) _ rfl
    (fun m f => by rw [add, List.map_append, content_referenceRecords]) files

variable {files : List FileExtraction}

/-- Where paths are distinct, the tree under the path of a file is the tree of that file. -/
theorem find?_ofFiles (hdistinct : (files.map (·.path)).Nodup) {f : FileExtraction}
    (hf : f ∈ files) :
    ∃ g, (ofFiles files).files.find? (·.path == f.path) = some g ∧ g.path = f.path ∧
      g.root = f.root := by
  have hpaths : (ofFiles files).files.map (·.path) = files.map (·.path) := by
    have := congrArg (List.map Prod.fst) (files_ofFiles files)
    simpa [List.map_map, Function.comp_def] using this
  have hmem : (f.path, f.root) ∈ (ofFiles files).files.map fun g => (g.path, g.root) := by
    rw [files_ofFiles]
    exact List.mem_map_of_mem hf
  obtain ⟨g, hg, heq⟩ := List.mem_map.mp hmem
  obtain ⟨hpath, hroot⟩ := Prod.mk.inj heq
  have hfound := find?_of_nodup_keys (hpaths ▸ hdistinct) hg
  exact ⟨g, hpath ▸ hfound, hpath, hroot⟩

/-- Every symbol in an index was extracted from a file of its path. -/
theorem exists_file_of_mem_symbols {s : SymbolRecord} (hs : s ∈ (ofFiles files).symbols) :
    ∃ f ∈ files, f.path = s.path ∧ s.content ∈ f.symbols := by
  have hmem : (s.path, s.content) ∈ files.flatMap fun f => f.symbols.map fun s => (f.path, s) := by
    rw [← symbols_ofFiles]
    exact List.mem_map_of_mem hs
  obtain ⟨f, hf, hmem⟩ := List.mem_flatMap.mp hmem
  obtain ⟨t, ht, heq⟩ := List.mem_map.mp hmem
  obtain ⟨hpath, hcontent⟩ := Prod.mk.inj heq
  exact ⟨f, hf, hpath, hcontent ▸ ht⟩

/-- Every reference that was extracted from a file is in the index with the path of the file. -/
theorem exists_mem_references {f : FileExtraction} (hf : f ∈ files) {r : ExtractedReference}
    (hr : r ∈ f.references) :
    ∃ row ∈ (ofFiles files).references, row.path = f.path ∧ row.content = r := by
  have hmem : (f.path, r) ∈ (ofFiles files).references.map fun r => (r.path, r.content) := by
    rw [references_ofFiles]
    exact List.mem_flatMap.mpr ⟨f, hf, List.mem_map_of_mem hr⟩
  obtain ⟨row, hrow, heq⟩ := List.mem_map.mp hmem
  obtain ⟨hpath, hcontent⟩ := Prod.mk.inj heq
  exact ⟨row, hrow, hpath, hcontent⟩

/-- A row under the path of a file was extracted from that file. -/
theorem exists_of_mem_symbols (hdistinct : (files.map (·.path)).Nodup) {f : FileExtraction}
    (hf : f ∈ files) {s : SymbolRecord} (hs : s ∈ (ofFiles files).symbols)
    (hpath : s.path = f.path) : s.content ∈ f.symbols := by
  obtain ⟨g, hg, hgpath, hmem⟩ := exists_file_of_mem_symbols hs
  obtain rfl : g = f := List.inj_on_of_nodup_map hdistinct hg hf (hgpath.trans hpath)
  exact hmem

end MemoryIndex

end CodeIndex
