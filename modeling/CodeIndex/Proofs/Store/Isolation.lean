import CodeIndex.Proofs.Store.Numbering

/-! # Files of an index side by side

The rows of all files stand in the same tables and are numbered across them. What is read about one
file is still what was extracted from it: the files around it shift the numbers of its rows, all by
the same amount, and do nothing else.
-/

namespace CodeIndex

/-! ## Shifted numbers -/

def IndexedFile.shifted (k : Int) (g : IndexedFile) : IndexedFile :=
  { g with id := g.id + k }

/-- A row whose number is larger by `d`, in a file whose number is larger by `k`. -/
def SymbolRecord.shifted (k d : Int) (s : SymbolRecord) : SymbolRecord :=
  { s with id := s.id + d, fileId := s.fileId + k }

def ReferenceRecord.shifted (k d : Int) (r : ReferenceRecord) : ReferenceRecord :=
  { r with id := r.id + d, fileId := r.fileId + k }

namespace MemoryIndex

theorem symbolRecords_add (fileId k : Int) (path : String) (id d : Int)
    (ss : List ExtractedSymbol) :
    symbolRecords (fileId + k) path (id + d) ss =
      (symbolRecords fileId path id ss).map (SymbolRecord.shifted k d) := by
  induction ss generalizing id with
  | nil => rfl
  | cons s ss ih =>
    rw [symbolRecords, symbolRecords, List.map_cons, ← ih, Int.add_right_comm]
    rfl

theorem referenceRecords_add (fileId k : Int) (path : String) (id d : Int)
    (rs : List ExtractedReference) :
    referenceRecords (fileId + k) path (id + d) rs =
      (referenceRecords fileId path id rs).map (ReferenceRecord.shifted k d) := by
  induction rs generalizing id with
  | nil => rfl
  | cons r rs ih =>
    rw [referenceRecords, referenceRecords, List.map_cons, ← ih, Int.add_right_comm]
    rfl

/-! ## The rows of one file -/

/-- Whether the records under the path of a file are those that the file adds as number `k`, with
symbols numbered from `i` on and references from `j` on. -/
structure Keeps (m : MemoryIndex) (f : FileExtraction) (k i j : Int) : Prop where
  file : m.files.find? (·.path == f.path) = some ⟨k, f.path, f.root⟩
  symbols : m.symbols.filter (·.path == f.path) = symbolRecords k f.path i f.symbols
  references : m.references.filter (·.path == f.path) = referenceRecords k f.path j f.references

theorem filter_symbolRecords (fileId : Int) (path p : String) (id : Int)
    (ss : List ExtractedSymbol) :
    (symbolRecords fileId path id ss).filter (·.path == p) =
      if path = p then symbolRecords fileId path id ss else [] :=
  filter_of_forall_key (fun _ hs => (of_mem_symbolRecords hs).2.1) p

theorem filter_referenceRecords (fileId : Int) (path p : String) (id : Int)
    (rs : List ExtractedReference) :
    (referenceRecords fileId path id rs).filter (·.path == p) =
      if path = p then referenceRecords fileId path id rs else [] :=
  filter_of_forall_key (fun _ hr => (of_mem_referenceRecords hr).2) p

variable {m : MemoryIndex} {f g : FileExtraction} {k i j : Int}

theorem Keeps.add (h : m.Keeps f k i j) (hne : g.path ≠ f.path) : (m.add g).Keeps f k i j where
  file := by
    simp only [MemoryIndex.add, List.find?_append, h.file, Option.some_or]
  symbols := by
    simp only [MemoryIndex.add, List.filter_append, h.symbols, filter_symbolRecords, if_neg hne,
      List.append_nil]
  references := by
    simp only [MemoryIndex.add, List.filter_append, h.references, filter_referenceRecords,
      if_neg hne, List.append_nil]

/-- Where no file has its path, a file is kept with the next numbers. -/
theorem keeps_add_self (hm : m.Numbered) (hnew : f.path ∉ m.files.map (·.path)) :
    (m.add f).Keeps f (m.files.length + 1) (m.symbols.length + 1) (m.references.length + 1) where
  file := by
    have hnone : m.files.find? (·.path == f.path) = none := by
      rw [List.find?_eq_none]
      intro g hg hpath
      exact hnew (List.mem_map.mpr ⟨g, hg, beq_iff_eq.mp hpath⟩)
    simp [add, List.find?_append, hnone]
  symbols := by
    have hnone : m.symbols.filter (·.path == f.path) = [] := by
      rw [List.filter_eq_nil_iff]
      intro s hs hpath
      rcases hm.symbolFiles s hs with ⟨g, hg, -, hs⟩
      exact hnew (List.mem_map.mpr ⟨g, hg, hs.symm.trans (beq_iff_eq.mp hpath)⟩)
    simp only [add, List.filter_append, hnone, List.nil_append, filter_symbolRecords, if_true]
  references := by
    have hnone : m.references.filter (·.path == f.path) = [] := by
      rw [List.filter_eq_nil_iff]
      intro r hr hpath
      rcases hm.referenceFiles r hr with ⟨g, hg, -, hr⟩
      exact hnew (List.mem_map.mpr ⟨g, hg, hr.symm.trans (beq_iff_eq.mp hpath)⟩)
    simp only [add, List.filter_append, hnone, List.nil_append, filter_referenceRecords, if_true]

theorem ofFiles_concat (files : List FileExtraction) (f : FileExtraction) :
    ofFiles (files ++ [f]) = (ofFiles files).add f := by
  rw [ofFiles, List.foldl_append]
  rfl

/-- An index keeps each of its files with some numbers. -/
theorem exists_keeps {files : List FileExtraction} (hdistinct : (files.map (·.path)).Nodup)
    (hf : f ∈ files) : ∃ k i j, (ofFiles files).Keeps f k i j := by
  induction files using List.reverseRecOn with
  | nil => cases hf
  | append_singleton files g ih =>
    rw [List.map_append, List.nodup_append] at hdistinct
    rcases hdistinct with ⟨hnodup, -, hne⟩
    have hnew : g.path ∉ files.map (·.path) := fun h => hne _ h g.path (by simp) rfl
    rw [ofFiles_concat]
    rcases List.mem_append.mp hf with hf | hf
    · rcases ih hnodup hf with ⟨k, i, j, h⟩
      exact ⟨k, i, j, h.add fun heq => hnew (heq ▸ List.mem_map_of_mem hf)⟩
    · obtain rfl := List.mem_singleton.mp hf
      exact ⟨_, _, _, keeps_add_self (numbered_ofFiles files) (paths_ofFiles files ▸ hnew)⟩

end MemoryIndex

/-! ## Reads about one file -/

/-- The two sorts of stores: records are kept as they are, or as rows of texts. -/
inductive StoreSort where
  | memory
  | tables
deriving DecidableEq, Repr

namespace StoreSort

open Database

def readFile : StoreSort → IndexedFile → Except Error (Option IndexedFile)
  | .memory, g => .ok (some g)
  | .tables, g =>
    match Node.read (Text.octets g.root.compact) with
    | .ok root => .ok (some { g with root })
    | .error problem => .error { cause := .storedTree problem }

def readSymbol : StoreSort → SymbolRecord → Except Error SymbolRecord
  | .memory, s => .ok s
  | .tables, s => Database.readSymbol s.path (imageOfSymbol s)

theorem readFile_shifted (sort : StoreSort) (k : Int) (g : IndexedFile) :
    sort.readFile (g.shifted k) = (sort.readFile g).map (Option.map (IndexedFile.shifted k)) := by
  cases sort with
  | memory => rfl
  | tables =>
    simp only [readFile, IndexedFile.shifted]
    cases Node.read (Text.octets g.root.compact) <;> rfl

theorem readSymbol_shifted (sort : StoreSort) (k d : Int) (s : SymbolRecord) :
    sort.readSymbol (s.shifted k d) =
      (sort.readSymbol s).map (SymbolRecord.shifted k d) := by
  cases sort with
  | memory => rfl
  | tables =>
    simp only [readSymbol, Database.readSymbol, imageOfSymbol, SymbolKind.ofWord?_word,
      readLine_number, SymbolRecord.shifted]
    cases readTree 9 (s.subtree.map Node.compact) <;> rfl

end StoreSort

/-- Whether the reads about a file give what a store of a sort keeps of it, with some numbers. -/
structure IndexReader.Gives (r : IndexReader) (sort : StoreSort) (f : FileExtraction)
    (k i j : Int) : Prop where
  hasFile : r.hasFile f.path = .ok true
  file : r.file f.path = sort.readFile ⟨k, f.path, f.root⟩
  symbols : r.symbolsInFile f.path =
    (MemoryIndex.symbolRecords k f.path i f.symbols).mapM sort.readSymbol
  references : ∀ name, (r.referencesNamed name).map (List.filter (·.path == f.path)) =
    .ok ((MemoryIndex.referenceRecords k f.path j f.references).filter (·.symbolName == name))

namespace MemoryIndex

variable {m : MemoryIndex} {f : FileExtraction} {k i j : Int}

theorem Keeps.any_path (h : m.Keeps f k i j) : m.files.any (·.path == f.path) = true :=
  List.any_eq_true.mpr ⟨_, List.mem_of_find?_eq_some h.file, by simp⟩

theorem Keeps.references_named (h : m.Keeps f k i j) (name : String) :
    (m.references.filter (·.symbolName == name)).filter (·.path == f.path) =
      (referenceRecords k f.path j f.references).filter (·.symbolName == name) := by
  rw [List.filter_comm, h.references]

theorem Keeps.gives_reader (h : m.Keeps f k i j) : m.reader.Gives .memory f k i j where
  hasFile := congrArg Except.ok h.any_path
  file := congrArg Except.ok h.file
  symbols := (congrArg Except.ok h.symbols).trans (Except.mapM_eq_ok fun _ _ => rfl).symm
  references name := congrArg Except.ok (h.references_named name)

theorem Keeps.gives_image (h : m.Keeps f k i j) (hm : m.Linked) :
    (Database.image m).reader.Gives .tables f k i j where
  hasFile := by
    simp only [Database.reader, Database.image, List.any_map]
    exact congrArg Except.ok h.any_path
  file := by
    have hfind : (Database.image m).files.find? (·.path == f.path) =
        (m.files.find? (·.path == f.path)).map Database.imageOfFile := List.find?_map
    simp only [Database.reader, Database.file, hfind, h.file]
    rfl
  symbols := by
    change (Database.image m).symbolsWhere (fun p _ => p == f.path) = _
    rw [Database.symbolsWhere, locatedSymbols_image hm, List.filter_map, List.mapM_map,
      ← h.symbols]
    rfl
  references name := by
    simp only [Database.reader, referencesNamed_image hm]
    exact congrArg Except.ok (h.references_named name)

end MemoryIndex

/-! ## Trees that are given back -/

theorem FileExtraction.mem_trees {f : FileExtraction} {s : ExtractedSymbol} (hs : s ∈ f.symbols)
    {n : Node} (hn : n ∈ s.subtree) : n ∈ f.trees :=
  List.mem_cons_of_mem _ (List.mem_filterMap.mpr ⟨s, hs, hn⟩)

/-- Trees without floats can be read back from their texts, be they settled or not. -/
theorem Node.read_compact_of_floatFree {n : Node} (h : n.FloatFree) :
    Node.read (Text.octets n.compact) = .ok n.settled := by
  rw [← compact_settled]
  exact read_compact (floatFree_settled h) (canonical_settled n)

namespace StoreSort

theorem readFile_of_storable (sort : StoreSort) {g : IndexedFile} (h : g.root.Storable) :
    sort.readFile g = .ok (some g) := by
  cases sort with
  | memory => rfl
  | tables =>
    have hroot : Node.read (Text.octets g.root.compact) = .ok g.root := h
    simp only [readFile, hroot]

theorem readSymbol_of_storable (sort : StoreSort) {s : SymbolRecord}
    (h : ∀ n ∈ s.subtree, n.Storable) : sort.readSymbol s = .ok s := by
  cases sort with
  | memory => rfl
  | tables => exact Database.readSymbol_image h

theorem exists_readFile (sort : StoreSort) {g : IndexedFile}
    (h : sort = .memory ∨ g.root.FloatFree) : ∃ g', sort.readFile g = .ok (some g') := by
  rcases h with rfl | h
  · exact ⟨g, rfl⟩
  cases sort with
  | memory => exact ⟨g, rfl⟩
  | tables =>
    refine ⟨{ g with root := g.root.settled }, ?_⟩
    simp only [readFile, Node.read_compact_of_floatFree h]

theorem exists_readSymbol (sort : StoreSort) {s : SymbolRecord}
    (h : sort = .memory ∨ ∀ n ∈ s.subtree, n.FloatFree) : ∃ s', sort.readSymbol s = .ok s' := by
  rcases h with rfl | h
  · exact ⟨s, rfl⟩
  cases sort with
  | memory => exact ⟨s, rfl⟩
  | tables =>
    have htree : Database.readTree 9 (s.subtree.map Node.compact) =
        .ok (s.subtree.map Node.settled) := by
      cases hn : s.subtree with
      | none => rfl
      | some n =>
        simp only [Option.map_some, Database.readTree, Node.read_compact_of_floatFree (h n hn)]
    simp only [readSymbol, Database.readSymbol, Database.imageOfSymbol, SymbolKind.ofWord?_word,
      Database.readLine_number, htree]
    exact ⟨_, rfl⟩

end StoreSort

namespace IndexReader

/-- Whether two indexes answer alike about a file, but that the second one has its number larger by
`k`, those of its symbols by `i` and those of its references by `j`. -/
structure ShiftedOn (r r' : IndexReader) (path : String) (k i j : Int) : Prop where
  hasFile : r'.hasFile path = r.hasFile path
  file : r'.file path = (r.file path).map (Option.map (IndexedFile.shifted k))
  symbols : r'.symbolsInFile path =
    (r.symbolsInFile path).map (List.map (SymbolRecord.shifted k i))
  references : ∀ name, (r'.referencesNamed name).map (List.filter (·.path == path)) =
    ((r.referencesNamed name).map (List.filter (·.path == path))).map
      (List.map (ReferenceRecord.shifted k j))

/-- Whether two indexes answer alike about a file, but for constant differences of numbers. -/
def AgreeOn (r r' : IndexReader) (path : String) : Prop :=
  ∃ k i j, r.ShiftedOn r' path k i j

namespace Gives

variable {r r' : IndexReader} {sort : StoreSort} {f : FileExtraction} {k i j k' i' j' : Int}

theorem shiftedOn (h : r.Gives sort f k i j) (h' : r'.Gives sort f (k + k') (i + i') (j + j')) :
    r.ShiftedOn r' f.path k' i' j' where
  hasFile := h'.hasFile.trans h.hasFile.symm
  file := by
    rw [h'.file, h.file]
    exact sort.readFile_shifted k' ⟨k, f.path, f.root⟩
  symbols := by
    rw [h'.symbols, h.symbols, MemoryIndex.symbolRecords_add, List.mapM_map]
    exact Except.mapM_map fun s _ => sort.readSymbol_shifted k' i' s
  references name := by
    rw [h'.references, h.references, MemoryIndex.referenceRecords_add, List.filter_map]
    rfl

theorem agreeOn (h : r.Gives sort f k i j) (h' : r'.Gives sort f k' i' j') :
    r.AgreeOn r' f.path := by
  refine ⟨k' - k, i' - i, j' - j, h.shiftedOn ?_⟩
  simpa using h'

/-- Trees that can be kept as texts are given back by both sorts of stores. -/
theorem of_storable (h : r.Gives sort f k i j) (hf : ∀ n ∈ f.trees, n.Storable) :
    r.Gives .memory f k i j where
  hasFile := h.hasFile
  file := by
    rw [h.file]
    exact sort.readFile_of_storable (hf _ List.mem_cons_self)
  symbols := by
    have hread : ∀ s ∈ MemoryIndex.symbolRecords k f.path i f.symbols,
        sort.readSymbol s = .ok s := by
      intro s hs
      rcases MemoryIndex.of_mem_symbolRecords hs with ⟨-, -, t, ht, hsubtree⟩
      apply sort.readSymbol_of_storable
      intro n hn
      exact hf n (FileExtraction.mem_trees ht (hsubtree ▸ hn))
    rw [h.symbols, Except.mapM_eq_ok hread]
    exact (Except.mapM_eq_ok fun _ _ => rfl).symm
  references := h.references

/-- What is kept as it is can be read, and so can trees without floats. -/
theorem exists_file_and_symbols (h : r.Gives sort f k i j) (hf : sort = .memory ∨ f.FloatFree) :
    ∃ g rows, r.file f.path = .ok (some g) ∧ r.symbolsInFile f.path = .ok rows := by
  have hread : ∀ s ∈ MemoryIndex.symbolRecords k f.path i f.symbols,
      ∃ s', sort.readSymbol s = .ok s' := by
    intro s hs
    rcases MemoryIndex.of_mem_symbolRecords hs with ⟨-, -, t, ht, hsubtree⟩
    apply sort.exists_readSymbol
    exact hf.imp_right fun hfree n hn => hfree n (FileExtraction.mem_trees ht (hsubtree ▸ hn))
  rcases Except.exists_mapM_eq_ok hread with ⟨rows, hrows⟩
  rcases sort.exists_readFile (g := ⟨k, f.path, f.root⟩)
    (hf.imp_right fun hfree => hfree _ List.mem_cons_self) with ⟨g, hg⟩
  exact ⟨g, rows, h.file.trans hg, h.symbols.trans hrows⟩

end Gives

end IndexReader

/-! ## Rebuilds -/

/-- Whether an index is that of a store of a sort that has just been rebuilt from files. What the
store held before is any outcome of what was done with it. -/
inductive Rebuilt (files : List FileExtraction) : StoreSort → IndexReader → Prop where
  | memory {s t : MemoryIndex} {size : StoreStats} :
    IndexStore.rebuild s files = .ok (t, size) → Rebuilt files .memory (IndexStore.reader t)
  | database {s t : Database} {size : StoreStats} :
    IndexStore.rebuild s files = .ok (t, size) → Rebuilt files .tables (IndexStore.reader t)
  | stored {s t : StoredIndex} {size : StoreStats} :
    IndexStore.rebuild s files = .ok (t, size) → Rebuilt files .tables (IndexStore.reader t)

/-- A store that was rebuilt reads as it is said to. -/
theorem Rebuildable.of_rebuild [IndexStore σ] {Ready : σ → Prop}
    {index : List FileExtraction → IndexReader} (hσ : Rebuildable Ready index) {s t : σ}
    (hs : Ready s) {files : List FileExtraction} {size : StoreStats}
    (h : IndexStore.rebuild s files = .ok (t, size)) :
    (files.map (·.path)).Nodup ∧ IndexStore.reader t = index files := by
  cases hc : checkDistinctPaths files with
  | error e =>
    rw [hσ.refused hs hc] at h
    cases h
  | ok u =>
    rcases hσ.accepted hs hc with ⟨t', size', ht, -, hreader, -⟩
    rw [ht] at h
    cases h
    exact ⟨checkDistinctPaths_eq_ok.mp hc, hreader⟩

theorem StoredIndex.of_rebuild {s t : StoredIndex} {files : List FileExtraction}
    {size : StoreStats} (h : IndexStore.rebuild s files = .ok (t, size)) :
    (files.map (·.path)).Nodup ∧
      IndexStore.reader t = (Database.fill files).rows.reader := by
  obtain ⟨⟨rows, size'⟩, hrows, h⟩ := Except.bind_eq_ok.mp h
  obtain ⟨t', hsave, h⟩ := Except.bind_eq_ok.mp h
  cases h
  rcases Database.rebuildable.of_rebuild trivial hrows with ⟨hdistinct, hreader⟩
  refine ⟨hdistinct, ?_⟩
  unfold save at hsave
  split at hsave
  · cases hsave
    exact hreader
  · cases hsave

/-- A store that was rebuilt gives what it keeps of each of its files. -/
theorem Rebuilt.exists_gives {files : List FileExtraction} {sort : StoreSort} {r : IndexReader}
    (h : Rebuilt files sort r) {f : FileExtraction} (hf : f ∈ files) :
    ∃ k i j, r.Gives sort f k i j := by
  have htables : (files.map (·.path)).Nodup →
      ∃ k i j, (Database.fill files).rows.reader.Gives .tables f k i j := by
    intro hdistinct
    rcases MemoryIndex.exists_keeps hdistinct hf with ⟨k, i, j, hkeeps⟩
    rw [MemoryIndex.fill_eq_image]
    exact ⟨k, i, j, hkeeps.gives_image (MemoryIndex.linked_ofFiles files)⟩
  cases h with
  | memory h =>
    rcases MemoryIndex.rebuildable.of_rebuild trivial h with ⟨hdistinct, hreader⟩
    rcases MemoryIndex.exists_keeps hdistinct hf with ⟨k, i, j, hkeeps⟩
    rw [hreader]
    exact ⟨k, i, j, hkeeps.gives_reader⟩
  | database h =>
    rcases Database.rebuildable.of_rebuild trivial h with ⟨hdistinct, hreader⟩
    rw [hreader]
    exact htables hdistinct
  | stored h =>
    rcases StoredIndex.of_rebuild h with ⟨hdistinct, hreader⟩
    rw [hreader]
    exact htables hdistinct

/-- Files are indexed independently: once two stores of one sort have been rebuilt from lists that
have a file in common, whatever else is in these lists and whatever was in the stores, they answer
alike about the file, but for constant differences of numbers. So do stores of two sorts where the
trees of the file can be kept as texts, which may change floats. -/
theorem files_are_indexed_apart {files files' : List FileExtraction} {f : FileExtraction}
    (hf : f ∈ files) (hf' : f ∈ files') :
    (∀ {sort r r'}, Rebuilt files sort r → Rebuilt files' sort r' → r.AgreeOn r' f.path) ∧
    (∀ {sort sort' r r'}, (∀ n ∈ f.trees, n.Storable) → Rebuilt files sort r →
      Rebuilt files' sort' r' → r.AgreeOn r' f.path) ∧
    ∀ {sort r}, (sort = .memory ∨ f.FloatFree) → Rebuilt files sort r →
      ∃ g rows, r.file f.path = .ok (some g) ∧ r.symbolsInFile f.path = .ok rows := by
  refine ⟨?_, ?_, ?_⟩
  · intro sort r r' hr hr'
    rcases hr.exists_gives hf with ⟨k, i, j, h⟩
    rcases hr'.exists_gives hf' with ⟨k', i', j', h'⟩
    exact h.agreeOn h'
  · intro sort sort' r r' htrees hr hr'
    rcases hr.exists_gives hf with ⟨k, i, j, h⟩
    rcases hr'.exists_gives hf' with ⟨k', i', j', h'⟩
    exact (h.of_storable htrees).agreeOn (h'.of_storable htrees)
  · intro sort r hread hr
    rcases hr.exists_gives hf with ⟨k, i, j, h⟩
    exact h.exists_file_and_symbols hread

theorem files_are_indexed_apart_behind_another :
    ∃ (f g : FileExtraction) (s t : MemoryIndex) (d : Database) (m n size : StoreStats),
      f = ⟨"dog.rb", .branch (some "class") [] (some ⟨1, 3⟩),
        [⟨"bark", .callable, "Dog", ⟨2, 2⟩, none, some (.branch (some "def") [] none)⟩],
        [⟨"puts", ⟨2, 2⟩⟩]⟩ ∧
      g = ⟨"cat.rb", .branch none [] none,
        [⟨"Cat", .type, "global", ⟨1, 1⟩, none, none⟩], [⟨"puts", ⟨1, 1⟩⟩]⟩ ∧
      IndexStore.rebuild ({} : MemoryIndex) [f] = .ok (s, m) ∧
      IndexStore.rebuild s [g, f] = .ok (t, n) ∧
      IndexStore.rebuild ({} : Database) [f, g] = .ok (d, size) ∧
      (IndexStore.reader s).AgreeOn (IndexStore.reader t) "dog.rb" ∧
      (IndexStore.reader t).AgreeOn (IndexStore.reader d) "dog.rb" ∧
      ∃ file rows, (IndexStore.reader d).file "dog.rb" = .ok (some file) ∧
        (IndexStore.reader d).symbolsInFile "dog.rb" = .ok rows := by
  refine ⟨_, _, _, _, _, _, _, _, rfl, rfl, rfl, rfl, rfl, ?_⟩
  set f : FileExtraction := ⟨"dog.rb", _, _, _⟩
  set g : FileExtraction := ⟨"cat.rb", _, _, _⟩
  have hfree : f.FloatFree := by
    change ∀ n ∈ f.trees, n.FloatFree
    decide
  have hcanonical : ∀ n ∈ f.trees, n.Canonical := by decide
  have hs : Rebuilt [f] .memory _ := .memory (s := {}) rfl
  have ht : Rebuilt [g, f] .memory _ := .memory (s := {}) rfl
  have hd : Rebuilt [f, g] .tables _ := .database (s := {}) rfl
  have hf : f ∈ [f] := List.mem_cons_self
  have hfg : f ∈ [f, g] := List.mem_cons_self
  have hgf : f ∈ [g, f] := List.mem_cons_of_mem g hf
  refine ⟨(files_are_indexed_apart hf hgf).1 hs ht,
    (files_are_indexed_apart hgf hfg).2.1 ?_ ht hd,
    (files_are_indexed_apart hfg hf).2.2 (.inr hfree) hd⟩
  intro n hn
  exact Node.read_compact (hfree n hn) (hcanonical n hn)

end CodeIndex
