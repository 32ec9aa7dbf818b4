import CodeIndex.Proofs.Store.Agreement
import CodeIndex.Proofs.Store.Contents
import CodeIndex.Proofs.Store.Rebuilds
import CodeIndex.Proofs.Tree.Settled
import Mathlib.Tactic.Set

/-! # Numbers of rows

Files, symbols and references are numbered from one on, each sort on its own and in the order in
which the rows came. The symbols of an index are those of its first file, then those of its second
file and so on, and every row has the number of the file whose path it shows. All reads of an index
agree on this, after any calls.
-/

namespace CodeIndex

def rowNumbers (n : Nat) : List Int :=
  (List.range n).map fun i : Nat => (i : Int) + 1

theorem rowNumbers_add (n k : Nat) :
    rowNumbers (n + k) =
      rowNumbers n ++ (List.range k).map fun i : Nat => (n : Int) + 1 + (i : Int) := by
  simp only [rowNumbers, List.range_add, List.map_append, List.map_map]
  congr 1
  apply List.map_congr_left
  intro i _
  simp only [Function.comp_apply]
  omega

theorem mem_rowNumbers {n : Nat} {id : Int} : id ∈ rowNumbers n ↔ 1 ≤ id ∧ id ≤ n := by
  simp only [rowNumbers, List.mem_map, List.mem_range]
  constructor
  · rintro ⟨i, hi, rfl⟩
    omega
  · rintro ⟨hl, hu⟩
    exact ⟨(id - 1).toNat, by omega, by omega⟩

theorem pairwise_rowNumbers (n : Nat) : (rowNumbers n).Pairwise (· < ·) := by
  rw [rowNumbers, List.pairwise_map]
  apply List.pairwise_lt_range.imp
  intro i j hij
  omega

theorem nodup_rowNumbers (n : Nat) : (rowNumbers n).Nodup :=
  (pairwise_rowNumbers n).imp fun h => Int.ne_of_lt h

theorem getElem?_rowNumbers {n i : Nat} {id : Int} (h : (rowNumbers n)[i]? = some id) :
    id = i + 1 := by
  rw [rowNumbers, List.getElem?_map] at h
  rcases Option.map_eq_some_iff.mp h with ⟨j, hj, rfl⟩
  rw [List.getElem?_eq_some_iff] at hj
  rcases hj with ⟨hi, rfl⟩
  simp

/-! ## What reads say -/

/-- Whether the files of an index are those at `paths`, its rows as many as `size` says, and its
reads agree on one numbering of them: `symbols p` are the symbols in the file at `p`, and
`references n` the references to a name `n`. -/
structure IndexReader.Numbers (r : IndexReader) (paths : List String) (size : StoreStats)
    (symbols : String → List SymbolRecord) (references : String → List ReferenceRecord) :
    Prop where
  filePaths : r.filePaths = .ok paths
  stats : r.stats = .ok size
  distinct : paths.Nodup
  fileCount : paths.length = size.files
  hasFile : ∀ p, r.hasFile p = .ok (decide (p ∈ paths))
  file : ∀ p, ∃ found, r.file p = .ok found ∧ (found.isSome ↔ p ∈ paths)
  fileIds : ∀ (i : Nat) (p : String), paths[i]? = some p →
    ∃ g, r.file p = .ok (some g) ∧ g.path = p ∧ g.id = i + 1
  symbolsInFile : ∀ p, r.symbolsInFile p = .ok (symbols p)
  /-- The symbols of all files, one file after the other, are numbered without a gap. -/
  symbolIds : (paths.flatMap symbols).map (·.id) = rowNumbers size.symbols
  symbolFiles : ∀ (i : Nat) (p : String), paths[i]? = some p →
    ∀ s ∈ symbols p, s.path = p ∧ s.fileId = i + 1
  noSymbols : ∀ p, p ∉ paths → symbols p = []
  symbolsNamed : ∀ n, r.symbolsNamed n = .ok ((paths.flatMap symbols).filter (·.name == n))
  referencesNamed : ∀ n, r.referencesNamed n = .ok (references n)
  referenceNames : ∀ n, ∀ u ∈ references n, u.symbolName = n
  referenceOrder : ∀ n, (references n).Pairwise (·.id < ·.id)
  /-- No two references have one number, whatever their names. -/
  referencesApart : ∀ n n', ∀ u ∈ references n, ∀ u' ∈ references n', u.id = u'.id → u = u'
  referenceIds : ∀ id : Int,
    (∃ n, ∃ u ∈ references n, u.id = id) ↔ 1 ≤ id ∧ id ≤ size.references
  referenceFiles : ∀ n, ∀ u ∈ references n, ∃ i : Nat, paths[i]? = some u.path ∧ u.fileId = i + 1

/-- Whether an index holds what was extracted from files, and nothing else. -/
structure IndexReader.Holds (r : IndexReader) (files : List FileExtraction) : Prop where
  filePaths : r.filePaths = .ok (files.map (·.path))
  tree : ∀ f ∈ files, ∃ g, r.file f.path = .ok (some g) ∧ g.path = f.path ∧ g.root = f.root
  symbols : ∀ f ∈ files, ∃ rows, r.symbolsInFile f.path = .ok rows ∧
    rows.map (·.content) = f.symbols
  references : ∀ f ∈ files, ∀ n, ∃ rows, r.referencesNamed n = .ok rows ∧
    (rows.filter (·.path == f.path)).map (·.content) =
      f.references.filter (·.symbolName == n)
  stats : r.stats = .ok ⟨files.length, (files.map (·.symbols.length)).sum,
    (files.map (·.references.length)).sum⟩

namespace MemoryIndex

/-! ## Numbering -/

theorem ids_symbolRecords (fileId : Int) (path : String) (id : Int) (ss : List ExtractedSymbol) :
    (symbolRecords fileId path id ss).map (·.id) =
      (List.range ss.length).map fun i : Nat => id + (i : Int) := by
  induction ss generalizing id with
  | nil => rfl
  | cons s ss ih =>
    rw [symbolRecords, List.map_cons, ih, List.length_cons, List.range_succ_eq_map]
    simp only [List.map_cons, List.map_map, List.cons.injEq]
    exact ⟨by simp, List.map_congr_left fun i _ => by simp only [Function.comp_apply]; omega⟩

theorem ids_referenceRecords (fileId : Int) (path : String) (id : Int)
    (rs : List ExtractedReference) :
    (referenceRecords fileId path id rs).map (·.id) =
      (List.range rs.length).map fun i : Nat => id + (i : Int) := by
  induction rs generalizing id with
  | nil => rfl
  | cons r rs ih =>
    rw [referenceRecords, List.map_cons, ih, List.length_cons, List.range_succ_eq_map]
    simp only [List.map_cons, List.map_map, List.cons.injEq]
    exact ⟨by simp, List.map_congr_left fun i _ => by simp only [Function.comp_apply]; omega⟩

/-- Whether rows are numbered in their order, belong to files that are there, and symbols come file
by file. -/
structure Numbered (m : MemoryIndex) : Prop where
  fileIds : m.files.map (·.id) = rowNumbers m.files.length
  symbolIds : m.symbols.map (·.id) = rowNumbers m.symbols.length
  referenceIds : m.references.map (·.id) = rowNumbers m.references.length
  symbolFiles : ∀ s ∈ m.symbols, ∃ g ∈ m.files, s.fileId = g.id ∧ s.path = g.path
  referenceFiles : ∀ u ∈ m.references, ∃ g ∈ m.files, u.fileId = g.id ∧ u.path = g.path
  grouped : (m.files.flatMap fun g => m.symbols.filter (·.fileId == g.id)) = m.symbols

theorem numbered_empty : Numbered {} where
  fileIds := rfl
  symbolIds := rfl
  referenceIds := rfl
  symbolFiles := List.forall_mem_nil _
  referenceFiles := List.forall_mem_nil _
  grouped := rfl

theorem Numbered.id_le {m : MemoryIndex} (hm : m.Numbered) {g : IndexedFile} (hg : g ∈ m.files) :
    g.id ≤ m.files.length := by
  have hid : g.id ∈ m.files.map (·.id) := List.mem_map_of_mem hg
  rw [hm.fileIds] at hid
  exact (mem_rowNumbers.mp hid).2

/-- The rows of a new file stand behind all others, and no other file has its number. -/
theorem grouped_add {m : MemoryIndex} (hm : m.Numbered) (f : FileExtraction) :
    ((m.add f).files.flatMap fun g => (m.add f).symbols.filter (·.fileId == g.id)) =
      (m.add f).symbols := by
  have hold : ∀ g ∈ m.files, (m.add f).symbols.filter (·.fileId == g.id) =
      m.symbols.filter (·.fileId == g.id) := by
    intro g hg
    have hnone : (symbolRecords (m.files.length + 1) f.path (m.symbols.length + 1)
        f.symbols).filter (·.fileId == g.id) = [] := by
      rw [List.filter_eq_nil_iff]
      intro s hs
      have hle := hm.id_le hg
      rw [(of_mem_symbolRecords hs).1, beq_iff_eq]
      omega
    simp only [add, List.filter_append, hnone, List.append_nil]
  have hnew : (m.add f).symbols.filter (·.fileId == (m.files.length + 1 : Int)) =
      symbolRecords (m.files.length + 1) f.path (m.symbols.length + 1) f.symbols := by
    have hnone : m.symbols.filter (·.fileId == (m.files.length + 1 : Int)) = [] := by
      rw [List.filter_eq_nil_iff]
      intro s hs
      rcases hm.symbolFiles s hs with ⟨g, hg, hid, -⟩
      have hle := hm.id_le hg
      rw [hid, beq_iff_eq]
      omega
    simp only [add, List.filter_append, hnone, List.nil_append, List.filter_eq_self]
    intro s hs
    rw [(of_mem_symbolRecords hs).1, beq_self_eq_true]
  have hfiles : (m.add f).files = m.files ++ [⟨m.files.length + 1, f.path, f.root⟩] := rfl
  rw [hfiles, List.flatMap_append, List.flatMap_congr hold, hm.grouped, List.flatMap_singleton,
    hnew]
  rfl

theorem numbered_add {m : MemoryIndex} (hm : m.Numbered) (f : FileExtraction) :
    (m.add f).Numbered where
  fileIds := by
    simp only [add, List.map_append, hm.fileIds, List.length_append, rowNumbers_add]
    simp
  symbolIds := by
    simp only [add, List.map_append, hm.symbolIds, ids_symbolRecords, List.length_append,
      length_symbolRecords, rowNumbers_add]
  referenceIds := by
    simp only [add, List.map_append, hm.referenceIds, ids_referenceRecords, List.length_append,
      length_referenceRecords, rowNumbers_add]
  symbolFiles := by
    simp only [add, List.forall_mem_append]
    constructor
    · intro s hs
      rcases hm.symbolFiles s hs with ⟨g, hg, h⟩
      exact ⟨g, List.mem_append_left _ hg, h⟩
    · intro s hs
      rcases of_mem_symbolRecords hs with ⟨hid, hpath, -⟩
      exact ⟨_, List.mem_append_right _ List.mem_cons_self, hid, hpath⟩
  referenceFiles := by
    simp only [add, List.forall_mem_append]
    constructor
    · intro u hu
      rcases hm.referenceFiles u hu with ⟨g, hg, h⟩
      exact ⟨g, List.mem_append_left _ hg, h⟩
    · intro u hu
      exact ⟨_, List.mem_append_right _ List.mem_cons_self, of_mem_referenceRecords hu⟩
  grouped := grouped_add hm f

theorem numbered_ofFiles (files : List FileExtraction) : (ofFiles files).Numbered :=
  ofFiles_induction (P := Numbered) (Q := fun _ => True) numbered_empty
    (fun _ f hm _ => numbered_add hm f) fun _ _ => trivial

/-! ## Reads -/

section Reads

variable {m : MemoryIndex} (hm : m.Numbered) (hdistinct : (m.files.map (·.path)).Nodup)

include hm

theorem Numbered.getElem?_path {g : IndexedFile} (hg : g ∈ m.files) :
    ∃ i : Nat, (m.files.map (·.path))[i]? = some g.path ∧ g.id = i + 1 := by
  rcases List.mem_iff_getElem?.mp hg with ⟨i, hi⟩
  refine ⟨i, by simp [hi], ?_⟩
  have hid : (m.files.map (·.id))[i]? = some g.id := by simp [hi]
  rw [hm.fileIds] at hid
  exact getElem?_rowNumbers hid

include hdistinct

/-- A row shows the path of a file exactly when it has its number. -/
theorem Numbered.path_iff {g g' : IndexedFile} (hg : g ∈ m.files) (hg' : g' ∈ m.files) :
    g'.path = g.path ↔ g'.id = g.id := by
  have hids : (m.files.map (·.id)).Nodup := hm.fileIds ▸ nodup_rowNumbers _
  constructor
  · intro h
    rw [List.inj_on_of_nodup_map hdistinct hg' hg h]
  · intro h
    rw [List.inj_on_of_nodup_map hids hg' hg h]

theorem Numbered.flatMap_paths :
    ((m.files.map (·.path)).flatMap fun p => m.symbols.filter (·.path == p)) = m.symbols := by
  rw [List.flatMap_map]
  refine (List.flatMap_congr ?_).trans hm.grouped
  intro g hg
  apply List.filter_congr
  intro s hs
  rcases hm.symbolFiles s hs with ⟨g', hg', hid, hpath⟩
  rw [hid, hpath, Bool.eq_iff_iff, beq_iff_eq, beq_iff_eq]
  exact hm.path_iff hdistinct hg hg'

theorem Numbered.fileId {i : Nat} {p : String} (h : (m.files.map (·.path))[i]? = some p) :
    ∃ g, m.files.find? (·.path == p) = some g ∧ g.path = p ∧ g.id = i + 1 := by
  rw [List.getElem?_map] at h
  rcases Option.map_eq_some_iff.mp h with ⟨g, hg, rfl⟩
  refine ⟨g, find?_of_nodup_keys hdistinct (List.mem_of_getElem? hg), rfl, ?_⟩
  have hid : (m.files.map (·.id))[i]? = some g.id := by simp [hg]
  rw [hm.fileIds] at hid
  exact getElem?_rowNumbers hid

/-- The reads of an index in memory agree on the numbers of its rows. -/
theorem Numbered.reader :
    m.reader.Numbers (m.files.map (·.path)) m.stats (fun p => m.symbols.filter (·.path == p))
      fun n => m.references.filter (·.symbolName == n) where
  filePaths := rfl
  stats := rfl
  distinct := hdistinct
  fileCount := List.length_map _
  hasFile p := by
    have h : m.files.any (·.path == p) = decide (p ∈ m.files.map (·.path)) := by
      rw [Bool.eq_iff_iff, List.any_eq_true, decide_eq_true_iff, List.mem_map]
      simp only [beq_iff_eq]
    exact congrArg Except.ok h
  file p := by
    refine ⟨_, rfl, ?_⟩
    rw [List.find?_isSome, List.mem_map]
    simp only [beq_iff_eq]
  fileIds i p h := by
    rcases hm.fileId hdistinct h with ⟨g, hg, hpath, hid⟩
    exact ⟨g, congrArg Except.ok hg, hpath, hid⟩
  symbolsInFile p := rfl
  symbolIds := by
    rw [hm.flatMap_paths hdistinct, hm.symbolIds]
    rfl
  symbolFiles i p h s hs := by
    rcases List.mem_filter.mp hs with ⟨hs, hp⟩
    rcases hm.symbolFiles s hs with ⟨g, hg, hid, hpath⟩
    rcases hm.fileId hdistinct h with ⟨g', hfound, hpath', hid'⟩
    have hp : s.path = p := beq_iff_eq.mp hp
    have hsame := (hm.path_iff hdistinct hg (List.mem_of_find?_eq_some hfound)).mp
      (hpath'.trans (hp.symm.trans hpath))
    exact ⟨hp, hid.trans (hsame.symm.trans hid')⟩
  noSymbols p hp := by
    rw [List.filter_eq_nil_iff]
    intro s hs hpath
    rcases hm.symbolFiles s hs with ⟨g, hg, -, hpath'⟩
    apply hp
    rw [← beq_iff_eq.mp hpath, hpath']
    exact List.mem_map_of_mem hg
  symbolsNamed n := by
    rw [hm.flatMap_paths hdistinct]
    rfl
  referencesNamed n := rfl
  referenceNames n u hu := beq_iff_eq.mp (List.mem_filter.mp hu).2
  referenceOrder n := by
    have horder := pairwise_rowNumbers m.references.length
    rw [← hm.referenceIds, List.pairwise_map] at horder
    exact horder.filter _
  referencesApart n n' u hu u' hu' h := by
    have hids : (m.references.map (·.id)).Nodup := hm.referenceIds ▸ nodup_rowNumbers _
    exact List.inj_on_of_nodup_map hids (List.mem_filter.mp hu).1 (List.mem_filter.mp hu').1 h
  referenceIds id := by
    change _ ↔ 1 ≤ id ∧ id ≤ (m.references.length : Int)
    rw [← mem_rowNumbers, ← hm.referenceIds, List.mem_map]
    constructor
    · rintro ⟨n, u, hu, rfl⟩
      exact ⟨u, (List.mem_filter.mp hu).1, rfl⟩
    · rintro ⟨u, hu, rfl⟩
      exact ⟨u.symbolName, u, List.mem_filter.mpr ⟨hu, beq_self_eq_true _⟩, rfl⟩
  referenceFiles n u hu := by
    rcases hm.referenceFiles u (List.mem_filter.mp hu).1 with ⟨g, hg, hid, hpath⟩
    rcases hm.getElem?_path hg with ⟨i, hi, hgid⟩
    exact ⟨i, hpath ▸ hi, hid.trans hgid⟩

end Reads

/-! ## Contents -/

section Contents

variable {files : List FileExtraction}

theorem paths_ofFiles (files : List FileExtraction) :
    (ofFiles files).files.map (·.path) = files.map (·.path) := by
  have h := congrArg (List.map Prod.fst) (files_ofFiles files)
  simpa [List.map_map, Function.comp_def] using h

theorem length_symbols_ofFiles (files : List FileExtraction) :
    (ofFiles files).symbols.length = (files.map (·.symbols.length)).sum := by
  have h := congrArg List.length (symbols_ofFiles files)
  simpa [List.length_flatMap] using h

theorem length_references_ofFiles (files : List FileExtraction) :
    (ofFiles files).references.length = (files.map (·.references.length)).sum := by
  have h := congrArg List.length (references_ofFiles files)
  simpa [List.length_flatMap] using h

theorem symbols_of_path (hdistinct : (files.map (·.path)).Nodup) {f : FileExtraction}
    (hf : f ∈ files) :
    ((ofFiles files).symbols.filter (·.path == f.path)).map (·.content) = f.symbols := by
  have h := congrArg (List.filter fun p => p.1 == f.path) (symbols_ofFiles files)
  rw [filter_flatMap_of_nodup_keys hdistinct hf, List.filter_map] at h
  simpa [List.map_map, Function.comp_def] using congrArg (List.map Prod.snd) h

theorem references_of_path (hdistinct : (files.map (·.path)).Nodup) {f : FileExtraction}
    (hf : f ∈ files) :
    ((ofFiles files).references.filter (·.path == f.path)).map (·.content) = f.references := by
  have h := congrArg (List.filter fun p => p.1 == f.path) (references_ofFiles files)
  rw [filter_flatMap_of_nodup_keys hdistinct hf, List.filter_map] at h
  simpa [List.map_map, Function.comp_def] using congrArg (List.map Prod.snd) h

/-- An index in memory holds what was extracted from its files. -/
theorem holds_ofFiles (hdistinct : (files.map (·.path)).Nodup) :
    (ofFiles files).reader.Holds files where
  filePaths := congrArg Except.ok (paths_ofFiles files)
  tree f hf := by
    rcases find?_ofFiles hdistinct hf with ⟨g, hg, h⟩
    exact ⟨g, congrArg Except.ok hg, h⟩
  symbols f hf := ⟨_, rfl, symbols_of_path hdistinct hf⟩
  references f hf n := by
    refine ⟨_, rfl, ?_⟩
    rw [← references_of_path hdistinct hf, List.filter_map, List.filter_filter, List.filter_filter]
    simp [ReferenceRecord.content, Bool.and_comm]
  stats := by
    have hlength := congrArg List.length (paths_ofFiles files)
    simp only [List.length_map] at hlength
    simp only [reader, stats, hlength, length_symbols_ofFiles, length_references_ofFiles]

end Contents

end MemoryIndex

/-! ## Tables -/

def FileExtraction.FloatFree (f : FileExtraction) : Prop :=
  ∀ n ∈ f.trees, n.FloatFree

def ExtractedSymbol.settled (s : ExtractedSymbol) : ExtractedSymbol :=
  { s with subtree := s.subtree.map Node.settled }

def FileExtraction.settled (f : FileExtraction) : FileExtraction :=
  { f with root := f.root.settled, symbols := f.symbols.map ExtractedSymbol.settled }

theorem FileExtraction.trees_settled (f : FileExtraction) :
    f.settled.trees = f.trees.map Node.settled := by
  simp only [trees, settled, List.map_cons, List.filterMap_map, List.map_filterMap]
  rfl

namespace Database

theorem symbolRow_settled (fileId id : Int) (s : ExtractedSymbol) :
    symbolRow fileId id s.settled = symbolRow fileId id s := by
  have hsubtree : (s.subtree.map Node.settled).map Node.compact = s.subtree.map Node.compact := by
    rw [Option.map_map]
    exact congrArg (Option.map · s.subtree) (funext Node.compact_settled)
  simp only [symbolRow, ExtractedSymbol.settled, hsubtree]

theorem insertFile_settled (f : Filling) (file : FileExtraction) :
    insertFile f file.settled = insertFile f file := by
  have hsymbol : ∀ id f s, insertSymbol id f (ExtractedSymbol.settled s) = insertSymbol id f s := by
    intro id f s
    rw [insertSymbol, symbolRow_settled]
    rfl
  simp only [insertFile, FileExtraction.settled, Node.compact_settled, List.foldl_map, hsymbol]

/-- Tables hold the texts of trees, which settling does not change. -/
theorem fill_settled (files : List FileExtraction) :
    fill (files.map FileExtraction.settled) = fill files := by
  simp only [fill, List.foldl_map, insertFile_settled]

/-- Tables are read as an index in memory is that holds the settled trees. -/
theorem reader_fill {files : List FileExtraction} (h : ∀ f ∈ files, f.FloatFree) :
    (fill files).rows.reader =
      (MemoryIndex.ofFiles (files.map FileExtraction.settled)).reader := by
  rw [← fill_settled]
  apply MemoryIndex.reader_fill_of_storable
  intro f hf n hn
  rcases List.mem_map.mp hf with ⟨g, hg, rfl⟩
  rw [FileExtraction.trees_settled] at hn
  rcases List.mem_map.mp hn with ⟨m, hm, rfl⟩
  exact Node.read_compact (Node.floatFree_settled (h g hg m hm)) (Node.canonical_settled m)

end Database

/-! ## All stores -/

/-- Whether an index holds what was extracted from files and numbers it throughout. -/
def IndexReader.Accounts (r : IndexReader) (files : List FileExtraction) : Prop :=
  r.Holds files ∧ ∃ size symbols references,
    r.Numbers (files.map (·.path)) size symbols references

theorem MemoryIndex.accounts_ofFiles {files : List FileExtraction}
    (hdistinct : (files.map (·.path)).Nodup) : (ofFiles files).reader.Accounts files := by
  have hpaths := paths_ofFiles files
  have hnumbers := (numbered_ofFiles files).reader (hpaths ▸ hdistinct)
  rw [hpaths] at hnumbers
  exact ⟨holds_ofFiles hdistinct, _, _, _, hnumbers⟩

theorem Database.accounts_fill {files : List FileExtraction}
    (hdistinct : (files.map (·.path)).Nodup) (h : ∀ f ∈ files, f.FloatFree) :
    (fill files).rows.reader.Accounts (files.map FileExtraction.settled) := by
  rw [reader_fill h]
  apply MemoryIndex.accounts_ofFiles
  rw [List.map_map]
  exact hdistinct

/-- What a store accounts for after some calls, if it accounts for every list of files with distinct
paths that it is rebuilt from. -/
theorem Rebuildable.accounts_after [IndexStore σ] {Ready : σ → Prop}
    {index : List FileExtraction → IndexReader} (hσ : Rebuildable Ready index) {s : σ}
    (hs : Ready s) (hempty : IndexStore.reader s = index [])
    (kept : FileExtraction → FileExtraction) (calls : List StoreCall)
    (h : ∀ files, (files.map (·.path)).Nodup → (∀ f ∈ files, ∃ c ∈ calls, f ∈ c.files) →
      (index files).Accounts (files.map kept)) :
    (IndexStore.reader (IndexStore.after s calls)).Accounts
      (((lastAccepted? calls).getD []).map kept) := by
  rw [hσ.reader_after hs hempty]
  cases hlast : lastAccepted? calls with
  | none => exact h [] List.nodup_nil (List.forall_mem_nil _)
  | some files =>
    rcases of_lastAccepted? hlast with ⟨hnodup, hmem⟩
    exact h files hnodup fun f hf => ⟨_, hmem, hf⟩

/-- After any calls all stores account for the files of the last rebuild that succeeded: their rows
are numbered without gaps and grouped by file, and every read shows each of them with the path and
the number of its file. A store that keeps texts keeps the trees settled. -/
theorem stores_number_rows :
    (∀ calls, (IndexStore.reader (IndexStore.after ({} : MemoryIndex) calls)).Accounts
      ((lastAccepted? calls).getD [])) ∧
    (∀ calls, (∀ c ∈ calls, ∀ f ∈ c.files, f.FloatFree) →
      (IndexStore.reader (IndexStore.after ({} : Database) calls)).Accounts
        (((lastAccepted? calls).getD []).map FileExtraction.settled)) ∧
    ∀ (s : StoredIndex) (calls), s.opened.fixed = false → s.opened.rows = {} →
      (∀ c ∈ calls, ∀ f ∈ c.files, f.FloatFree) →
      (IndexStore.reader (IndexStore.after s calls)).Accounts
        (((lastAccepted? calls).getD []).map FileExtraction.settled) := by
  have htables : ∀ calls : List StoreCall, (∀ c ∈ calls, ∀ f ∈ c.files, f.FloatFree) →
      ∀ files : List FileExtraction, (files.map (·.path)).Nodup →
        (∀ f ∈ files, ∃ c ∈ calls, f ∈ c.files) →
        (Database.fill files).rows.reader.Accounts (files.map FileExtraction.settled) := by
    intro calls hcalls files hnodup hfiles
    apply Database.accounts_fill hnodup
    intro f hf
    rcases hfiles f hf with ⟨c, hc, hfc⟩
    exact hcalls c hc f hfc
  refine ⟨fun calls => ?_, fun calls hcalls => ?_, fun s calls hfixed hrows hcalls => ?_⟩
  · have hmemory : ∀ files : List FileExtraction, (files.map (·.path)).Nodup →
        (∀ f ∈ files, ∃ c ∈ calls, f ∈ c.files) →
        (MemoryIndex.ofFiles files).reader.Accounts (files.map id) := by
      intro files hnodup _
      rw [List.map_id]
      exact MemoryIndex.accounts_ofFiles hnodup
    have h := MemoryIndex.rebuildable.accounts_after (s := {}) trivial rfl id calls hmemory
    rwa [List.map_id] at h
  · exact Database.rebuildable.accounts_after trivial rfl _ calls (htables calls hcalls)
  · have hempty : IndexStore.reader s = (Database.fill []).rows.reader :=
      congrArg Database.reader hrows
    exact StoredIndex.rebuildable.accounts_after hfixed hempty _ calls (htables calls hcalls)

theorem stores_number_rows_refused :
    ∃ (f g : FileExtraction) (s : StoredIndex),
      f = ⟨"dog.rb", .branch (some "class") [.literal (.large 5)] (some ⟨1, 3⟩),
        [⟨"bark", .callable, "Dog", ⟨2, 2⟩, none, some (.branch (some "def") [] none)⟩],
        [⟨"puts", ⟨2, 2⟩⟩]⟩ ∧
      g = ⟨"cat.rb", .branch none [] none, [], [⟨"puts", ⟨1, 1⟩⟩]⟩ ∧ s = ⟨{}, {}⟩ ∧
      (IndexStore.reader (IndexStore.after ({} : Database)
        [.rebuild [f, g], .rebuild [g, g], .stats])).Accounts [f.settled, g.settled] ∧
      (IndexStore.reader (IndexStore.after s
        [.rebuild [f, g], .rebuild [g, g], .stats])).Accounts [f.settled, g.settled] := by
  refine ⟨_, _, _, rfl, rfl, rfl, ?_⟩
  set f : FileExtraction := ⟨"dog.rb", _, _, _⟩
  set g : FileExtraction := ⟨"cat.rb", _, _, _⟩
  have hf : f.FloatFree := by
    change ∀ n ∈ f.trees, n.FloatFree
    decide
  have hg : g.FloatFree := by
    change ∀ n ∈ g.trees, n.FloatFree
    decide
  have hfree : ∀ c ∈ [StoreCall.rebuild [f, g], .rebuild [g, g], .stats], ∀ h ∈ c.files,
      h.FloatFree := by
    simp [StoreCall.files, hf, hg]
  have hlast : lastAccepted? [.rebuild [f, g], .rebuild [g, g], .stats] = some [f, g] := rfl
  rcases stores_number_rows with ⟨-, hdatabase, hstored⟩
  have hd := hdatabase _ hfree
  have hs := hstored ⟨{}, {}⟩ _ rfl rfl hfree
  rw [hlast] at hd hs
  exact ⟨hd, hs⟩

end CodeIndex
