import CodeIndex.Proofs.Except
import CodeIndex.Proofs.Store.Calls
import CodeIndex.Proofs.Tree.RoundTrip
import CodeIndex.Store.Database
import CodeIndex.Store.Memory

/-! # The two stores of an index

A database that was filled from some files holds the image of the records which an index in memory
has of them. Reading turns the images back into the records: trees are read again from their texts,
words name the kinds that were written, and the number of a file leads to the path that its records
had, since files are numbered in their order.
-/

namespace CodeIndex

/-- A tree that can be kept as a text. -/
def Node.Storable (n : Node) : Prop := Node.read (Text.octets n.compact) = .ok n

/-- A tree that was read from a text, or a part of one. -/
def Node.Decoded (n : Node) : Prop :=
  ∃ (s : Text.Octets) (root : Node) (path : List Nat),
    Node.read s = .ok root ∧ root.follow? path = some n

namespace FileExtraction

def trees (f : FileExtraction) : List Node :=
  f.root :: f.symbols.filterMap (·.subtree)

/-- Whether the trees of a file were read from texts and hold no floats. -/
def FromTexts (f : FileExtraction) : Prop :=
  ∀ n ∈ f.trees, n.Decoded ∧ n.FloatFree

end FileExtraction

theorem Node.storable_of_decoded {n : Node} (h : n.Decoded) (hf : n.FloatFree) : n.Storable := by
  obtain ⟨s, root, path, hr, hn⟩ := h
  exact read_compact hf fun v hv => canonical_of_read hr v (mem_literals_of_follow? hn hv)

namespace Database

/-! ## Images of records -/

def imageOfFile (f : IndexedFile) : FileRow := ⟨f.id, f.path, f.root.compact⟩

def imageOfSymbol (s : SymbolRecord) : SymbolRow where
  id := s.id
  fileId := s.fileId
  name := s.name
  kind := s.kind.word
  scope := s.scope
  start := .number s.span.start.toNat
  stop := .number s.span.stop.toNat
  sourceText := s.sourceText
  subtree := s.subtree.map Node.compact

def imageOfReference (r : ReferenceRecord) : ReferenceRow :=
  ⟨r.id, r.fileId, r.symbolName, .number r.span.start.toNat, .number r.span.stop.toNat⟩

theorem readLine_number (column : Nat) (name : String) (w : UInt32) :
    readLine column name (.number w.toNat) = .ok w := by
  rw [readLine, if_pos (word_range w), Int.toNat_natCast, UInt32.ofNat_toNat]

theorem readTree_compact (column : Nat) {tree : Option Node} (h : ∀ n ∈ tree, n.Storable) :
    readTree column (tree.map Node.compact) = .ok tree := by
  cases tree with
  | none => rfl
  | some n =>
    have hn : Node.read (Text.octets n.compact) = .ok n := h n rfl
    simp only [readTree, Option.map_some, hn]

theorem readSymbol_image {s : SymbolRecord} (h : ∀ n ∈ s.subtree, n.Storable) :
    readSymbol s.path (imageOfSymbol s) = .ok s := by
  simp only [readSymbol, imageOfSymbol, SymbolKind.ofWord?_word, readLine_number,
    readTree_compact 9 h]
  rfl

theorem readReference_image (r : ReferenceRecord) :
    readReference r.path (imageOfReference r) = .ok r := by
  simp only [readReference, imageOfReference, readLine_number]
  rfl

/-! ## Filling tables -/

theorem foldl_insertSymbol (fileId : Int) (path : String) (ss : List ExtractedSymbol)
    (f : Filling) :
    ss.foldl (insertSymbol fileId) f =
      { rows := { f.rows with
          symbols := f.rows.symbols ++ (MemoryIndex.symbolRecords fileId path
            (f.counts.symbols + 1) ss).map imageOfSymbol }
        counts := { f.counts with symbols := f.counts.symbols + ss.length } } := by
  induction ss generalizing f with
  | nil => simp [MemoryIndex.symbolRecords]
  | cons s ss ih =>
    rw [List.foldl_cons, ih]
    simp [insertSymbol, MemoryIndex.symbolRecords, symbolRow, imageOfSymbol, Nat.add_assoc,
      Nat.add_comm 1]

theorem foldl_insertReference (fileId : Int) (path : String) (rs : List ExtractedReference)
    (f : Filling) :
    rs.foldl (insertReference fileId) f =
      { rows := { f.rows with
          references := f.rows.references ++ (MemoryIndex.referenceRecords fileId path
            (f.counts.references + 1) rs).map imageOfReference }
        counts := { f.counts with references := f.counts.references + rs.length } } := by
  induction rs generalizing f with
  | nil => simp [MemoryIndex.referenceRecords]
  | cons r rs ih =>
    rw [List.foldl_cons, ih]
    simp [insertReference, MemoryIndex.referenceRecords, referenceRow, imageOfReference,
      Nat.add_assoc, Nat.add_comm 1]

/-- The tables that hold the images of the records of an index. -/
def image (m : MemoryIndex) : Database where
  files := m.files.map imageOfFile
  symbols := m.symbols.map imageOfSymbol
  references := m.references.map imageOfReference

end Database

namespace MemoryIndex

open Database

theorem length_symbolRecords (fileId : Int) (path : String) (id : Int)
    (ss : List ExtractedSymbol) : (symbolRecords fileId path id ss).length = ss.length := by
  induction ss generalizing id with
  | nil => rfl
  | cons s ss ih => rw [symbolRecords, List.length_cons, ih, List.length_cons]

theorem length_referenceRecords (fileId : Int) (path : String) (id : Int)
    (rs : List ExtractedReference) : (referenceRecords fileId path id rs).length = rs.length := by
  induction rs generalizing id with
  | nil => rfl
  | cons r rs ih => rw [referenceRecords, List.length_cons, ih, List.length_cons]

theorem of_mem_symbolRecords {fileId : Int} {path : String} {id : Int} {ss : List ExtractedSymbol}
    {r : SymbolRecord} (h : r ∈ symbolRecords fileId path id ss) :
    r.fileId = fileId ∧ r.path = path ∧ ∃ s ∈ ss, r.subtree = s.subtree := by
  induction ss generalizing id with
  | nil => cases h
  | cons s ss ih =>
    rcases List.mem_cons.mp h with rfl | h
    · exact ⟨rfl, rfl, s, List.mem_cons_self, rfl⟩
    · obtain ⟨hf, hp, t, ht, hs⟩ := ih h
      exact ⟨hf, hp, t, List.mem_cons_of_mem _ ht, hs⟩

theorem of_mem_referenceRecords {fileId : Int} {path : String} {id : Int}
    {rs : List ExtractedReference} {r : ReferenceRecord}
    (h : r ∈ referenceRecords fileId path id rs) : r.fileId = fileId ∧ r.path = path := by
  induction rs generalizing id with
  | nil => cases h
  | cons s rs ih =>
    rcases List.mem_cons.mp h with rfl | h
    · exact ⟨rfl, rfl⟩
    · exact ih h

/-- A file and its rows are written in a database as they are added in memory. -/
theorem insertFile_image (m : MemoryIndex) (f : FileExtraction) :
    insertFile ⟨image m, m.stats⟩ f = ⟨image (m.add f), (m.add f).stats⟩ := by
  simp only [insertFile, foldl_insertSymbol _ f.path, foldl_insertReference _ f.path, image, add,
    stats, List.map_append, List.length_append, length_symbolRecords, length_referenceRecords]
  rfl

theorem fill_eq_image (files : List FileExtraction) :
    fill files = ⟨image (ofFiles files), (ofFiles files).stats⟩ := by
  have h : ∀ (files : List FileExtraction) (m : MemoryIndex),
      files.foldl insertFile ⟨image m, m.stats⟩ =
        ⟨image (files.foldl add m), (files.foldl add m).stats⟩ := by
    intro files
    induction files with
    | nil => intro; rfl
    | cons f files ih =>
      intro m
      rw [List.foldl_cons, insertFile_image, ih, List.foldl_cons]
  exact h files {}

/-! ## Reading images -/

/-- Whether the number of a file is known to be that of a path. -/
def Numbers (m : MemoryIndex) (id : Int) (path : String) : Prop :=
  (m.files.find? (·.id == id)).map (·.path) = some path

/-- What an index in memory satisfies that was made from files. -/
structure Linked (m : MemoryIndex) : Prop where
  /-- Later files have larger numbers. -/
  ids : ∀ f ∈ m.files, f.id ≤ m.files.length
  symbolPaths : ∀ s ∈ m.symbols, m.Numbers s.fileId s.path
  referencePaths : ∀ r ∈ m.references, m.Numbers r.fileId r.path

/-- What it satisfies in addition where the trees of all files can be kept. -/
structure Sound (m : MemoryIndex) : Prop extends Linked m where
  roots : ∀ f ∈ m.files, f.root.Storable
  subtrees : ∀ s ∈ m.symbols, ∀ n ∈ s.subtree, n.Storable

theorem numbers_add {m : MemoryIndex} {id : Int} {path : String} (h : m.Numbers id path)
    (f : FileExtraction) : (m.add f).Numbers id path := by
  obtain ⟨g, hg, hp⟩ := Option.map_eq_some_iff.mp h
  simp [Numbers, add, List.find?_append, hg, hp]

theorem numbers_add_self {m : MemoryIndex} (h : ∀ f ∈ m.files, f.id ≤ m.files.length)
    (f : FileExtraction) : (m.add f).Numbers (m.files.length + 1) f.path := by
  -- no earlier file has the number of the new one
  have hnone : m.files.find? (·.id == (m.files.length + 1 : Int)) = none := by
    rw [List.find?_eq_none]
    intro g hg
    have := h g hg
    simp only [beq_iff_eq]
    omega
  simp [Numbers, add, List.find?_append, hnone]

theorem linked_add {m : MemoryIndex} (hm : m.Linked) (f : FileExtraction) : (m.add f).Linked where
  ids := by
    simp only [add, List.forall_mem_append, List.forall_mem_singleton, List.length_append,
      List.length_singleton]
    refine ⟨fun g hg => ?_, by simp⟩
    have := hm.ids g hg
    omega
  symbolPaths := by
    simp only [add, List.forall_mem_append]
    refine ⟨fun s hs => numbers_add (hm.symbolPaths s hs) f, fun s hs => ?_⟩
    obtain ⟨hi, hp, -⟩ := of_mem_symbolRecords hs
    rw [hi, hp]
    exact numbers_add_self hm.ids f
  referencePaths := by
    simp only [add, List.forall_mem_append]
    refine ⟨fun r hr => numbers_add (hm.referencePaths r hr) f, fun r hr => ?_⟩
    obtain ⟨hi, hp⟩ := of_mem_referenceRecords hr
    rw [hi, hp]
    exact numbers_add_self hm.ids f

theorem sound_add {m : MemoryIndex} {f : FileExtraction} (hm : m.Sound)
    (hf : ∀ n ∈ f.trees, n.Storable) : (m.add f).Sound where
  toLinked := linked_add hm.toLinked f
  roots := by
    simp only [add, List.forall_mem_append, List.forall_mem_singleton]
    exact ⟨hm.roots, hf _ List.mem_cons_self⟩
  subtrees := by
    simp only [add, List.forall_mem_append]
    refine ⟨hm.subtrees, fun s hs n hn => ?_⟩
    obtain ⟨-, -, t, ht, hst⟩ := of_mem_symbolRecords hs
    exact hf n (List.mem_cons_of_mem _ (List.mem_filterMap.mpr ⟨t, ht, hst ▸ hn⟩))

/-- What an empty index satisfies, and what every file of a kind that is added keeps, holds of an
index of files of that kind. -/
theorem ofFiles_induction {P : MemoryIndex → Prop} {Q : FileExtraction → Prop} (hempty : P {})
    (hadd : ∀ m f, P m → Q f → P (m.add f)) {files : List FileExtraction} (h : ∀ f ∈ files, Q f) :
    P (ofFiles files) := by
  have hfold : ∀ (files : List FileExtraction) (m : MemoryIndex), P m → (∀ f ∈ files, Q f) →
      P (files.foldl add m) := by
    intro files
    induction files with
    | nil => exact fun _ hm _ => hm
    | cons f files ih =>
      exact fun m hm hf => ih _ (hadd m f hm (hf f List.mem_cons_self))
        fun g hg => hf g (List.mem_cons_of_mem _ hg)
  exact hfold files {} hempty h

theorem linked_empty : Linked {} :=
  ⟨List.forall_mem_nil _, List.forall_mem_nil _, List.forall_mem_nil _⟩

theorem sound_empty : Sound {} :=
  ⟨linked_empty, List.forall_mem_nil _, List.forall_mem_nil _⟩

theorem linked_ofFiles (files : List FileExtraction) : (ofFiles files).Linked :=
  ofFiles_induction (P := Linked) (Q := fun _ => True) linked_empty
    (fun _ f hm _ => linked_add hm f) fun _ _ => trivial

theorem sound_ofFiles {files : List FileExtraction} (h : ∀ f ∈ files, ∀ n ∈ f.trees, n.Storable) :
    (ofFiles files).Sound :=
  ofFiles_induction (P := Sound) sound_empty (fun _ _ hm hf => sound_add hm hf) h

theorem pathOf?_image (m : MemoryIndex) (id : Int) :
    (image m).pathOf? id = (m.files.find? (·.id == id)).map (·.path) := by
  simp only [pathOf?, image, List.find?_map, Option.map_map]
  rfl

theorem filterMap_image {f : β → Option γ} {g : α → β} {k : α → γ} {xs : List α}
    (h : ∀ x ∈ xs, f (g x) = some (k x)) : (xs.map g).filterMap f = xs.map k := by
  rw [List.filterMap_map, ← List.filterMap_eq_map]
  exact List.filterMap_congr h

theorem locatedSymbols_image {m : MemoryIndex} (hm : m.Linked) :
    (image m).locatedSymbols = m.symbols.map fun s => (s.path, imageOfSymbol s) :=
  filterMap_image fun s hs => by
    have hp : (image m).pathOf? (imageOfSymbol s).fileId = some s.path :=
      (pathOf?_image m _).trans (hm.symbolPaths s hs)
    rw [hp, Option.map_some]

theorem locatedReferences_image {m : MemoryIndex} (hm : m.Linked) :
    (image m).locatedReferences = m.references.map fun r => (r.path, imageOfReference r) :=
  filterMap_image fun r hr => by
    have hp : (image m).pathOf? (imageOfReference r).fileId = some r.path :=
      (pathOf?_image m _).trans (hm.referencePaths r hr)
    rw [hp, Option.map_some]

theorem symbolsWhere_image {m : MemoryIndex} (hm : m.Sound)
    (wanted : String → SymbolRow → Bool) :
    (image m).symbolsWhere wanted =
      .ok (m.symbols.filter fun s => wanted s.path (imageOfSymbol s)) := by
  have hread : ∀ s ∈ m.symbols.filter (fun s => wanted s.path (imageOfSymbol s)),
      readSymbol s.path (imageOfSymbol s) = .ok s :=
    fun s hs => readSymbol_image (hm.subtrees s (List.mem_filter.mp hs).1)
  rw [symbolsWhere, locatedSymbols_image hm.toLinked, List.filter_map, List.mapM_map,
    Function.comp_def, Function.comp_def]
  exact Except.mapM_eq_ok hread

theorem referencesNamed_image {m : MemoryIndex} (hm : m.Linked) (name : String) :
    ((image m).locatedReferences.filter fun (_, row) => row.symbolName == name).mapM
      (fun (path, row) => readReference path row) =
      .ok (m.references.filter (·.symbolName == name)) := by
  have hread : ∀ r ∈ m.references.filter (·.symbolName == name),
      readReference r.path (imageOfReference r) = .ok r := fun r _ => readReference_image r
  rw [locatedReferences_image hm, List.filter_map, List.mapM_map, Function.comp_def,
    Function.comp_def]
  exact Except.mapM_eq_ok hread

theorem file_image {m : MemoryIndex} (hm : m.Sound) (path : String) :
    (image m).file path = .ok (m.files.find? (·.path == path)) := by
  have hfind : (image m).files.find? (·.path == path) =
      (m.files.find? (·.path == path)).map imageOfFile := List.find?_map
  rw [file, hfind]
  cases hf : m.files.find? (·.path == path) with
  | none => rfl
  | some f =>
    have hr : Node.read (Text.octets f.root.compact) = .ok f.root :=
      hm.roots f (List.mem_of_find?_eq_some hf)
    simp only [Option.map_some, imageOfFile, hr]

/-- What is read from the images is what is read in memory. -/
theorem reader_image {m : MemoryIndex} (hm : m.Sound) : (image m).reader = m.reader := by
  have hfile : (image m).file = fun path => .ok (m.files.find? (·.path == path)) :=
    funext (file_image hm)
  simp only [Database.reader, MemoryIndex.reader, symbolsWhere_image hm,
    referencesNamed_image hm.toLinked, hfile]
  simp only [image, Database.stats, MemoryIndex.stats, List.any_map, List.map_map,
    List.length_map]
  rfl

/-- Tables are read as an index in memory is where the trees of all files can be kept as texts. -/
theorem reader_fill_of_storable {files : List FileExtraction}
    (h : ∀ f ∈ files, ∀ n ∈ f.trees, n.Storable) :
    (fill files).rows.reader = (ofFiles files).reader := by
  rw [fill_eq_image]
  exact reader_image (sound_ofFiles h)

/-- An index in memory and the tables with its images cannot be told apart. -/
theorem simulation :
    StoreSimulation (fun (m : MemoryIndex) (d : Database) => m.Sound ∧ d = image m)
      FileExtraction.FromTexts where
  reader := by
    rintro m _ ⟨hm, rfl⟩
    exact (reader_image hm).symm
  rebuild := by
    rintro m _ files ⟨-, rfl⟩ hfiles
    have hsound : (ofFiles files).Sound := sound_ofFiles fun f hf n hn =>
      Node.storable_of_decoded (hfiles f hf n hn).1 (hfiles f hf n hn).2
    cases hc : checkDistinctPaths files with
    | error e => exact .inl ⟨e, by simp only [IndexStore.rebuild, hc]; exact ⟨rfl, rfl⟩⟩
    | ok u =>
      refine .inr ⟨ofFiles files, image (ofFiles files), (ofFiles files).stats, ?_, ?_, hsound, rfl⟩
      · simp only [IndexStore.rebuild, hc]
        rfl
      · simp only [IndexStore.rebuild, hc, fill_eq_image]
        rfl

end MemoryIndex

end CodeIndex
