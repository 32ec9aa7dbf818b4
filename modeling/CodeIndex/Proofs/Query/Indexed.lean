import CodeIndex.Proofs.Extraction.Rows
import CodeIndex.Proofs.Store.Contents
import CodeIndex.Proofs.Store.Rebuilds
import CodeIndex.Proofs.Store.Sessions
import CodeIndex.Proofs.Tree.AddressText
import CodeIndex.Proofs.Tree.Ancestors
import CodeIndex.Proofs.Tree.Size
import CodeIndex.Query.Engine
import CodeIndex.Tree.Dump

/-! # Queries about indexed trees

What was read from a dump is what is queried, whether the index is kept in memory or in a database.
Every address that a query gives can be handed to another one as a text, which gives the same node
and the nodes above it.
-/

namespace CodeIndex

open Text (Octets)

/-- A file whose tree was read from a dump without floats. A dump has fewer octets than 64 bits can
count, as every text that fits into a memory. -/
structure ParsedFile.FromDump (f : ParsedFile) : Prop where
  read : ∃ dump : Octets, dump.length < UInt64.size ∧ Node.ofDump f.path dump = .ok f.root
  floatFree : f.root.FloatFree

namespace ParsedFile.FromDump

variable {f : ParsedFile}

theorem read_dump (hf : f.FromDump) :
    ∃ dump : Octets, dump.length < UInt64.size ∧ Node.read dump = .ok f.root := by
  obtain ⟨dump, hlength, hdump⟩ := hf.read
  refine ⟨dump, hlength, ?_⟩
  unfold Node.ofDump at hdump
  split at hdump
  · cases hdump
  · next n hn =>
    split at hdump
    · cases hdump
    · cases hdump
      exact hn

/-- The addresses of a tree that was read from a dump can be written and read back. -/
theorem atText_text (hf : f.FromDump) {a : Address} {n : Node} (h : f.root.at? a = some n) :
    f.root.atText a.text = .ok (a, n) := by
  obtain ⟨dump, hlength, hread⟩ := hf.read_dump
  have hweight := Node.weight_le_of_read hread
  have hsmall : ∀ i ∈ a.path, i < UInt64.size := fun i hi =>
    Nat.lt_of_lt_of_le (Node.lt_weight_of_follow? h i hi) (by omega)
  simp only [Node.atText, Address.parse_text hsmall, Node.lookup, h]
  rfl

end ParsedFile.FromDump

theorem Node.atText_eq_error {root : Node} {text : String}
    (h : ∀ a, Address.parse text = .ok a → root.at? a = none) :
    ∃ err : Error, root.atText text = .error err ∧ err.kind = .notFound := by
  unfold Node.atText
  cases hp : Address.parse text with
  | error flaw => exact ⟨_, rfl, rfl⟩
  | ok a =>
    simp only [Node.lookup, h a hp]
    exact ⟨_, rfl, rfl⟩

/-- The trees of an extraction are parts of the tree that was read. -/
theorem Extractor.exists_at?_of_mem_trees {x : Extractor} {f : ParsedFile} {n : Node}
    (hn : n ∈ (x.extract f).trees) : ∃ a, f.root.at? a = some n := by
  rcases List.mem_cons.mp hn with rfl | hn
  · exact ⟨.root, rfl⟩
  · obtain ⟨s, hs, hsub⟩ := List.mem_filterMap.mp hn
    obtain ⟨a, m, names, hm, hsymbol⟩ := exists_of_mem_symbols hs
    obtain ⟨-, hsubtree, -⟩ := of_symbolAmong? hsymbol
    rw [hsubtree] at hsub
    split at hsub
    · cases hsub
      exact ⟨a, hm⟩
    · cases hsub

theorem Extractor.fromTexts {x : Extractor} {f : ParsedFile} (hf : f.FromDump) :
    (x.extract f).FromTexts := by
  obtain ⟨dump, -, hread⟩ := hf.read_dump
  intro n hn
  obtain ⟨a, ha⟩ := exists_at?_of_mem_trees hn
  exact ⟨⟨dump, f.root, a.path, hread, ha⟩,
    fun v hv => hf.floatFree v (Node.mem_literals_of_follow? ha hv)⟩

namespace QueryEngine

/-- What queries about a file give that is indexed with its tree. -/
structure Shows (e : QueryEngine) (f : ParsedFile) : Prop where
  tree : e.tree f.path = .ok f.root
  /-- The nodes of a kind are found, each once, in the order of a traversal. -/
  nodes : ∀ kind, kind ≠ "" → ∃ found, e.nodes f.path kind = .ok found ∧
    (∀ m, m ∈ found ↔ f.root.at? m.id = some m.node ∧ m.node.kind? = some kind) ∧
      found.Pairwise fun m m' => compare m.id m'.id = .lt
  nodeDetails : ∀ a n, f.root.at? a = some n → e.nodeDetails f.path a.text = .ok n
  /-- Above a node are the nodes at the strict prefixes of its address, the root first. -/
  ancestors : ∀ a n, f.root.at? a = some n → ∃ above, e.ancestors f.path a.text = .ok above ∧
    above.length = a.depth ∧ above.map (·.id) = a.strictPrefixes ∧
      ∀ m ∈ above, e.nodeDetails f.path m.id.text = .ok m.node
  callables : ∃ rows, e.symbols f.path = .ok rows ∧ ∀ s ∈ rows, s.kind.isCallable →
    ∃ (a : Address) (n : Node), s.subtree = some n ∧ e.nodeDetails f.path a.text = .ok n ∧
      n.location? = some s.span
  /-- A text that leads to no node is a miss in the file. -/
  misses : ∀ text, (∀ a, Address.parse text = .ok a → f.root.at? a = none) →
    ∃ err err', e.nodeDetails f.path text = .error err ∧ e.ancestors f.path text = .error err' ∧
      err.kind = .notFound ∧ err'.kind = .notFound ∧ err.file = some f.path ∧
      err'.file = some f.path

variable {e : QueryEngine} {f : ParsedFile} {g : IndexedFile}

theorem loadTree_of_file (hg : e.reader.file f.path = .ok (some g)) (hroot : g.root = f.root)
    (q : Query) : e.loadTree q f.path = .ok f.root := by
  rw [loadTree, hg, ← hroot]
  rfl

section

variable (hload : ∀ q, e.loadTree q f.path = .ok f.root)

include hload

theorem nodes_of_loadTree {kind : String} (hkind : kind ≠ "") :
    e.nodes f.path kind = .ok ((f.root.ofKind kind).map fun (a, n) => ⟨a, n⟩) := by
  have hnonempty : ¬ kind.isEmpty = true := by simpa using hkind
  simp only [nodes, Query.nonempty, if_neg hnonempty, hload]
  rfl

/-- The node at a text is looked for in the tree of the file. -/
theorem nodeDetails_of_loadTree (text : String) :
    e.nodeDetails f.path text = ((f.root.atText text).mapError (·.inFile f.path)).map (·.2) := by
  rw [nodeDetails, hload]
  change ((f.root.atText text).mapError (·.inFile f.path) >>= fun p => pure p.2) = _
  cases f.root.atText text <;> rfl

theorem ancestors_of_loadTree {text : String} {a : Address} {n : Node}
    {above : List (Address × Node)} (h : f.root.atText text = .ok (a, n))
    (habove : f.root.ancestors? a = some above) :
    e.ancestors f.path text = .ok (above.map fun (a, n) => ⟨a, n⟩) := by
  rw [ancestors, hload]
  change ((f.root.atText text).mapError (·.inFile f.path) >>= fun p => _) = _
  rw [h]
  simp only [Except.mapError, bind, Except.bind, Node.lookupAncestors, habove]
  rfl

theorem ancestors_of_error {text : String} {err : Error} (h : f.root.atText text = .error err) :
    e.ancestors f.path text = .error (err.inFile f.path) := by
  rw [ancestors, hload]
  change ((f.root.atText text).mapError (·.inFile f.path) >>= fun p => _) = _
  rw [h]
  rfl

end

/-- Queries show a file whose tree and rows an index gives. -/
theorem shows_of_reader {x : Extractor} (hf : f.FromDump)
    (hg : e.reader.file f.path = .ok (some g)) (hroot : g.root = f.root)
    (hhas : e.reader.hasFile f.path = .ok true) {rows : List SymbolRecord}
    (hrows : e.reader.symbolsInFile f.path = .ok rows)
    (hcontent : ∀ s ∈ rows, s.content ∈ (x.extract f).symbols) : e.Shows f := by
  have hload := loadTree_of_file hg hroot
  have hdetails : ∀ a n, f.root.at? a = some n → e.nodeDetails f.path a.text = .ok n := by
    intro a n hn
    rw [nodeDetails_of_loadTree hload, hf.atText_text hn]
    rfl
  refine ⟨hload _, fun kind hkind => ?_, hdetails, fun a n hn => ?_, ⟨rows, ?_, ?_⟩,
    fun text htext => ?_⟩
  · refine ⟨_, nodes_of_loadTree hload hkind, fun m => ?_, ?_⟩
    · rw [List.mem_map]
      constructor
      · rintro ⟨⟨a, n⟩, hmem, rfl⟩
        obtain ⟨hpre, hk⟩ := List.mem_filter.mp hmem
        exact ⟨Node.mem_preorder.mp hpre, by simpa [Node.hasKind] using hk⟩
      · rintro ⟨hat, hk⟩
        refine ⟨(m.id, m.node), List.mem_filter.mpr ⟨Node.mem_preorder.mpr hat, ?_⟩, rfl⟩
        simpa [Node.hasKind] using hk
    · rw [List.pairwise_map]
      exact f.root.pairwise_preorder.filter _
  · have hsome : (f.root.ancestors? a).isSome := by
      rw [Node.isSome_ancestors?, hn]
      rfl
    obtain ⟨above, habove⟩ := Option.isSome_iff_exists.mp hsome
    have hmap := Node.ancestors?_eq_some habove
    have hids : above.map (·.1) = a.strictPrefixes := by
      have := congrArg (List.map Prod.fst) hmap
      simpa [List.map_map, Function.comp_def] using this
    refine ⟨_, ancestors_of_loadTree hload (hf.atText_text hn) habove, ?_, ?_, ?_⟩
    · have := congrArg List.length hids
      simpa [Address.strictPrefixes] using this
    · rw [List.map_map]
      exact hids
    · intro m hm
      obtain ⟨⟨b, k⟩, hmem, rfl⟩ := List.mem_map.mp hm
      exact hdetails b k (Node.at?_of_mem_ancestors? habove hmem)
  · simp only [symbols, requireFile, hhas, hrows]
    rfl
  · intro s hs hcallable
    obtain ⟨a, n, names, hn, hsymbol⟩ := Extractor.exists_of_mem_symbols (hcontent s hs)
    obtain ⟨hlocation, hsubtree, -⟩ := Extractor.of_symbolAmong? hsymbol
    have hcallable' : s.content.kind.isCallable = true := hcallable
    rw [if_pos hcallable'] at hsubtree
    exact ⟨a, n, hsubtree, hdetails a n hn, hlocation⟩
  · obtain ⟨err, herr, hkind⟩ := Node.atText_eq_error htext
    refine ⟨err.inFile f.path, err.inFile f.path, ?_, ancestors_of_error hload herr, hkind, hkind,
      rfl, rfl⟩
    rw [nodeDetails_of_loadTree hload, herr]
    rfl

end QueryEngine

/-- What is indexed is what is queried: once any store has been rebuilt from the extractions of
files with distinct paths, queries show each of these files as it was read from its dump, and every
address that they give leads to the same node again. -/
theorem indexed_files_are_shown (x : Extractor) (rules : LanguageRules) (files : List ParsedFile)
    (hdistinct : (files.map (·.path)).Nodup) (hfiles : ∀ f ∈ files, f.FromDump) :
    AfterRebuild (files.map x.extract) fun reader =>
      ∀ f ∈ files, QueryEngine.Shows ⟨reader, rules⟩ f := by
  have hpaths : ((files.map x.extract).map (·.path)).Nodup := by
    rw [List.map_map]
    exact hdistinct
  have hmemory : ∀ f ∈ files,
      QueryEngine.Shows ⟨(MemoryIndex.ofFiles (files.map x.extract)).reader, rules⟩ f := by
    intro f hf
    have hmem : x.extract f ∈ files.map x.extract := List.mem_map_of_mem hf
    obtain ⟨g, hfind, hpath, hroot⟩ := MemoryIndex.find?_ofFiles hpaths hmem
    refine QueryEngine.shows_of_reader (hfiles f hf) (congrArg Except.ok hfind) hroot ?_ rfl
      (x := x) fun s hs => ?_
    · refine congrArg Except.ok (List.any_eq_true.mpr ⟨g, List.mem_of_find?_eq_some hfind, ?_⟩)
      exact beq_iff_eq.mpr hpath
    · obtain ⟨hs, hpath⟩ := List.mem_filter.mp hs
      exact MemoryIndex.exists_of_mem_symbols hpaths hmem hs (beq_iff_eq.mp hpath)
  have hsound : (MemoryIndex.ofFiles (files.map x.extract)).Sound := by
    refine MemoryIndex.sound_ofFiles fun g hg n hn => ?_
    obtain ⟨f, hf, rfl⟩ := List.mem_map.mp hg
    obtain ⟨hdecoded, hfree⟩ := Extractor.fromTexts (hfiles f hf) n hn
    exact Node.storable_of_decoded hdecoded hfree
  -- tables that hold the images of sound rows are read as the rows are
  have htables : (Database.fill (files.map x.extract)).rows.reader =
      (MemoryIndex.ofFiles (files.map x.extract)).reader := by
    rw [MemoryIndex.fill_eq_image]
    exact MemoryIndex.reader_image hsound
  exact afterRebuild hpaths hmemory (htables ▸ hmemory)

theorem indexed_files_are_shown_nested :
    ∃ f : ParsedFile, f.path = "dog.rb" ∧
      f.root = .branch (some "class") [.literal (.str "Dog"),
        .branch (some "def") [.literal (.str "bark")] (some ⟨2, 3⟩)] (some ⟨1, 4⟩) ∧
      AfterRebuild [({} : Extractor).extract f] fun reader =>
        QueryEngine.Shows ⟨reader, .ruby⟩ f := by
  let root : Node := .branch (some "class") [.literal (.str "Dog"),
    .branch (some "def") [.literal (.str "bark")] (some ⟨2, 3⟩)] (some ⟨1, 4⟩)
  let f : ParsedFile := ⟨"dog.rb", root, none⟩
  have hread : Node.read (Text.octets root.compact) = .ok root :=
    Node.read_compact (by decide) (by decide)
  have hf : f.FromDump := by
    refine ⟨⟨Text.octets root.compact, by decide +kernel, ?_⟩, by decide⟩
    rw [Node.ofDump, hread]
    rfl
  have h := indexed_files_are_shown {} .ruby [f] (by simp) (by simpa using hf)
  refine ⟨f, rfl, rfl, ?_⟩
  simpa using h

end CodeIndex
