import CodeIndex.Proofs.Query.Answers
import CodeIndex.Proofs.Query.CallGraph
import CodeIndex.Proofs.Query.Indexed
import CodeIndex.Proofs.Query.Requests
import CodeIndex.Proofs.Store.Isolation
import Mathlib.Algebra.Order.BigOperators.Group.List
import Mathlib.Algebra.Order.Group.Nat

/-! # Requests lose nothing

The answer to a request is the result of the query for which it asks, written as a JSON value. From
the value the result is read back, since all that an index of trees gives fits into its JSON form:
rows have numbers of 64 bits, the trees of callables are branches, and no tree holds an integer that
a text would be read as another one.
-/

namespace CodeIndex

open Json (Value)

/-! ## Results -/

namespace Query

def Result : Query → Type
  | .symbols _ | .definition _ => List SymbolRecord
  | .tree _ | .nodeDetails _ _ => Node
  | .nodes _ _ | .ancestors _ _ => List NodeMatch
  | .references _ => List ReferenceRecord
  | .callHierarchy _ _ => CallHierarchy
  | .files => List String
  | .stats => StoreStats

def toJson : (q : Query) → q.Result → Value
  | .symbols _ | .definition _ => QueryMethod.answers SymbolRecord.toJson
  | .tree _ | .nodeDetails _ _ => Node.toJson
  | .nodes _ _ | .ancestors _ _ => QueryMethod.answers NodeMatch.toJson
  | .references _ => QueryMethod.answers ReferenceRecord.toJson
  | .callHierarchy _ _ => CallHierarchy.toJson
  | .files => QueryMethod.answers Value.string
  | .stats => StoreStats.toJson

def ofJson? : (q : Query) → Value → Option q.Result
  | .symbols _ | .definition _ => Value.list? SymbolRecord.ofJson?
  | .tree _ | .nodeDetails _ _ => Node.ofJson?
  | .nodes _ _ | .ancestors _ _ => Value.list? NodeMatch.ofJson?
  | .references _ => Value.list? ReferenceRecord.ofJson?
  | .callHierarchy _ _ => CallHierarchy.ofJson?
  | .files => Value.list? Value.string?
  | .stats => StoreStats.ofJson?

/-- Whether the result of a query fits into its JSON form. -/
def Exact : (q : Query) → q.Result → Prop
  | .symbols _ | .definition _ => fun rows : List SymbolRecord => ∀ s ∈ rows, s.Exact
  | .tree _ | .nodeDetails _ _ => Node.Canonical
  | .nodes _ _ | .ancestors _ _ => fun found : List NodeMatch => ∀ m ∈ found, m.Exact
  | .references _ => fun rows : List ReferenceRecord => ∀ r ∈ rows, r.Exact
  | .callHierarchy _ _ => CallHierarchy.Exact
  | .files => fun _ => True
  | .stats => StoreStats.Exact

theorem readsAs {q : Query} {r : q.Result} (h : q.Exact r) : (q.toJson r).ReadsAs q.ofJson? r := by
  cases q with
  | symbols | definition => exact Value.readsAs_list fun s hs => SymbolRecord.readsAs (h s hs)
  | tree | nodeDetails => exact Node.readsAs h
  | nodes | ancestors => exact Value.readsAs_list fun m hm => NodeMatch.readsAs (h m hm)
  | references => exact Value.readsAs_list fun s hs => ReferenceRecord.readsAs (h s hs)
  | callHierarchy => exact CallHierarchy.readsAs h
  | files => exact Value.readsAs_list fun path _ => Value.readsAs_string path
  | stats => exact StoreStats.readsAs h

end Query

def QueryEngine.result (e : QueryEngine) : (q : Query) → Except Error q.Result
  | .symbols path => e.symbols path
  | .tree path => e.tree path
  | .nodes path kind => e.nodes path kind
  | .nodeDetails path id => e.nodeDetails path id
  | .ancestors path id => e.ancestors path id
  | .definition name => e.definition name
  | .references name => e.references name
  | .callHierarchy path line => e.callHierarchy path line
  | .files => e.files
  | .stats => e.stats

theorem QueryEngine.answer_eq (e : QueryEngine) (q : Query) :
    e.answer q = (e.result q).map q.toJson := by
  cases q <;> rfl

/-! ## Requests -/

namespace Query

def method : Query → String
  | .symbols _ => "getSymbols"
  | .tree _ => "getTree"
  | .nodes _ _ => "queryNodes"
  | .nodeDetails _ _ => "getNodeDetails"
  | .ancestors _ _ => "getAncestors"
  | .definition _ => "findDefinition"
  | .references _ => "findReferences"
  | .callHierarchy _ _ => "getCallHierarchy"
  | .files => "listFiles"
  | .stats => "getStats"

def inputs : Query → List (String × Value)
  | .symbols path | .tree path => [("file_path", .string path)]
  | .nodes path kind => [("file_path", .string path), ("kind", .string kind)]
  | .nodeDetails path id | .ancestors path id => [("file_path", .string path), ("id", .string id)]
  | .definition name | .references name => [("name", .string name)]
  | .callHierarchy path line => [("file_path", .string path), ("line", .nat line.toNat)]
  | .files | .stats => []

/-- Whether a request asks for a query: it names the method and brings the inputs, and lines are
numbered from one on. -/
structure AskedBy (q : Query) (name : String) (params : Value) : Prop where
  method : name = q.method
  object : params = .null ∨ ∃ fields, params = .object fields
  inputs : ∀ p ∈ q.inputs, params.field? p.1 = some p.2
  line : ∀ path, q ≠ .callHierarchy path 0

theorem ofParams_eq_ok {params : Value} {name : String} {q : Query} :
    ofParams params name = .ok q ↔ name = q.method ∧
      (∀ p ∈ q.inputs, params.field? p.1 = some p.2) ∧ ∀ path, q ≠ .callHierarchy path 0 := by
  constructor
  · intro h
    unfold ofParams at h
    split at h
    case h_1 | h_2 | h_6 | h_7 =>
      rcases Except.bind_eq_ok.mp h with ⟨s, hs, h⟩
      cases h
      rw [Params.string_eq_ok] at hs
      exact ⟨rfl, by simp [inputs, hs], nofun⟩
    case h_3 | h_4 | h_5 =>
      rcases Except.bind_eq_ok.mp h with ⟨path, hpath, h⟩
      rcases Except.bind_eq_ok.mp h with ⟨s, hs, h⟩
      cases h
      rw [Params.string_eq_ok] at hpath hs
      exact ⟨rfl, by simp [inputs, hpath, hs], nofun⟩
    case h_8 =>
      rcases Except.bind_eq_ok.mp h with ⟨path, hpath, h⟩
      rcases Except.bind_eq_ok.mp h with ⟨line, hline, h⟩
      cases h
      rw [Params.string_eq_ok] at hpath
      rw [Params.line_eq_ok] at hline
      exact ⟨rfl, by simp [inputs, hpath, hline.2], by simp [hline.1]⟩
    case h_9 | h_10 =>
      cases h
      exact ⟨rfl, List.forall_mem_nil _, nofun⟩
    case h_11 => cases h
  · rintro ⟨rfl, hinputs, hline⟩
    cases q with
    | files | stats => rfl
    | callHierarchy path line =>
      have hne : line ≠ 0 := fun h => hline path (h ▸ rfl)
      simp only [inputs, List.forall_mem_cons] at hinputs
      simp only [method, ofParams, Params.string_eq_ok.mpr hinputs.1,
        Params.line_eq_ok.mpr ⟨hne, hinputs.2.1⟩]
      rfl
    | nodes | nodeDetails | ancestors =>
      simp only [inputs, List.forall_mem_cons] at hinputs
      simp only [method, ofParams, Params.string_eq_ok.mpr hinputs.1,
        Params.string_eq_ok.mpr hinputs.2.1]
      rfl
    | symbols | tree | definition | references =>
      simp only [inputs, List.forall_mem_cons] at hinputs
      simp only [method, ofParams, Params.string_eq_ok.mpr hinputs.1]
      rfl

theorem exists_get?_method (q : Query) : ∃ m, MethodRegistry.builtIn.get? q.method = some m := by
  rw [MethodRegistry.get?_builtIn]
  cases q <;> exact ⟨_, rfl⟩

theorem ofRequest_eq_ok {name : String} {params : Value} {q : Query} :
    ofRequest name params = .ok q ↔ q.AskedBy name params := by
  unfold ofRequest
  constructor
  · intro h
    split at h
    · cases h
    · rcases Except.bind_eq_ok.mp h with ⟨_, hobject, h⟩
      rcases ofParams_eq_ok.mp h with ⟨hmethod, hinputs, hline⟩
      exact ⟨hmethod, Params.ensureObject_eq_ok.mp hobject, hinputs, hline⟩
  · rintro ⟨rfl, hobject, hinputs, hline⟩
    rcases exists_get?_method q with ⟨m, hm⟩
    simp only [hm, Params.ensureObject_eq_ok.mpr hobject]
    exact ofParams_eq_ok.mpr ⟨rfl, hinputs, hline⟩

end Query

/-! ## Answers -/

open MethodRegistry (builtIn)

/-- Whether requests are answered by the results of the queries for which they ask. -/
structure QueryEngine.Lossless (e : QueryEngine) : Prop where
  /-- A request is answered exactly if it asks for a query that succeeds. -/
  answered : ∀ {name params}, (∃ v, builtIn.dispatch e name params = .ok v) ↔
    ∃ q : Query, q.AskedBy name params ∧ ∃ r, e.result q = .ok r
  /-- The result of the query is read back from the answer. -/
  readBack : ∀ {name params} {q : Query} {r}, q.AskedBy name params → e.result q = .ok r →
    ∃ v, builtIn.dispatch e name params = .ok v ∧ v.ReadsAs q.ofJson? r
  failed : ∀ {name params} {q : Query} {err}, q.AskedBy name params → e.result q = .error err →
    builtIn.dispatch e name params = .error err

theorem MethodRegistry.dispatch_of_askedBy {e : QueryEngine} {q : Query} {name : String}
    {params : Value} (h : q.AskedBy name params) :
    builtIn.dispatch e name params = (e.result q).map q.toJson := by
  rw [dispatch_eq, Query.ofRequest_eq_ok.mpr h, ← e.answer_eq]
  rfl

/-- Requests lose nothing where all results fit into their JSON form. -/
theorem QueryEngine.lossless_of_exact {e : QueryEngine}
    (h : ∀ {q r}, e.result q = .ok r → q.Exact r) : e.Lossless where
  answered := by
    intro name params
    constructor
    · rintro ⟨v, hv⟩
      rw [MethodRegistry.dispatch_eq] at hv
      rcases Except.bind_eq_ok.mp hv with ⟨q, hq, hv⟩
      rw [answer_eq] at hv
      rcases Except.map_eq_ok.mp hv with ⟨r, hr, -⟩
      exact ⟨q, Query.ofRequest_eq_ok.mp hq, r, hr⟩
    · rintro ⟨q, hq, r, hr⟩
      exact ⟨q.toJson r, by rw [MethodRegistry.dispatch_of_askedBy hq, hr]; rfl⟩
  readBack := by
    intro name params q r hq hr
    refine ⟨q.toJson r, ?_, Query.readsAs (h hr)⟩
    rw [MethodRegistry.dispatch_of_askedBy hq, hr]
    rfl
  failed := by
    intro name params q err hq herr
    rw [MethodRegistry.dispatch_of_askedBy hq, herr]
    rfl

/-! ## Exact indexes -/

/-- Whether all that is read of an index fits into its JSON form. -/
structure IndexReader.Exact (r : IndexReader) : Prop where
  file : ∀ {path g}, r.file path = .ok (some g) →
    g.root.Canonical ∧ g.root.size < UInt64.size
  symbolsInFile : ∀ {path rows}, r.symbolsInFile path = .ok rows → ∀ s ∈ rows, s.Exact
  symbolsNamed : ∀ {name rows}, r.symbolsNamed name = .ok rows → ∀ s ∈ rows, s.Exact
  referencesNamed : ∀ {name rows}, r.referencesNamed name = .ok rows → ∀ u ∈ rows, u.Exact
  stats : ∀ {size}, r.stats = .ok size → size.Exact

/-- The nodes of a tree fit into their JSON form if the tree does. -/
theorem NodeMatch.exact_of_at? {root n : Node} {a : Address}
    (hroot : root.Canonical ∧ root.size < UInt64.size) (h : root.at? a = some n) :
    NodeMatch.Exact ⟨a, n⟩ where
  id i hi := by
    have hlt := Node.lt_weight_of_follow? h i hi
    rw [← Node.size_eq_weight] at hlt
    exact Nat.lt_trans hlt hroot.2
  node v hv := hroot.1 v (Node.mem_literals_of_follow? h hv)

namespace QueryEngine

variable {e : QueryEngine} {path : String}

theorem exact_of_loadTree (hexact : e.reader.Exact) {q : Query} {root : Node}
    (h : e.loadTree q path = .ok root) : root.Canonical ∧ root.size < UInt64.size := by
  rcases Except.bind_eq_ok.mp h with ⟨found, hfound, h⟩
  cases found with
  | none => cases h
  | some g =>
    cases h
    exact hexact.file (Query.read_eq_ok.mp hfound)

theorem at?_of_atText {root n : Node} {a : Address} {text : String}
    (h : root.atText text = .ok (a, n)) : root.at? a = some n := by
  unfold Node.atText at h
  split at h
  · cases h
  · obtain ⟨m, hat, heq⟩ := Except.map_eq_ok.mp h
    cases heq
    exact Node.lookup_eq_ok.mp hat

/-- What queries give of an index fits into its JSON form if what is read of it does. -/
theorem exact_of_result (hexact : e.reader.Exact) {q : Query} {r : q.Result}
    (h : e.result q = .ok r) : q.Exact r := by
  cases q with
  | symbols path =>
    rcases Except.bind_eq_ok.mp h with ⟨_, _, h⟩
    exact hexact.symbolsInFile (Query.read_eq_ok.mp h)
  | tree path => exact (exact_of_loadTree hexact h).1
  | nodes path kind =>
    rcases Except.bind_eq_ok.mp h with ⟨_, _, h⟩
    rcases Except.bind_eq_ok.mp h with ⟨root, hroot, h⟩
    cases h
    intro m hm
    rcases List.mem_map.mp hm with ⟨⟨a, n⟩, hn, rfl⟩
    have hat := Node.mem_preorder.mp (List.mem_of_mem_filter hn)
    exact NodeMatch.exact_of_at? (exact_of_loadTree hexact hroot) hat
  | nodeDetails path id =>
    rcases Except.bind_eq_ok.mp h with ⟨root, hroot, h⟩
    rcases Except.bind_eq_ok.mp h with ⟨⟨a, n⟩, hn, h⟩
    cases h
    have hat := at?_of_atText (Except.mapError_eq_ok.mp hn)
    exact (NodeMatch.exact_of_at? (exact_of_loadTree hexact hroot) hat).node
  | ancestors path id =>
    rcases Except.bind_eq_ok.mp h with ⟨root, hroot, h⟩
    rcases Except.bind_eq_ok.mp h with ⟨⟨a, n⟩, _, h⟩
    rcases Except.bind_eq_ok.mp h with ⟨above, habove, h⟩
    cases h
    intro m hm
    rcases List.mem_map.mp hm with ⟨⟨b, k⟩, hk, rfl⟩
    have hat := Node.at?_of_mem_ancestors? (Node.lookupAncestors_eq_ok.mp habove) hk
    exact NodeMatch.exact_of_at? (exact_of_loadTree hexact hroot) hat
  | definition name =>
    rcases Except.bind_eq_ok.mp h with ⟨_, _, h⟩
    exact hexact.symbolsNamed (Query.read_eq_ok.mp h)
  | references name =>
    rcases Except.bind_eq_ok.mp h with ⟨_, _, h⟩
    exact hexact.referencesNamed (Query.read_eq_ok.mp h)
  | callHierarchy path line =>
    rcases of_callHierarchy h with ⟨⟨rows, hrows, hsymbol⟩, hinbound, -⟩
    have hmem := List.mem_of_mem_filter (mem_of_narrowest? hsymbol)
    exact ⟨hexact.symbolsInFile hrows _ hmem, hexact.referencesNamed hinbound⟩
  | files => trivial
  | stats => exact hexact.stats (Query.read_eq_ok.mp h)

end QueryEngine

/-! ## Indexes of trees -/

theorem MemoryIndex.exact_reader {files : List FileExtraction}
    (hroots : ∀ f ∈ files, f.root.Canonical ∧ f.root.size < UInt64.size)
    (hsubtrees : ∀ f ∈ files, ∀ s ∈ f.symbols, ∀ n ∈ s.subtree, n.Canonical ∧ n.kind?.isSome)
    (hfiles : FitsRow (ofFiles files).files.length)
    (hsymbols : FitsRow (ofFiles files).symbols.length)
    (hreferences : FitsRow (ofFiles files).references.length) :
    (ofFiles files).reader.Exact := by
  have hnumbered := numbered_ofFiles files
  have hsymbol : ∀ s ∈ (ofFiles files).symbols, s.Exact := by
    intro s hs
    have hid : s.id ∈ (ofFiles files).symbols.map (·.id) := List.mem_map_of_mem hs
    rw [hnumbered.symbolIds, mem_rowNumbers] at hid
    rcases hnumbered.symbolFiles s hs with ⟨g, hg, hfile, -⟩
    rcases exists_file_of_mem_symbols hs with ⟨f, hf, -, hcontent⟩
    have hsubtree := hsubtrees f hf _ hcontent
    refine ⟨hid.2.trans hsymbols, ?_, fun n hn => (hsubtree n hn).1, fun n hn => (hsubtree n hn).2⟩
    rw [hfile]
    exact (hnumbered.id_le hg).trans hfiles
  have hreference : ∀ u ∈ (ofFiles files).references, u.Exact := by
    intro u hu
    have hid : u.id ∈ (ofFiles files).references.map (·.id) := List.mem_map_of_mem hu
    rw [hnumbered.referenceIds, mem_rowNumbers] at hid
    rcases hnumbered.referenceFiles u hu with ⟨g, hg, hfile, -⟩
    refine ⟨hid.2.trans hreferences, ?_⟩
    rw [hfile]
    exact (hnumbered.id_le hg).trans hfiles
  refine ⟨?_, ?_, ?_, ?_, ?_⟩
  · intro path g hg
    have hmem : (g.path, g.root) ∈ (ofFiles files).files.map fun g => (g.path, g.root) :=
      List.mem_map_of_mem (List.mem_of_find?_eq_some (Except.ok.inj hg))
    rw [files_ofFiles] at hmem
    rcases List.mem_map.mp hmem with ⟨f, hf, heq⟩
    rcases Prod.mk.inj heq with ⟨-, hroot⟩
    exact hroot ▸ hroots f hf
  · rintro path rows ⟨⟩ s hs
    exact hsymbol s (List.mem_of_mem_filter hs)
  · rintro name rows ⟨⟩ s hs
    exact hsymbol s (List.mem_of_mem_filter hs)
  · rintro name rows ⟨⟩ u hu
    exact hreference u (List.mem_of_mem_filter hu)
  · rintro size ⟨⟩
    have hfits : ∀ n : Nat, FitsRow n → n < UInt64.size := by
      intro n hn
      have hn : (n : Int) ≤ 2 ^ 63 - 1 := hn
      have hsize : UInt64.size = 2 ^ 64 := rfl
      omega
    exact ⟨hfits _ hfiles, hfits _ hsymbols, hfits _ hreferences⟩

/-- The index of files with fewer than `2 ^ 63` nodes fits into its JSON form. -/
theorem MemoryIndex.exact_reader_extract {x : Extractor} {files : List ParsedFile}
    (htrees : ∀ f ∈ files, f.root.Canonical)
    (hsize : (files.map (·.root.size)).sum < 2 ^ 63) :
    (ofFiles (files.map x.extract)).reader.Exact := by
  have hfits : ∀ {n : Nat}, n ≤ (files.map (·.root.size)).sum → FitsRow n := by
    intro n hn
    have hmax : Int64.maxValue.toInt = 2 ^ 63 - 1 := rfl
    rw [FitsRow, hmax]
    omega
  apply exact_reader
  · intro g hg
    rcases List.mem_map.mp hg with ⟨f, hf, rfl⟩
    refine ⟨htrees f hf, ?_⟩
    have hle : f.root.size ≤ (files.map (·.root.size)).sum :=
      List.le_sum_of_mem (List.mem_map_of_mem hf)
    exact Nat.lt_trans (Nat.lt_of_le_of_lt hle hsize) (by decide)
  · intro g hg s hs n hn
    rcases List.mem_map.mp hg with ⟨f, hf, rfl⟩
    rcases Extractor.exists_at?_of_mem_trees (FileExtraction.mem_trees hs hn) with ⟨a, ha⟩
    refine ⟨fun v hv => ?_, Extractor.isSome_kind?_of_mem_subtree hs hn⟩
    exact htrees f hf v (Node.mem_literals_of_follow? ha hv)
  · apply hfits
    have hlength := congrArg List.length (paths_ofFiles (files.map x.extract))
    simp only [List.length_map] at hlength
    rw [hlength, ← List.length_map (f := fun f : ParsedFile => f.root.size)]
    apply List.length_le_sum_of_one_le
    intro n hn
    rcases List.mem_map.mp hn with ⟨f, -, rfl⟩
    rw [Node.size_eq_weight, Node.weight_eq]
    omega
  · apply hfits
    rw [length_symbols_ofFiles, List.map_map]
    exact List.sum_le_sum fun f _ => x.length_symbols_le
  · apply hfits
    rw [length_references_ofFiles, List.map_map]
    exact List.sum_le_sum fun f _ => x.length_references_le

/-- Requests lose nothing: once any store has been rebuilt from the extractions of files with
distinct paths, a request is answered exactly if it names a method, brings its parameters, and the
query that they make succeeds; the result is read back from the answer as it was, and an error is
the answer as it is. The trees hold no floats and are such as texts are read as, and there are fewer
nodes in them than rows can be numbered with 64 bits. -/
theorem requests_lose_nothing (x : Extractor) (rules : LanguageRules) (files : List ParsedFile)
    (hdistinct : (files.map (·.path)).Nodup)
    (htrees : ∀ f ∈ files, f.root.FloatFree ∧ f.root.Canonical)
    (hsize : (files.map (·.root.size)).sum < 2 ^ 63) :
    AfterRebuild (files.map x.extract) fun reader => QueryEngine.Lossless ⟨reader, rules⟩ := by
  have hpaths : ((files.map x.extract).map (·.path)).Nodup := by
    rw [List.map_map]
    exact hdistinct
  have hmemory : QueryEngine.Lossless ⟨(MemoryIndex.ofFiles (files.map x.extract)).reader, rules⟩ :=
    QueryEngine.lossless_of_exact (QueryEngine.exact_of_result
      (MemoryIndex.exact_reader_extract (fun f hf => (htrees f hf).2) hsize))
  have htables : (Database.fill (files.map x.extract)).rows.reader =
      (MemoryIndex.ofFiles (files.map x.extract)).reader := by
    apply MemoryIndex.reader_fill_of_storable
    intro g hg n hn
    rcases List.mem_map.mp hg with ⟨f, hf, rfl⟩
    rcases Extractor.exists_at?_of_mem_trees hn with ⟨a, ha⟩
    rcases htrees f hf with ⟨hfree, hcanonical⟩
    exact Node.read_compact (fun v hv => hfree v (Node.mem_literals_of_follow? ha hv))
      fun v hv => hcanonical v (Node.mem_literals_of_follow? ha hv)
  exact afterRebuild hpaths hmemory (htables ▸ hmemory)

theorem requests_lose_nothing_callable :
    ∃ (f : ParsedFile) (t : MemoryIndex) (size : StoreStats) (v : Value)
      (rows : List SymbolRecord),
      f = ⟨"dog.rb", .branch (some "def")
        [.literal (.str "bark"), .literal (.large 0x8000000000000000)] (some ⟨1, 2⟩), none⟩ ∧
      IndexStore.rebuild ({} : MemoryIndex) [({} : Extractor).extract f] = .ok (t, size) ∧
      builtIn.dispatch ⟨IndexStore.reader t, .ruby⟩ "getSymbols"
        (.object [("file_path", .string "dog.rb")]) = .ok v ∧
      v.ReadsAs (Value.list? SymbolRecord.ofJson?) rows ∧
      rows = [⟨1, 1, "dog.rb", "bark", .callable, "global", ⟨1, 2⟩, none, some f.root⟩] ∧
      builtIn.dispatch ⟨IndexStore.reader t, .ruby⟩ "getTree"
        (.object [("file_path", .string "cat.rb")]) = .error (notIndexed "cat.rb") := by
  let root : Node :=
    .branch (some "def") [.literal (.str "bark"), .literal (.large 0x8000000000000000)]
      (some ⟨1, 2⟩)
  let f : ParsedFile := ⟨"dog.rb", root, none⟩
  have hextract : ({} : Extractor).extract f =
      ⟨"dog.rb", root, [⟨"bark", .callable, "global", ⟨1, 2⟩, none, some root⟩], []⟩ := by
    rw [Extractor.extract, Extractor.run_start]
    rfl
  have hsize : ([f].map (·.root.size)).sum < 2 ^ 63 := by
    simp only [List.map_singleton, Node.size_eq_weight]
    decide
  have htree : f.root.FloatFree ∧ f.root.Canonical := by decide
  rcases (requests_lose_nothing {} .ruby [f] (List.nodup_singleton _)
    (List.forall_mem_singleton.mpr htree) hsize).memory {} with ⟨t, size, ht, hlossless⟩
  rw [List.map_singleton] at ht
  have hfilled : t = MemoryIndex.ofFiles [({} : Extractor).extract f] :=
    (congrArg Prod.fst (Except.ok.inj ht)).symm
  rw [hextract] at hfilled
  have hasked : ∀ (path : String) (q : Query), q.inputs = [("file_path", .string path)] →
      q.AskedBy q.method (.object [("file_path", .string path)]) := by
    intro path q hq
    refine ⟨rfl, .inr ⟨_, rfl⟩, ?_, ?_⟩
    · rw [hq, List.forall_mem_singleton]
      rfl
    · rintro _ rfl
      cases hq
  have hresult : QueryEngine.result ⟨IndexStore.reader t, .ruby⟩ (.symbols "dog.rb") =
      .ok [⟨1, 1, "dog.rb", "bark", .callable, "global", ⟨1, 2⟩, none, some f.root⟩] := by
    rw [hfilled]
    rfl
  have hmissing : QueryEngine.result ⟨IndexStore.reader t, .ruby⟩ (.tree "cat.rb") =
      .error (notIndexed "cat.rb") := by
    rw [hfilled]
    rfl
  rcases hlossless.readBack (hasked "dog.rb" (.symbols "dog.rb") rfl) hresult with ⟨v, hv, hread⟩
  exact ⟨f, t, size, v, _, rfl, ht, hv, hread, rfl,
    hlossless.failed (hasked "cat.rb" (.tree "cat.rb") rfl) hmissing⟩

end CodeIndex
