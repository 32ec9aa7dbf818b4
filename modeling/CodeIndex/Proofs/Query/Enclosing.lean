import CodeIndex.Proofs.Query.CallGraph
import CodeIndex.Proofs.Query.Failures
import CodeIndex.Proofs.Span
import CodeIndex.Proofs.Store.Isolation
import CodeIndex.Tree.Dump

/-! # The callable around a line

Of the callables that have a line, the call hierarchy is about the one that covers the fewest lines,
and about the first of these in the order of the rows. What covers the fewest lines is decided by
counts in words, which are right but for the span of all words.
-/

namespace CodeIndex

/-! ## The narrowest of some rows -/

/-- Whether a row is the first of those that cover the fewest lines. -/
def FirstNarrowest (s : SymbolRecord) (rows : List SymbolRecord) : Prop :=
  ∃ before after, rows = before ++ s :: after ∧
    (∀ t ∈ before, s.span.lineCount < t.span.lineCount) ∧
    ∀ t ∈ after, s.span.lineCount ≤ t.span.lineCount

theorem narrowest?_eq_none {rows : List SymbolRecord} : narrowest? rows = none ↔ rows = [] := by
  cases rows with
  | nil => simp [narrowest?]
  | cons s rows =>
    rw [narrowest?]
    split
    · simp
    · split <;> simp

theorem FirstNarrowest.le {s t : SymbolRecord} {rows : List SymbolRecord}
    (h : FirstNarrowest s rows) (ht : t ∈ rows) : s.span.lineCount ≤ t.span.lineCount := by
  rcases h with ⟨before, after, rfl, hbefore, hafter⟩
  rcases List.mem_append.mp ht with ht | ht
  · exact UInt32.le_of_lt (hbefore t ht)
  · rcases List.mem_cons.mp ht with rfl | ht
    · exact UInt32.le_refl _
    · exact hafter t ht

theorem firstNarrowest_of_narrowest? {rows : List SymbolRecord} {s : SymbolRecord}
    (h : narrowest? rows = some s) : FirstNarrowest s rows := by
  induction rows generalizing s with
  | nil => cases h
  | cons t rows ih =>
    rw [narrowest?] at h
    split at h
    · next hnone =>
      cases h
      obtain rfl := narrowest?_eq_none.mp hnone
      exact ⟨[], [], rfl, List.forall_mem_nil _, List.forall_mem_nil _⟩
    · next u hu =>
      by_cases hlt : u.span.lineCount < t.span.lineCount
      · rw [if_pos hlt] at h
        cases h
        rcases ih hu with ⟨before, after, rfl, hbefore, hafter⟩
        exact ⟨t :: before, after, rfl, List.forall_mem_cons.mpr ⟨hlt, hbefore⟩, hafter⟩
      · rw [if_neg hlt] at h
        cases h
        refine ⟨[], rows, rfl, List.forall_mem_nil _, fun v hv => ?_⟩
        exact UInt32.le_trans (UInt32.not_lt.mp hlt) ((ih hu).le hv)

/-- A row that is narrowest by the counts of lines has the fewest lines, unless it counts as one
without lines because its lines are all words. -/
theorem FirstNarrowest.card_le_iff {s : SymbolRecord} {rows : List SymbolRecord}
    (h : FirstNarrowest s rows) :
    (∀ t ∈ rows, s.span.card ≤ t.span.card) ↔ (s.span = .whole → ∀ t ∈ rows, t.span = .whole) := by
  by_cases hs : s.span = .whole
  · have hcard := Span.card_eq_size_iff.mpr hs
    simp only [hs, true_implies]
    constructor
    · intro hle t ht
      have hsize : UInt32.size ≤ t.span.card := hcard ▸ hs ▸ hle t ht
      exact Span.card_eq_size_iff.mp (Nat.le_antisymm t.span.card_le_size hsize)
    · intro hwhole t ht
      rw [hwhole t ht]
  · simp only [hs, false_implies, iff_true]
    intro t ht
    have hle := UInt32.le_iff_toNat_le.mp (h.le ht)
    rw [Span.toNat_lineCount_eq_card_iff.mpr hs, Span.toNat_lineCount] at hle
    exact hle.trans (Nat.mod_le _ _)

/-! ## Call hierarchies -/

namespace QueryEngine

variable {e : QueryEngine} {path : String} {line : UInt32} {rows : List SymbolRecord}

theorem callHierarchy_eq_error (hline : line ≠ 0) (hhas : e.reader.hasFile path = .ok true)
    (hrows : e.reader.symbolsInFile path = .ok rows) (h : callablesAt line rows = []) :
    e.callHierarchy path line =
      .error { cause := .noEnclosingCallable, file := some path, line := some line } := by
  have hnone : narrowest? (callablesAt line rows) = none := narrowest?_eq_none.mpr h
  unfold callablesAt at hnone
  simp only [callHierarchy, if_neg hline, requireFile, hhas, hrows, Query.read_ok, bind,
    Except.bind, pure, Except.pure, if_true, hnone]


/-- Whether the call hierarchy at a line is that of the first of the callables `around` it that
cover the fewest lines, with all references in `files` to its name. -/
structure FindsNarrowest (e : QueryEngine) (files : List FileExtraction) (path : String)
    (line : UInt32) (around : List SymbolRecord) : Prop where
  missing : (∃ err, e.callHierarchy path line = .error err ∧ err.kind = .notFound ∧
    err.file = some path ∧ err.line = some line) ↔ around = []
  found : around ≠ [] → ∃ h, e.callHierarchy path line = .ok h ∧ FirstNarrowest h.symbol around ∧
    e.reader.referencesNamed h.symbol.name = .ok h.inbound ∧
    h.inbound.map (fun r => (r.path, r.content)) =
      (files.flatMap fun f => f.references.map fun r => (f.path, r)).filter
        (·.2.symbolName == h.symbol.name) ∧
    h.inbound.Pairwise (·.id < ·.id)

/-- The call hierarchy finds the first narrowest callable wherever it can read the rows of the file
and the references of an index. -/
theorem findsNarrowest_of_reader {files : List FileExtraction} (hline : line ≠ 0)
    (hhas : e.reader.hasFile path = .ok true) (hrows : e.reader.symbolsInFile path = .ok rows)
    (hreferences : ∀ name, e.reader.referencesNamed name =
      .ok ((MemoryIndex.ofFiles files).references.filter (·.symbolName == name))) :
    e.FindsNarrowest files path line (callablesAt line rows) := by
  cases hn : narrowest? (callablesAt line rows) with
  | none =>
    have hnone := narrowest?_eq_none.mp hn
    have herr := callHierarchy_eq_error hline hhas hrows hnone
    exact ⟨⟨fun _ => hnone, fun _ => ⟨_, herr, rfl, rfl, rfl⟩⟩, fun h => absurd hnone h⟩
  | some symbol =>
    rcases LanguageRules.exists_outboundCalls symbol.subtree with ⟨calls, hcalls⟩
    have hok := callHierarchy_eq_ok hline hhas hrows hn (hreferences symbol.name) hcalls
    have hfound : callablesAt line rows ≠ [] := by
      rw [Ne, ← narrowest?_eq_none, hn]
      nofun
    refine ⟨⟨?_, fun h => absurd h hfound⟩, fun _ => ⟨_, hok, ?_, hreferences _, ?_, ?_⟩⟩
    · rintro ⟨err, herr, -⟩
      rw [hok] at herr
      cases herr
    · exact firstNarrowest_of_narrowest? hn
    · rw [← MemoryIndex.references_ofFiles, List.filter_map]
      rfl
    · have hids := pairwise_rowNumbers (MemoryIndex.ofFiles files).references.length
      rw [← (MemoryIndex.numbered_ofFiles files).referenceIds, List.pairwise_map] at hids
      exact hids.filter _

end QueryEngine

/-- A method in another one. -/
def breathe : Node :=
  .branch (some "def") [.literal (.str "breathe"),
    .branch (some "send") [.literal .nil, .literal (.str "bark")] (some ⟨3, 3⟩)] (some ⟨2, 4⟩)

/-- The other one, on the lines of a span. -/
def barkOn (span : Span) : ParsedFile :=
  ⟨"dog.rb", .branch (some "def") [.literal (.str "bark"), breathe] (some span), none⟩

theorem extract_barkOn (span : Span) :
    ({} : Extractor).extract (barkOn span) =
      ⟨"dog.rb", (barkOn span).root,
        [⟨"bark", .callable, "global", span, none, some (barkOn span).root⟩,
          ⟨"breathe", .callable, "global", ⟨2, 4⟩, none, some breathe⟩], [⟨"bark", ⟨3, 3⟩⟩]⟩ := by
  rw [Extractor.extract, Extractor.run_start]
  rfl

/-- The two of them in an index of this file alone. -/
def barkOnRows (span : Span) : List SymbolRecord :=
  [⟨1, 1, "dog.rb", "bark", .callable, "global", span, none, some (barkOn span).root⟩,
    ⟨2, 1, "dog.rb", "breathe", .callable, "global", ⟨2, 4⟩, none, some breathe⟩]

theorem rebuild_barkOn (span : Span) :
    ∃ (t : MemoryIndex) (size : StoreStats),
      IndexStore.rebuild ({} : MemoryIndex) [({} : Extractor).extract (barkOn span)] =
        .ok (t, size) ∧
      (IndexStore.reader t).hasFile "dog.rb" = .ok true ∧
      (IndexStore.reader t).symbolsInFile "dog.rb" = .ok (barkOnRows span) ∧
      ∀ name, ∃ inbound, (IndexStore.reader t).referencesNamed name = .ok inbound := by
  rw [extract_barkOn]
  exact ⟨_, _, rfl, rfl, rfl, fun _ => ⟨_, rfl⟩⟩

/-- The count of lines is right for all spans but that of all words, and a call hierarchy is about a
callable that covers as few lines as any around the line unless that callable covers all words and
another one does not. -/
theorem call_hierarchy_covers_fewest_iff (span : Span) {e : QueryEngine} {path : String}
    {line : UInt32} {h : CallHierarchy} {rows : List SymbolRecord}
    (hok : e.callHierarchy path line = .ok h) (hrows : e.reader.symbolsInFile path = .ok rows) :
    (span.lineCount.toNat = span.card ↔ span ≠ .whole) ∧
      ((∀ s ∈ callablesAt line rows, h.symbol.span.card ≤ s.span.card) ↔
        (h.symbol.span = .whole → ∀ s ∈ callablesAt line rows, s.span = .whole)) := by
  refine ⟨Span.toNat_lineCount_eq_card_iff, ?_⟩
  rcases QueryEngine.of_callHierarchy hok with ⟨⟨rows', hrows', hnarrowest⟩, -⟩
  cases hrows.symm.trans hrows'
  exact (firstNarrowest_of_narrowest? hnarrowest).card_le_iff

theorem call_hierarchy_covers_fewest_inner :
    ∃ (t : MemoryIndex) (size : StoreStats) (h : CallHierarchy),
      IndexStore.rebuild ({} : MemoryIndex) [({} : Extractor).extract (barkOn ⟨1, 9⟩)] =
        .ok (t, size) ∧
      QueryEngine.callHierarchy ⟨IndexStore.reader t, .ruby⟩ "dog.rb" 3 = .ok h ∧
      callablesAt 3 (barkOnRows ⟨1, 9⟩) = barkOnRows ⟨1, 9⟩ ∧ h.symbol.name = "breathe" ∧
      (⟨1, 9⟩ : Span).lineCount.toNat = (⟨1, 9⟩ : Span).card ∧
      ∀ s ∈ barkOnRows ⟨1, 9⟩, h.symbol.span.card ≤ s.span.card := by
  rcases rebuild_barkOn ⟨1, 9⟩ with ⟨t, size, ht, hhas, hrows, hnamed⟩
  rcases hnamed "breathe" with ⟨inbound, hinbound⟩
  rcases LanguageRules.exists_outboundCalls (some breathe) with ⟨calls, hcalls⟩
  have hok := QueryEngine.callHierarchy_eq_ok (e := ⟨IndexStore.reader t, .ruby⟩)
    (by decide : (3 : UInt32) ≠ 0) hhas hrows rfl hinbound hcalls
  rcases call_hierarchy_covers_fewest_iff ⟨1, 9⟩ hok hrows with ⟨hcount, hfewest⟩
  refine ⟨t, size, _, ht, hok, rfl, rfl, hcount.mpr (by decide), hfewest.mpr fun hwhole => ?_⟩
  cases hwhole

/-- A callable on the lines of all words counts as one without lines, so the call hierarchy at a
line is about it although another one around the line has three. -/
theorem call_hierarchy_of_whole_span :
    ∃ (t : MemoryIndex) (size : StoreStats) (h : CallHierarchy),
      Node.ofDump "dog.rb" (Text.octets (barkOn .whole).root.compact) = .ok (barkOn .whole).root ∧
      IndexStore.rebuild ({} : MemoryIndex) [({} : Extractor).extract (barkOn .whole)] =
        .ok (t, size) ∧
      (IndexStore.reader t).symbolsInFile "dog.rb" = .ok (barkOnRows .whole) ∧
      QueryEngine.callHierarchy ⟨IndexStore.reader t, .ruby⟩ "dog.rb" 3 = .ok h ∧
      h.symbol.span.lineCount.toNat ≠ h.symbol.span.card ∧
      ∃ s ∈ callablesAt 3 (barkOnRows .whole), s.span.card < h.symbol.span.card := by
  rcases rebuild_barkOn .whole with ⟨t, size, ht, hhas, hrows, hnamed⟩
  rcases hnamed "bark" with ⟨inbound, hinbound⟩
  have hread : Node.read (Text.octets (barkOn .whole).root.compact) = .ok (barkOn .whole).root :=
    Node.read_compact (by decide) (by decide)
  rcases LanguageRules.exists_outboundCalls (some (barkOn .whole).root) with ⟨calls, hcalls⟩
  have hok := QueryEngine.callHierarchy_eq_ok (e := ⟨IndexStore.reader t, .ruby⟩)
    (by decide : (3 : UInt32) ≠ 0) hhas hrows rfl hinbound hcalls
  refine ⟨t, size, _, ?_, ht, hrows, hok, ?_, ?_⟩
  · rw [Node.ofDump, hread]
    rfl
  · exact fun h => Span.toNat_lineCount_eq_card_iff.mp h rfl
  · have hcard : (⟨2, 4⟩ : Span).card < Span.whole.card := by
      rw [Span.card_eq, Span.card_eq]
      decide
    exact ⟨_, List.mem_cons_of_mem _ List.mem_cons_self, hcard⟩

/-! ## Reachable indexes -/

/-- Whatever was done with a store, the call hierarchy at a line of an indexed file is that of the
first of the narrowest callables around the line, and a miss exactly if there is none. -/
theorem call_hierarchy_finds_narrowest (rules : LanguageRules) :
    AfterCalls fun files reader => ∀ f ∈ files,
      (f.FloatFree → ∃ rows, reader.symbolsInFile f.path = .ok rows) ∧
      ∀ line rows, line ≠ 0 → reader.symbolsInFile f.path = .ok rows →
        QueryEngine.FindsNarrowest ⟨reader, rules⟩ files f.path line (callablesAt line rows) := by
  apply afterCalls
  · intro files hdistinct f hf
    rcases MemoryIndex.exists_keeps hdistinct hf with ⟨k, i, j, hkeeps⟩
    refine ⟨fun _ => ⟨_, rfl⟩, fun line rows hline hrows => ?_⟩
    exact QueryEngine.findsNarrowest_of_reader hline hkeeps.gives_reader.hasFile hrows fun _ => rfl
  · intro files hdistinct f hf
    rcases MemoryIndex.exists_keeps hdistinct hf with ⟨k, i, j, hkeeps⟩
    have hlinked := MemoryIndex.linked_ofFiles files
    have hgives := hkeeps.gives_image hlinked
    rw [MemoryIndex.fill_eq_image]
    refine ⟨fun hfree => ?_, fun line rows hline hrows => ?_⟩
    · rcases hgives.exists_file_and_symbols (.inr hfree) with ⟨-, rows, -, hrows⟩
      exact ⟨rows, hrows⟩
    · exact QueryEngine.findsNarrowest_of_reader hline hgives.hasFile hrows
        (MemoryIndex.referencesNamed_image hlinked)

theorem call_hierarchy_finds_narrowest_refused :
    ∃ (f : FileExtraction) (calls : List StoreCall) (r r' : IndexReader),
      f = ({} : Extractor).extract (barkOn ⟨1, 9⟩) ∧ calls = [.rebuild [f], .rebuild [f, f]] ∧
      r = IndexStore.reader (IndexStore.after ({} : MemoryIndex) calls) ∧
      r' = IndexStore.reader (IndexStore.after (⟨{}, {}⟩ : StoredIndex) calls) ∧
      r.symbolsInFile "dog.rb" = .ok (barkOnRows ⟨1, 9⟩) ∧
      (callablesAt 3 (barkOnRows ⟨1, 9⟩)).map (·.name) = ["bark", "breathe"] ∧
      (∃ h, QueryEngine.callHierarchy ⟨r, .ruby⟩ "dog.rb" 3 = .ok h ∧
        FirstNarrowest h.symbol (barkOnRows ⟨1, 9⟩)) ∧
      (∃ err, QueryEngine.callHierarchy ⟨r, .ruby⟩ "dog.rb" 12 = .error err ∧
        err.kind = .notFound ∧ err.file = some "dog.rb" ∧ err.line = some 12) ∧
      ∃ rows, r'.symbolsInFile "dog.rb" = .ok rows ∧
        QueryEngine.FindsNarrowest ⟨r', .ruby⟩ [f] "dog.rb" 3 (callablesAt 3 rows) := by
  refine ⟨_, _, _, _, rfl, rfl, rfl, rfl, ?_⟩
  rw [extract_barkOn]
  set f : FileExtraction := ⟨"dog.rb", _, _, _⟩
  set calls : List StoreCall := [.rebuild [f], .rebuild [f, f]]
  have hfree : f.FloatFree := by
    change ∀ n ∈ f.trees, n.FloatFree
    decide
  have hlast : (lastAccepted? calls).getD [] = [f] := rfl
  have hmemory := (call_hierarchy_finds_narrowest .ruby).memory calls
  have hstored := (call_hierarchy_finds_narrowest .ruby).stored ⟨{}, {}⟩ calls rfl rfl
  rw [hlast] at hmemory hstored
  have hfinds := (hmemory f List.mem_cons_self).2
  rcases hstored f List.mem_cons_self with ⟨hread, hfinds'⟩
  rcases hread hfree with ⟨rows, hrows⟩
  rcases (hfinds 3 _ (by decide) rfl).found (List.cons_ne_nil _ _) with ⟨h, hok, hfirst, -⟩
  exact ⟨rfl, rfl, ⟨h, hok, hfirst⟩, (hfinds 12 _ (by decide) rfl).missing.mpr rfl, rows, hrows,
    hfinds' 3 rows (by decide) hrows⟩

end CodeIndex
