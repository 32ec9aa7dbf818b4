import CodeIndex.Proofs.Extraction.Rows
import CodeIndex.Proofs.Repeated
import CodeIndex.Proofs.Store.Agreement
import CodeIndex.Proofs.Store.Contents
import CodeIndex.Proofs.Store.Rebuilds
import CodeIndex.Proofs.Tree.Ancestors
import CodeIndex.Proofs.Tree.Outline
import CodeIndex.Query.Engine

/-! # Call hierarchies

The calls out of a callable are looked for in its stored tree when they are asked for; the
references to a name were left by all nodes of all trees when the files were extracted. Both look at
the same nodes: a tree that is read from a database has the outline of the one that was extracted,
every node in a callable is a node of its file, and where no kind is claimed twice a node that is
found as a call has left a reference.
-/

namespace CodeIndex

theorem firstCalls_sublist (seen : List String) (calls : List OutboundCall) :
    (firstCalls seen calls).Sublist calls := by
  induction calls generalizing seen with
  | nil => exact List.Sublist.refl []
  | cons c calls ih =>
    rw [firstCalls]
    split
    · exact (ih seen).cons c
    · exact (ih (c.name :: seen)).cons_cons c

namespace LanguageRules

variable {r : LanguageRules}

@[simp] theorem call?_outline (n : Node) : r.call? n.outline = r.call? n := by
  simp only [call?, roleOf?_outline, nameOf?_outline, Node.location?_outline]

theorem call?_of_roleOf? {role : NodeRole} {i : Nat} (h : r.roleOf? n = some (role, i)) :
    r.call? n = (r.nameOf? n i).map fun name => ⟨name, n.location?⟩ := by
  rw [call?, h]
  cases hname : r.nameOf? n i <;> simp [hname]

/-- The calls out of a tree are those of its nodes: it is asked for the nodes at or below its root,
and no tree lacks a root. -/
theorem outboundCalls_eq (n : Node) :
    r.outboundCalls n = .ok (firstCalls [] ((n.preorder.filter fun (_, m) =>
      m.kind?.any fun kind => r.callKinds.contains kind).filterMap fun (_, m) => r.call? m)) := rfl

theorem exists_outboundCalls (tree : Option Node) :
    ∃ calls, tree.elim (.ok []) r.outboundCalls = .ok calls := by
  cases tree with
  | none => exact ⟨[], rfl⟩
  | some n => exact ⟨_, outboundCalls_eq n⟩

/-- Every call out of a tree is made by a node whose kind is one of calls, in any tree with the same
outline. -/
theorem exists_of_mem_outboundCalls {n n' : Node} (hn : n'.outline = n.outline)
    {calls : List OutboundCall} (h : r.outboundCalls n' = .ok calls) {c : OutboundCall}
    (hc : c ∈ calls) :
    ∃ a m kind, n.at? a = some m ∧ m.kind? = some kind ∧ kind ∈ r.callKinds ∧
      r.call? m = some c := by
  rw [outboundCalls_eq] at h
  obtain rfl := Except.ok.inj h
  obtain ⟨⟨a, m'⟩, hm', hcall⟩ := List.mem_filterMap.mp ((firstCalls_sublist _ _).mem hc)
  obtain ⟨hm', hany⟩ := List.mem_filter.mp hm'
  obtain ⟨kind, hkind, hmem⟩ := (Option.any_eq_true _ _).mp hany
  obtain ⟨m, hm, houtline⟩ := Node.follow?_of_outline hn (Node.mem_preorder.mp hm')
  refine ⟨a, m, kind, hm, ?_, List.contains_iff_mem.mp hmem, ?_⟩
  · rw [← Node.kind?_outline, houtline, Node.kind?_outline, hkind]
  · rw [← call?_outline, houtline, call?_outline]
    exact hcall

end LanguageRules

/-- A call that covers lines leaves a reference to the name that it calls. -/
theorem Extractor.referenceOf?_of_call? {x : Extractor} (hrules : x.rules.duplicateKinds = [])
    {n : Node} {kind : String} (hkind : n.kind? = some kind) (hcall : kind ∈ x.rules.callKinds)
    {c : OutboundCall} (hc : x.rules.call? n = some c) {span : Span}
    (hspan : c.location = some span) : x.referenceOf? n = some ⟨c.name, span⟩ := by
  obtain ⟨i, hrole⟩ := LanguageRules.roleOfKind?_of_mem_callKinds hrules hcall
  have hrole : x.rules.roleOf? n = some (.call, i) := by
    rw [LanguageRules.roleOf?, hkind, Option.bind_some, hrole]
  rw [LanguageRules.call?_of_roleOf? hrole] at hc
  obtain ⟨name, hname, rfl⟩ := Option.map_eq_some_iff.mp hc
  have hlocation : n.location? = some span := hspan
  simp [referenceOf?, hrole, hname, hlocation]

/-! ## Reading an index -/

/-- Whether an index is read as one in memory, but for what no rule looks at in its trees. -/
structure IndexReader.Outlines (reader : IndexReader) (m : MemoryIndex) : Prop where
  symbolsInFile : ∀ {path rows}, reader.symbolsInFile path = .ok rows → ∀ s ∈ rows,
    ∃ t ∈ m.symbols, t.path = path ∧ s.subtree.map Node.outline = t.subtree.map Node.outline
  referencesNamed : ∀ name,
    reader.referencesNamed name = .ok (m.references.filter (·.symbolName == name))

theorem MemoryIndex.outlines (m : MemoryIndex) : m.reader.Outlines m where
  symbolsInFile := by
    rintro path rows ⟨⟩ s hs
    obtain ⟨hs, hpath⟩ := List.mem_filter.mp hs
    exact ⟨s, hs, beq_iff_eq.mp hpath, rfl⟩
  referencesNamed _ := rfl

namespace Database

/-- The tree in a cell has the outline of the one that was written into it. -/
theorem outline_of_readTree {column : Nat} {tree tree' : Option Node}
    (h : readTree column (tree.map Node.compact) = .ok tree') :
    tree'.map Node.outline = tree.map Node.outline := by
  cases tree with
  | none =>
    cases h
    rfl
  | some n =>
    simp only [readTree, Option.map_some, Node.read_eq_reread] at h
    split at h
    · next m hm =>
      cases h
      exact congrArg some (Node.outline_of_reread hm)
    · cases h

theorem outline_of_readSymbol {s t : SymbolRecord}
    (h : readSymbol t.path (imageOfSymbol t) = .ok s) :
    s.subtree.map Node.outline = t.subtree.map Node.outline := by
  simp only [readSymbol, imageOfSymbol, SymbolKind.ofWord?_word, readLine_number] at h
  change (readTree 9 _ >>= fun tree => _) = _ at h
  obtain ⟨tree, htree, h⟩ := Except.bind_eq_ok.mp h
  cases h
  exact outline_of_readTree htree

/-- What is read from the images of rows are these rows, but for literals in their trees. -/
theorem outlines_image {m : MemoryIndex} (hm : m.Linked) : (image m).reader.Outlines m where
  symbolsInFile := by
    intro path rows hrows s hs
    change (image m).symbolsWhere (fun p _ => p == path) = .ok rows at hrows
    rw [symbolsWhere, MemoryIndex.locatedSymbols_image hm, List.filter_map, List.mapM_map] at hrows
    obtain ⟨t, ht, hread⟩ := Except.exists_of_mapM_eq_ok hrows hs
    obtain ⟨ht, hpath⟩ := List.mem_filter.mp ht
    exact ⟨t, ht, beq_iff_eq.mp hpath, outline_of_readSymbol hread⟩
  referencesNamed := MemoryIndex.referencesNamed_image hm

end Database

theorem mem_of_narrowest? {ss : List SymbolRecord} {s : SymbolRecord}
    (h : narrowest? ss = some s) : s ∈ ss := by
  induction ss with
  | nil => cases h
  | cons t ss ih =>
    rw [narrowest?] at h
    split at h
    · exact Option.some.inj h ▸ List.mem_cons_self
    · next u hu =>
      split at h
      · exact List.mem_cons_of_mem t (ih (hu.trans h))
      · exact Option.some.inj h ▸ List.mem_cons_self

def callablesAt (line : UInt32) (rows : List SymbolRecord) : List SymbolRecord :=
  rows.filter fun s => s.kind.isCallable && s.span.containsLine line

theorem Query.read_eq_ok {q : Query} {result : Except Error α} {a : α} :
    q.read result = .ok a ↔ result = .ok a :=
  Except.mapError_eq_ok

namespace QueryEngine

variable {e : QueryEngine} {path : String} {line : UInt32} {h : CallHierarchy}

/-- A call hierarchy is about the narrowest callable around the line and made of what is read about
it. -/
theorem of_callHierarchy (hok : e.callHierarchy path line = .ok h) :
    (∃ rows, e.reader.symbolsInFile path = .ok rows ∧
      narrowest? (callablesAt line rows) = some h.symbol) ∧
      e.reader.referencesNamed h.symbol.name = .ok h.inbound ∧
      h.symbol.subtree.elim (.ok []) e.rules.outboundCalls = .ok h.outbound := by
  unfold callHierarchy at hok
  by_cases hline : line = 0
  · rw [if_pos hline] at hok
    cases hok
  rw [if_neg hline] at hok
  obtain ⟨-, -, hok⟩ := Except.bind_eq_ok.mp hok
  obtain ⟨rows, hrows, hok⟩ := Except.bind_eq_ok.mp hok
  split at hok
  · cases hok
  · next symbol hsymbol =>
    obtain ⟨inbound, hinbound, hok⟩ := Except.bind_eq_ok.mp hok
    obtain ⟨outbound, houtbound, hok⟩ := Except.bind_eq_ok.mp hok
    cases hok
    exact ⟨⟨rows, Query.read_eq_ok.mp hrows, hsymbol⟩, Query.read_eq_ok.mp hinbound, houtbound⟩

theorem callHierarchy_eq_ok {rows : List SymbolRecord} {s : SymbolRecord}
    {inbound : List ReferenceRecord} {outbound : List OutboundCall} (hline : line ≠ 0)
    (hhas : e.reader.hasFile path = .ok true) (hrows : e.reader.symbolsInFile path = .ok rows)
    (hsymbol : narrowest? (callablesAt line rows) = some s)
    (hinbound : e.reader.referencesNamed s.name = .ok inbound)
    (houtbound : s.subtree.elim (.ok []) e.rules.outboundCalls = .ok outbound) :
    e.callHierarchy path line = .ok ⟨s, inbound, outbound⟩ := by
  unfold callablesAt at hsymbol
  simp only [callHierarchy, if_neg hline, requireFile, hhas, hrows, Query.read, Except.mapError,
    bind, Except.bind, pure, Except.pure, if_true, hsymbol, hinbound, houtbound]

end QueryEngine

/-! ## Agreement -/

/-- Whether every call that a callable makes on some lines is among the references to the name that
is called, whoever asks for these. -/
def QueryEngine.CallsAgree (e : QueryEngine) : Prop :=
  ∀ (f g : String) (l m : UInt32) (caller callee : CallHierarchy) (c : OutboundCall) (span : Span),
    e.callHierarchy f l = .ok caller → e.callHierarchy g m = .ok callee →
    c ∈ caller.outbound → c.location = some span → c.name = callee.symbol.name →
    ∃ r ∈ callee.inbound, r.path = f ∧ r.span = span

/-- Every call out of a tree that was stored for a callable of a file left a reference in the index,
with the path of the file, if it covers lines. -/
theorem MemoryIndex.exists_reference_of_call {x : Extractor} (hrules : x.rules.duplicateKinds = [])
    {files : List ParsedFile} {s : SymbolRecord}
    (hs : s ∈ (ofFiles (files.map x.extract)).symbols) {n n' : Node} (hn : s.subtree = some n)
    (houtline : n'.outline = n.outline) {calls : List OutboundCall}
    (hcalls : x.rules.outboundCalls n' = .ok calls) {c : OutboundCall} (hc : c ∈ calls)
    {span : Span} (hspan : c.location = some span) :
    ∃ r ∈ (ofFiles (files.map x.extract)).references, r.path = s.path ∧
      r.symbolName = c.name ∧ r.span = span := by
  obtain ⟨extraction, hextraction, hpath, hcontent⟩ := exists_file_of_mem_symbols hs
  obtain ⟨f, hf, rfl⟩ := List.mem_map.mp hextraction
  obtain ⟨a, k, names, hk, hsymbol⟩ := Extractor.exists_of_mem_symbols hcontent
  -- the subtree of a symbol is its node
  obtain ⟨-, hsubtree, -⟩ := Extractor.of_symbolAmong? hsymbol
  have hsubtree : some n = if s.kind.isCallable then some k else none := hn ▸ hsubtree
  split at hsubtree
  case isFalse => cases hsubtree
  cases hsubtree
  -- a node in it is one of the file
  obtain ⟨b, m, kind, hm, hkind, hcall, hc⟩ :=
    LanguageRules.exists_of_mem_outboundCalls houtline hcalls hc
  have hnode : f.root.at? (a.join b) = some m := by
    rw [Node.at?_join]
    exact Option.bind_eq_some_iff.mpr ⟨n, hk, hm⟩
  have hreference : (⟨c.name, span⟩ : ExtractedReference) ∈ (x.extract f).references :=
    Extractor.mem_references.mpr
      ⟨a.join b, m, hnode, Extractor.referenceOf?_of_call? hrules hkind hcall hc hspan⟩
  obtain ⟨r, hr, hrpath, hrcontent⟩ := exists_mem_references hextraction hreference
  refine ⟨r, hr, hrpath.trans hpath, ?_, ?_⟩
  · exact congrArg ExtractedReference.symbolName hrcontent
  · exact congrArg ExtractedReference.span hrcontent

/-- An index agrees on its calls if it is read as the rows of some files are, but for literals. -/
theorem QueryEngine.callsAgree_of_outlines {x : Extractor} (hrules : x.rules.duplicateKinds = [])
    {files : List ParsedFile} {reader : IndexReader}
    (hreader : reader.Outlines (MemoryIndex.ofFiles (files.map x.extract))) :
    CallsAgree ⟨reader, x.rules⟩ := by
  intro f g l m caller callee c span hcaller hcallee hc hspan hname
  obtain ⟨⟨rows, hrows, hsymbol⟩, -, houtbound⟩ := of_callHierarchy hcaller
  obtain ⟨-, hinbound, -⟩ := of_callHierarchy hcallee
  have hmem := List.mem_of_mem_filter (mem_of_narrowest? hsymbol)
  obtain ⟨t, ht, hpath, hsubtree⟩ := hreader.symbolsInFile hrows _ hmem
  cases hn' : caller.symbol.subtree with
  | none =>
    rw [hn'] at houtbound
    obtain hnone := Except.ok.inj houtbound
    rw [← hnone] at hc
    cases hc
  | some n' =>
    rw [hn'] at houtbound hsubtree
    obtain ⟨n, hn, houtline⟩ := Option.map_eq_some_iff.mp hsubtree.symm
    obtain ⟨r, hr, hrpath, hrname, hrspan⟩ :=
      MemoryIndex.exists_reference_of_call hrules ht hn houtline.symm houtbound hc hspan
    have hnamed := (hreader.referencesNamed callee.symbol.name).symm.trans hinbound
    refine ⟨r, Except.ok.inj hnamed ▸ List.mem_filter.mpr ⟨hr, ?_⟩, hrpath.trans hpath, hrspan⟩
    exact beq_iff_eq.mpr (hrname.trans hname)

/-- The calls that are looked for in a stored tree are those that left references: once any store
has been rebuilt from files with distinct paths, extracted under rules without duplicate kinds,
every call that a callable of one of them makes on some lines is among the references to its name. -/
theorem outbound_calls_are_inbound (x : Extractor) (files : List ParsedFile)
    (hrules : x.rules.duplicateKinds = []) (hdistinct : (files.map (·.path)).Nodup) :
    AfterRebuild (files.map x.extract) fun reader => QueryEngine.CallsAgree ⟨reader, x.rules⟩ := by
  have hpaths : ((files.map x.extract).map (·.path)).Nodup := by
    rw [List.map_map]
    exact hdistinct
  have htables : (Database.fill (files.map x.extract)).rows.reader.Outlines
      (MemoryIndex.ofFiles (files.map x.extract)) := by
    rw [MemoryIndex.fill_eq_image]
    exact Database.outlines_image (MemoryIndex.linked_ofFiles _)
  exact afterRebuild hpaths (QueryEngine.callsAgree_of_outlines hrules (MemoryIndex.outlines _))
    (QueryEngine.callsAgree_of_outlines hrules htables)

theorem outbound_calls_are_inbound_barking :
    ∃ (f : ParsedFile) (t : MemoryIndex) (size : StoreStats) (caller callee : CallHierarchy),
      f.root = .branch (some "class") [.literal (.str "Dog"),
        .branch (some "def") [.literal (.str "bark"),
          .branch (some "send") [.literal .nil, .literal (.str "breathe")] (some ⟨3, 3⟩)]
          (some ⟨2, 4⟩),
        .branch (some "def") [.literal (.str "breathe")] (some ⟨6, 7⟩)] (some ⟨1, 8⟩) ∧
      IndexStore.rebuild ({} : MemoryIndex) [({} : Extractor).extract f] = .ok (t, size) ∧
      QueryEngine.callHierarchy ⟨IndexStore.reader t, .ruby⟩ f.path 3 = .ok caller ∧
      QueryEngine.callHierarchy ⟨IndexStore.reader t, .ruby⟩ f.path 6 = .ok callee ∧
      caller.outbound = [⟨"breathe", some ⟨3, 3⟩⟩] ∧ callee.symbol.name = "breathe" ∧
      ∃ r ∈ callee.inbound, r.path = f.path ∧ r.span = ⟨3, 3⟩ := by
  let bark : Node := .branch (some "def") [.literal (.str "bark"),
    .branch (some "send") [.literal .nil, .literal (.str "breathe")] (some ⟨3, 3⟩)] (some ⟨2, 4⟩)
  let breathe : Node := .branch (some "def") [.literal (.str "breathe")] (some ⟨6, 7⟩)
  let f : ParsedFile :=
    ⟨"dog.rb", .branch (some "class") [.literal (.str "Dog"), bark, breathe] (some ⟨1, 8⟩), none⟩
  have hextract : ({} : Extractor).extract f = ⟨f.path, f.root,
      [⟨"Dog", .type, "global", ⟨1, 8⟩, none, none⟩,
        ⟨"bark", .callable, "Dog", ⟨2, 4⟩, none, some bark⟩,
        ⟨"breathe", .callable, "Dog", ⟨6, 7⟩, none, some breathe⟩], [⟨"breathe", ⟨3, 3⟩⟩]⟩ := by
    rw [Extractor.extract, Extractor.run_start]
    rfl
  obtain ⟨t, size, ht, hagree⟩ :=
    (outbound_calls_are_inbound {} [f] (by decide) (by simp)).memory {}
  rw [List.map_singleton] at ht
  have houtbound : LanguageRules.ruby.outboundCalls bark = .ok [⟨"breathe", some ⟨3, 3⟩⟩] := by
    rw [LanguageRules.outboundCalls_eq, Node.preorder_eq]
    rfl
  have hnone : LanguageRules.ruby.outboundCalls breathe = .ok [] := by
    rw [LanguageRules.outboundCalls_eq, Node.preorder_eq]
    rfl
  have hfilled : t = MemoryIndex.ofFiles [({} : Extractor).extract f] :=
    (congrArg Prod.fst (Except.ok.inj ht)).symm
  rw [hextract] at hfilled
  let callee : SymbolRecord :=
    ⟨3, 1, f.path, "breathe", .callable, "Dog", ⟨6, 7⟩, none, some breathe⟩
  let caller : SymbolRecord := ⟨2, 1, f.path, "bark", .callable, "Dog", ⟨2, 4⟩, none, some bark⟩
  have hcaller : QueryEngine.callHierarchy ⟨IndexStore.reader t, .ruby⟩ f.path 3 =
      .ok ⟨caller, [], [⟨"breathe", some ⟨3, 3⟩⟩]⟩ := by
    rw [hfilled]
    exact QueryEngine.callHierarchy_eq_ok (by decide) rfl rfl rfl rfl houtbound
  have hcallee : QueryEngine.callHierarchy ⟨IndexStore.reader t, .ruby⟩ f.path 6 =
      .ok ⟨callee, [⟨1, 1, f.path, "breathe", ⟨3, 3⟩⟩], []⟩ := by
    rw [hfilled]
    exact QueryEngine.callHierarchy_eq_ok (by decide) rfl rfl rfl rfl hnone
  exact ⟨f, t, size, _, _, rfl, ht, hcaller, hcallee, rfl, rfl,
    hagree _ _ _ _ _ _ _ _ hcaller hcallee List.mem_cons_self rfl rfl⟩

end CodeIndex
