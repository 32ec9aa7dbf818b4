import CodeIndex.Proofs.Extraction.Walk

/-! # Rows of an extraction

Every symbol and every reference that is extracted belongs to a node of the tree, and every node that
uses a name and covers lines leaves its reference.
-/

namespace CodeIndex.Extractor

variable {x : Extractor} {file : ParsedFile}

theorem run_start (x : Extractor) (file : ParsedFile) :
    x.run file { steps := [.enter file.root], scopes := { style := x.style } } =
      x.findings file [] file.root := by
  rw [run_enter_findings x file _ _ _ _ rfl, run_nil]
  simp

/-- A symbol belongs to a node, which is its subtree where it is callable. -/
theorem exists_of_mem_symbols {s : ExtractedSymbol} (h : s ∈ (x.extract file).symbols) :
    ∃ a n names, file.root.at? a = some n ∧ x.symbolAmong? file names n = some s := by
  rw [extract, run_start] at h
  obtain ⟨finding, hfinding, hs⟩ := List.mem_filterMap.mp h
  obtain ⟨⟨path, n⟩, hn, hfound⟩ := List.mem_filterMap.mp hfinding
  refine ⟨⟨path⟩, n, [] ++ x.passedTypes file.root path, Node.mem_paths.mp hn, ?_⟩
  rw [← bind_symbol?, hfound]
  exact hs

theorem mem_references {r : ExtractedReference} :
    r ∈ (x.extract file).references ↔
      ∃ a n, file.root.at? a = some n ∧ x.referenceOf? n = some r := by
  have hextract : (x.extract file).references =
      (x.findings file [] file.root).filterMap Finding.reference? := by
    rw [extract, run_start]
  rw [hextract, List.mem_filterMap]
  constructor
  · rintro ⟨finding, hfinding, hr⟩
    obtain ⟨⟨path, n⟩, hn, hfound⟩ := List.mem_filterMap.mp hfinding
    refine ⟨⟨path⟩, n, Node.mem_paths.mp hn, ?_⟩
    rw [← bind_reference? x file ([] ++ x.passedTypes file.root path), hfound]
    exact hr
  · rintro ⟨a, n, hn, hr⟩
    rw [← bind_reference? x file ([] ++ x.passedTypes file.root a.path)] at hr
    obtain ⟨finding, hfound, hr⟩ := Option.bind_eq_some_iff.mp hr
    exact ⟨finding, List.mem_filterMap.mpr ⟨(a.path, n), Node.mem_paths.mpr hn, hfound⟩, hr⟩

theorem of_symbolAmong? {names : List String} {n : Node} {s : ExtractedSymbol}
    (h : x.symbolAmong? file names n = some s) :
    n.location? = some s.span ∧ s.subtree = (if s.kind.isCallable then some n else none) ∧
      ∃ role i, x.rules.roleOf? n = some (role, i) ∧ role.symbolKind? = some s.kind ∧
        x.rules.nameOf? n i = some s.name := by
  unfold symbolAmong? at h
  obtain ⟨⟨role, i⟩, hrole, h⟩ := Option.bind_eq_some_iff.mp h
  obtain ⟨kind, hkind, h⟩ := Option.bind_eq_some_iff.mp h
  obtain ⟨name, hname, h⟩ := Option.bind_eq_some_iff.mp h
  obtain ⟨span, hspan, h⟩ := Option.bind_eq_some_iff.mp h
  cases h
  exact ⟨hspan, rfl, role, i, hrole, hkind, hname⟩

/-- The tree of a callable has a kind, as a literal has not. -/
theorem isSome_kind?_of_mem_subtree {s : ExtractedSymbol} (hs : s ∈ (x.extract file).symbols)
    {n : Node} (hn : n ∈ s.subtree) : n.kind?.isSome := by
  rcases exists_of_mem_symbols hs with ⟨a, m, names, -, hsymbol⟩
  rcases of_symbolAmong? hsymbol with ⟨-, hsubtree, role, i, hrole, -⟩
  rw [hsubtree] at hn
  split at hn
  · cases hn
    rcases Option.bind_eq_some_iff.mp hrole with ⟨kind, hkind, -⟩
    exact Option.isSome_of_mem hkind
  · cases hn

/-! ## How many there are -/

theorem length_findings_le (x : Extractor) :
    (x.findings file [] file.root).length ≤ file.root.size := by
  rw [Node.size_eq_weight, ← Node.length_paths]
  exact List.length_filterMap_le _ _

/-- Every symbol belongs to a node of its own. -/
theorem length_symbols_le (x : Extractor) :
    (x.extract file).symbols.length ≤ file.root.size := by
  rw [extract, run_start]
  exact Nat.le_trans (List.length_filterMap_le _ _) x.length_findings_le

theorem length_references_le (x : Extractor) :
    (x.extract file).references.length ≤ file.root.size := by
  rw [extract, run_start]
  exact Nat.le_trans (List.length_filterMap_le _ _) x.length_findings_le

end CodeIndex.Extractor
