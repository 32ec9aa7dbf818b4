import CodeIndex.Proofs.Extraction.Rows

/-! # Wrappers

A branch without a role that holds nothing but one node adds no record and opens no scope. Put
around a node, it can only be seen by a rule that looks for a name in the place of that node;
anywhere else the extraction stays the same, but for the subtrees that the wrapper is part of.
-/

namespace CodeIndex

namespace Node

/-- The tree with `new` in place of the node at a path. A path that leaves the tree leads to
nothing that could be replaced. -/
def replaceAt : Node → List Nat → Node → Node
  | _, [], new => new
  | .branch kind children location, i :: path, new =>
    .branch kind (children.modify i fun c => c.replaceAt path new) location
  | .literal value, _ :: _, _ => .literal value

theorem replaceAt_cons {kind : Option String} {children : List Node} {location : Option Span}
    {i : Nat} {c : Node} (hc : (branch kind children location).child? i = some c)
    (path : List Nat) (new : Node) :
    (branch kind children location).replaceAt (i :: path) new =
      .branch kind (children.set i (c.replaceAt path new)) location := by
  have hget : children[i]? = some c := hc
  rw [replaceAt, List.modify_eq_set, hget, Option.getD_some]

end Node

def ParsedFile.replaceAt (f : ParsedFile) (a : Address) (new : Node) : ParsedFile :=
  { f with root := f.root.replaceAt a.path new }

/-! ## Records without subtrees -/

def ExtractedSymbol.withoutSubtree (s : ExtractedSymbol) : ExtractedSymbol :=
  { s with subtree := none }

def Finding.withoutSubtree : Finding → Finding
  | .symbol s => .symbol s.withoutSubtree
  | .reference r => .reference r

theorem Finding.symbol?_withoutSubtree (f : Finding) :
    f.withoutSubtree.symbol? = f.symbol?.map ExtractedSymbol.withoutSubtree := by
  cases f <;> rfl

theorem Finding.reference?_withoutSubtree (f : Finding) :
    f.withoutSubtree.reference? = f.reference? := by
  cases f <;> rfl

namespace LanguageRules

variable {r : LanguageRules}

theorem nameAt?_eq (ns : List Node) (i : Nat) : r.nameAt? ns i = ns[i]?.bind r.nameFor? := by
  induction ns generalizing i with
  | nil => rfl
  | cons n ns ih =>
    cases i with
    | zero => rfl
    | succ i => exact ih i

theorem nameAt?_set_ne {i j : Nat} (h : j ≠ i) (ns : List Node) (c : Node) :
    r.nameAt? (ns.set i c) j = r.nameAt? ns j := by
  rw [nameAt?_eq, nameAt?_eq, List.getElem?_set_ne h.symm]

theorem nameAt?_set {i : Nat} {ns : List Node} {c c' : Node} (hc : ns[i]? = some c)
    (h : r.nameFor? c' = r.nameFor? c) (j : Nat) :
    r.nameAt? (ns.set i c') j = r.nameAt? ns j := by
  by_cases hj : j = i
  · obtain ⟨hi, -⟩ := List.getElem?_eq_some_iff.mp hc
    rw [hj, nameAt?_eq, nameAt?_eq, List.getElem?_set_self hi, hc, Option.bind_some,
      Option.bind_some, h]
  · exact nameAt?_set_ne hj ns c'

end LanguageRules

namespace Extractor

variable (x : Extractor) (file : ParsedFile)

/-! ## One child -/

section

variable {kind : Option String} {children children' : List Node} {location : Option Span}
  (hname : ∀ role i, x.rules.roleOf? (.branch kind children location) = some (role, i) →
    x.rules.nameAt? children' i = x.rules.nameAt? children i)

include hname

/-- Apart from its tree, the record of a node is known from its kind, its name and its lines. -/
theorem findingAmong?_congr (names : List String) :
    (x.findingAmong? file names (.branch kind children' location)).map Finding.withoutSubtree =
      (x.findingAmong? file names (.branch kind children location)).map Finding.withoutSubtree := by
  have hrole : x.rules.roleOf? (.branch kind children' location) =
      x.rules.roleOf? (.branch kind children location) := rfl
  unfold findingAmong? symbolAmong? referenceOf?
  rw [hrole]
  cases hr : x.rules.roleOf? (.branch kind children location) with
  | none => rfl
  | some r =>
    obtain ⟨role, i⟩ := r
    have hi : x.rules.nameOf? (.branch kind children' location) i =
        x.rules.nameOf? (.branch kind children location) i := hname role i hr
    simp only [Option.bind_eq_bind, Option.bind_some, hi]
    cases role <;> cases x.rules.nameOf? (.branch kind children location) i <;>
      cases location <;> rfl

theorem typeName?_congr :
    x.typeName? (.branch kind children' location) =
      x.typeName? (.branch kind children location) := by
  have hrole : x.rules.roleOf? (.branch kind children' location) =
      x.rules.roleOf? (.branch kind children location) := rfl
  unfold typeName?
  rw [hrole]
  split
  · next i hr => exact hname _ i hr
  · rfl

theorem nameFor?_congr :
    x.rules.nameFor? (.branch kind children' location) =
      x.rules.nameFor? (.branch kind children location) := by
  rw [LanguageRules.nameFor?, LanguageRules.nameFor?]
  split
  · next i hr => exact hname _ i hr
  · rfl

end

/-- Whether a tree can take the place of another one: it stands for the same name, and the same
records are found in it, apart from their trees. -/
structure Replaces (n' n : Node) : Prop where
  name : x.rules.nameFor? n' = x.rules.nameFor? n
  findings : ∀ names, (x.findings file names n').map Finding.withoutSubtree =
    (x.findings file names n).map Finding.withoutSubtree

/-- A node can be replaced when the same records are found in one of its children and no rule sees
another name in that place. -/
theorem replaces_set {kind : Option String} {children : List Node} {location : Option Span}
    {i : Nat} {c c' : Node} (hc : children[i]? = some c)
    (hname : ∀ role j, x.rules.roleOf? (.branch kind children location) = some (role, j) →
      x.rules.nameAt? (children.set i c') j = x.rules.nameAt? children j)
    (hfindings : ∀ names, (x.findings file names c').map Finding.withoutSubtree =
      (x.findings file names c).map Finding.withoutSubtree) :
    x.Replaces file (.branch kind (children.set i c') location) (.branch kind children location) := by
  refine ⟨x.nameFor?_congr hname, fun names => ?_⟩
  have hbelow : ∀ below : List String,
      (children.set i c').map (fun d => (x.findings file below d).map Finding.withoutSubtree) =
        children.map fun d => (x.findings file below d).map Finding.withoutSubtree := by
    intro below
    obtain ⟨hi, rfl⟩ := List.getElem?_eq_some_iff.mp hc
    rw [List.map_set, hfindings below, ← List.map_set, List.set_getElem_self]
  rw [findings_eq, findings_eq, List.map_append, List.map_append, ← Option.toList_map,
    ← Option.toList_map, x.findingAmong?_congr file hname, x.typeName?_congr hname,
    List.map_flatMap, List.map_flatMap, List.flatMap_def, List.flatMap_def, Node.children,
    Node.children, hbelow]

/-! ## Wrapped nodes -/

/-- In a wrapper without a role there is what is in the node that it holds. -/
theorem findings_wrapper {kind : Option String} (hkind : kind.bind x.rules.roleOfKind? = none)
    (names : List String) (c : Node) :
    x.findings file names (.branch kind [c] none) = x.findings file names c := by
  have hrole : x.rules.roleOf? (.branch kind [c] none) = none := hkind
  have hfinding : x.findingAmong? file names (.branch kind [c] none) = none := by
    unfold findingAmong? symbolAmong? referenceOf?
    rw [hrole]
    rfl
  have htype : x.typeName? (.branch kind [c] none) = none := by
    unfold typeName?
    rw [hrole]
  rw [findings_eq, hfinding, htype]
  simp [Node.children]

/-- However deep a node is wrapped, only the name position of the node right above it matters. -/
theorem replaces_replaceAt {kind : Option String} (hkind : kind.bind x.rules.roleOfKind? = none)
    {n p c : Node} {path : List Nat} {i : Nat} (hp : n.follow? path = some p)
    (hc : p.child? i = some c)
    (hname : ∀ role j, x.rules.roleOf? p = some (role, j) → j ≠ i) :
    x.Replaces file (n.replaceAt (path ++ [i]) (.branch kind [c] none)) n := by
  induction path generalizing n with
  | nil =>
    cases hp
    cases p with
    | literal value => cases hc
    | branch kind' children location =>
      rw [List.nil_append, Node.replaceAt_cons hc]
      refine x.replaces_set file hc (fun role j hr => ?_) fun names => ?_
      · exact LanguageRules.nameAt?_set_ne (hname role j hr) _ _
      · rw [Node.replaceAt, x.findings_wrapper file hkind]
  | cons k path ih =>
    obtain ⟨d, hd, hdp⟩ := Option.bind_eq_some_iff.mp hp
    have hbelow := ih hdp
    cases n with
    | literal value => cases hd
    | branch kind' children location =>
      rw [List.cons_append, Node.replaceAt_cons hd]
      exact x.replaces_set file hd (fun _ j _ => LanguageRules.nameAt?_set hd hbelow.name j)
        hbelow.findings

/-- Wrapping a node in a branch without a role and without lines changes no reference, and of the
symbols nothing but their subtrees, unless the node stands where the rule for the node above it
looks for a name. -/
theorem wrappers_are_transparent {kind : Option String}
    (hkind : kind.bind x.rules.roleOfKind? = none) {a : Address} {p c : Node} {i : Nat}
    (hp : file.root.at? a = some p) (hc : p.child? i = some c)
    (hname : ∀ role j, x.rules.roleOf? p = some (role, j) → j ≠ i) :
    let wrapped := file.replaceAt (a.child i) (.branch kind [c] none)
    (x.extract wrapped).references = (x.extract file).references ∧
      (x.extract wrapped).symbols.map ExtractedSymbol.withoutSubtree =
        (x.extract file).symbols.map ExtractedSymbol.withoutSubtree := by
  intro wrapped
  have hsource : x.findings wrapped [] wrapped.root = x.findings file [] wrapped.root := rfl
  have hfindings := (x.replaces_replaceAt file hkind hp hc hname).findings []
  change (x.findings file [] wrapped.root).map _ = _ at hfindings
  rw [← hsource] at hfindings
  constructor
  · rw [extract, extract, run_start, run_start]
    have hreferences := congrArg (List.filterMap Finding.reference?) hfindings
    simpa only [List.filterMap_map, Function.comp_def, Finding.reference?_withoutSubtree]
      using hreferences
  · rw [extract, extract, run_start, run_start]
    have hsymbols := congrArg (List.filterMap Finding.symbol?) hfindings
    simpa only [List.filterMap_map, List.map_filterMap, Function.comp_def,
      Finding.symbol?_withoutSubtree] using hsymbols

-- the class stands below a branch without a kind; around its first child a wrapper would hide its
-- name
theorem wrappers_are_transparent_in_class :
    ∃ (x : Extractor) (file : ParsedFile) (p c : Node),
      x = {} ∧ file.source = some "class Ant\n  def march = walk\nend\n" ∧
      (some "begin").bind x.rules.roleOfKind? = none ∧
      file.root.at? ⟨[0]⟩ = some p ∧ p.kind? = some "class" ∧ p.child? 1 = some c ∧
      c.kind? = some "def" ∧ (∀ role j, x.rules.roleOf? p = some (role, j) → j ≠ 1) ∧
      (x.extract (file.replaceAt ⟨[0, 1]⟩ (.branch (some "begin") [c] none))).references =
        [⟨"Ant", ⟨1, 1⟩⟩, ⟨"walk", ⟨2, 2⟩⟩] ∧
      (x.extract (file.replaceAt ⟨[0, 1]⟩ (.branch (some "begin") [c] none))).symbols.map
          ExtractedSymbol.withoutSubtree =
        [⟨"Ant", .type, "global", ⟨1, 3⟩, none, none⟩,
          ⟨"march", .callable, "Ant", ⟨2, 2⟩, some "  def march = walk", none⟩] := by
  let c : Node := .branch (some "def") [.literal (.str "march"),
    .branch (some "send") [.literal .nil, .literal (.str "walk")] (some ⟨2, 2⟩)] (some ⟨2, 2⟩)
  let p : Node := .branch (some "class") [.branch (some "const")
    [.literal .nil, .literal (.str "Ant")] (some ⟨1, 1⟩), c] (some ⟨1, 3⟩)
  let file : ParsedFile :=
    ⟨"ant.rb", .branch none [p] none, some "class Ant\n  def march = walk\nend\n"⟩
  have hkind : (some "begin").bind ({} : Extractor).rules.roleOfKind? = none := by decide
  have hname : ∀ role j, ({} : Extractor).rules.roleOf? p = some (role, j) → j ≠ 1 := by
    have hrole : ({} : Extractor).rules.roleOf? p = some (.typeDefinition, 0) := by decide
    rintro role j h rfl
    rw [hrole] at h
    cases h
  obtain ⟨hreferences, hsymbols⟩ :=
    wrappers_are_transparent {} file hkind (a := ⟨[0]⟩) (i := 1) rfl rfl hname
  have hextract : ({} : Extractor).extract file = ⟨"ant.rb", file.root,
      [⟨"Ant", .type, "global", ⟨1, 3⟩, none, none⟩,
        ⟨"march", .callable, "Ant", ⟨2, 2⟩, some "  def march = walk", some c⟩],
      [⟨"Ant", ⟨1, 1⟩⟩, ⟨"walk", ⟨2, 2⟩⟩]⟩ := by
    rw [extract, run_start]
    rfl
  rw [hextract] at hreferences hsymbols
  exact ⟨{}, file, p, c, rfl, rfl, hkind, rfl, rfl, rfl, rfl, hname, hreferences, hsymbols⟩

end Extractor

end CodeIndex
