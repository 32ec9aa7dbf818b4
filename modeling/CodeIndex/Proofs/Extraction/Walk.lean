import CodeIndex.Extraction.Extractor
import CodeIndex.Proofs.Tree.Preorder

/-! # What a walk extracts

The stack of steps and the stack of scopes of a walk belong together: when all steps that a node has
put on the one are done, the other is as it was when the node was entered. What a walk finds can
therefore be read off the tree, with the scope of a node from the type definitions on the way to it.
-/

namespace CodeIndex.Extractor

variable (x : Extractor) (file : ParsedFile)

/-! ## The tree read without a walk -/

/-- The name of a type definition, where it has a static one. -/
def typeName? (n : Node) : Option String :=
  match x.rules.roleOf? n with
  | some (.typeDefinition, i) => x.rules.nameOf? n i
  | _ => none

/-- The names of the type definitions strictly above an address, the outermost first. -/
def enclosing (root : Node) (a : Address) : List String :=
  a.strictPrefixes.filterMap fun b => (root.at? b).bind x.typeName?

/-- The symbol of a node among the types `names`, the outermost first. -/
def symbolAmong? (names : List String) (n : Node) : Option ExtractedSymbol := do
  let (role, i) ← x.rules.roleOf? n
  let kind ← role.symbolKind?
  let name ← x.rules.nameOf? n i
  let span ← n.location?
  return {
    name, kind, span
    scope := if names = [] then x.style.outermost else x.style.separator.intercalate names
    sourceText := if kind.isCallable && x.captureText then file.textOf? span else none
    subtree := if kind.isCallable then some n else none }

def referenceOf? (n : Node) : Option ExtractedReference := do
  let (role, i) ← x.rules.roleOf? n
  if role = .constantReference ∨ role = .call then
    return ⟨← x.rules.nameOf? n i, ← n.location?⟩
  else none

def findingAmong? (names : List String) (n : Node) : Option Finding :=
  (x.symbolAmong? file names n).map Finding.symbol <|> (x.referenceOf? n).map Finding.reference

/-! ## One step -/

theorem visit_eq (scopes : ScopeStack) (hs : scopes.style = x.style) (n : Node) :
    x.visit file scopes n = (x.findingAmong? file scopes.names.reverse n, x.typeName? n) := by
  unfold visit findingAmong? symbolAmong? referenceOf? typeName?
  cases x.rules.roleOf? n with
  | none => rfl
  | some r =>
    obtain ⟨role, i⟩ := r
    cases role <;> cases hn : x.rules.nameOf? n i <;> cases hl : n.location? <;>
      simp [NodeRole.symbolKind?, symbol?, Extractor.reference?, SymbolKind.isCallable, hn, hl,
        ScopeStack.label, ScopeStyle.label_eq, hs]

theorem run_of_step? {w w' : Walk} (h : x.step? file w = some w') :
    x.run file w = x.run file w' := by
  rw [run]
  split
  · simp_all
  · next h' => rw [h] at h'; cases h'; rfl

theorem run_leave (steps : List Step) (scopes : ScopeStack) (found : List Finding) :
    x.run file ⟨.leave :: steps, scopes, found⟩ = x.run file ⟨steps, scopes.pop, found⟩ :=
  x.run_of_step? file rfl

theorem run_nil (scopes : ScopeStack) (found : List Finding) :
    x.run file ⟨[], scopes, found⟩ = found.reverse := by
  rw [run]
  split <;> simp_all [step?]

/-- Entering a node records it, and puts its children on the stack, with the end of its scope
behind them where it opens one. -/
theorem run_enter (n : Node) (steps : List Step) (scopes : ScopeStack) (found : List Finding)
    (hs : scopes.style = x.style) :
    x.run file ⟨.enter n :: steps, scopes, found⟩ =
      match x.typeName? n with
      | none => x.run file ⟨n.children.map Step.enter ++ steps, scopes,
          (x.findingAmong? file scopes.names.reverse n).toList ++ found⟩
      | some name => x.run file ⟨n.children.map Step.enter ++ .leave :: steps, scopes.push name,
          (x.findingAmong? file scopes.names.reverse n).toList ++ found⟩ := by
  have hv := x.visit_eq file scopes hs n
  cases ht : x.typeName? n <;> rw [ht] at hv <;> exact x.run_of_step? file (by simp [step?, hv])

/-! ## A whole subtree -/

/-- The names of the type definitions that a path passes, its end left out. -/
def passedTypes (n : Node) : List Nat → List String
  | [] => []
  | i :: path =>
    (x.typeName? n).toList ++ ((n.child? i).map fun c => passedTypes c path).getD []

def findings (names : List String) (n : Node) : List Finding :=
  n.paths.filterMap fun y => x.findingAmong? file (names ++ x.passedTypes n y.1) y.2

theorem findings_eq (names : List String) (n : Node) :
    x.findings file names n = (x.findingAmong? file names n).toList ++
      n.children.flatMap (x.findings file (names ++ (x.typeName? n).toList)) := by
  have hc : ∀ y ∈ n.children.zipIdx,
      ((y.1.paths.map fun z => (y.2 :: z.1, z.2)).filterMap fun z =>
        x.findingAmong? file (names ++ x.passedTypes n z.1) z.2) =
      x.findings file (names ++ (x.typeName? n).toList) y.1 := by
    rintro ⟨c, i⟩ hy
    have hi : n.child? i = some c := List.mem_zipIdx_iff_getElem?.mp hy
    rw [List.filterMap_map, findings]
    refine List.filterMap_congr fun z _ => ?_
    simp [passedTypes, hi]
  have hz : n.children = n.children.zipIdx.map (·.1) := by simp
  rw [findings, Node.paths_eq, List.filterMap_cons, Node.pathsFrom_eq, List.filterMap_flatMap,
    List.flatMap_congr hc]
  conv_rhs => rw [hz, List.flatMap_map]
  cases h : x.findingAmong? file names n <;> simp [passedTypes, h]

/-- A walk that enters a node finds what is in its subtree, and goes on with the steps behind it and
the scopes before it. -/
theorem run_enter_findings (n : Node) (steps : List Step) (scopes : ScopeStack)
    (found : List Finding) (hs : scopes.style = x.style) :
    x.run file ⟨.enter n :: steps, scopes, found⟩ =
      x.run file ⟨steps, scopes, (x.findings file scopes.names.reverse n).reverse ++ found⟩ := by
  induction n using Node.induction generalizing steps scopes found with
  | literal value =>
    rw [run_enter x file _ _ _ _ hs, findings_eq]
    cases hf : x.findingAmong? file scopes.names.reverse (.literal value) <;>
      simp [typeName?, LanguageRules.roleOf?, Node.kind?, Node.children]
  | branch kind children location ih =>
    -- the children are entered one after the other, in the scopes that hold below the node
    have hall : ∀ (ns : List Node) (steps : List Step) (scopes : ScopeStack)
        (found : List Finding), scopes.style = x.style → (∀ c ∈ ns, c ∈ children) →
        x.run file ⟨ns.map Step.enter ++ steps, scopes, found⟩ =
          x.run file ⟨steps, scopes,
            (ns.flatMap (x.findings file scopes.names.reverse)).reverse ++ found⟩ := by
      intro ns
      induction ns with
      | nil => intros; rfl
      | cons c ns ihns =>
        intro steps scopes found hs hmem
        rw [List.map_cons, List.cons_append,
          ih c (hmem c List.mem_cons_self) _ _ _ hs,
          ihns _ _ _ hs fun d hd => hmem d (List.mem_cons_of_mem _ hd)]
        simp [List.flatMap_cons]
    rw [run_enter x file _ _ _ _ hs, findings_eq]
    cases x.typeName? (.branch kind children location) with
    | none =>
      simp only [Node.children]
      rw [hall children _ _ _ hs fun _ h => h]
      cases x.findingAmong? file scopes.names.reverse (.branch kind children location) <;> simp
    | some name =>
      simp only [Node.children]
      rw [hall children _ (scopes.push name) _ hs fun _ h => h, run_leave, ScopeStack.pop_push]
      cases x.findingAmong? file scopes.names.reverse (.branch kind children location) <;>
        simp [ScopeStack.push]

/-! ## The whole tree -/

theorem passedTypes_eq (n : Node) (path : List Nat) :
    x.passedTypes n path = x.enclosing n ⟨path⟩ := by
  induction path generalizing n with
  | nil => rfl
  | cons i path ih =>
    have hrange : (Address.mk (i :: path)).strictPrefixes =
        .root :: (Address.mk path).strictPrefixes.map fun b => ⟨i :: b.path⟩ := by
      simp [Address.strictPrefixes, Address.depth, List.range_succ_eq_map, Address.root]
    rw [passedTypes, enclosing, hrange, List.filterMap_cons, List.filterMap_map]
    cases hc : n.child? i with
    | none =>
      cases ht : x.typeName? n <;> simp [Node.at?, Address.root, hc, ht]
    | some c =>
      have hi := ih c
      rw [enclosing] at hi
      cases ht : x.typeName? n <;> simp [Node.at?, Address.root, hc, ht, hi]

theorem bind_symbol? (names : List String) (n : Node) :
    (x.findingAmong? file names n).bind Finding.symbol? = x.symbolAmong? file names n := by
  unfold findingAmong?
  cases hs : x.symbolAmong? file names n <;> cases hr : x.referenceOf? n <;>
    simp [Finding.symbol?]

theorem bind_reference? (names : List String) (n : Node) :
    (x.findingAmong? file names n).bind Finding.reference? = x.referenceOf? n := by
  unfold findingAmong? symbolAmong? referenceOf?
  cases x.rules.roleOf? n with
  | none => rfl
  | some r =>
    obtain ⟨role, i⟩ := r
    cases role <;> cases hn : x.rules.nameOf? n i <;> cases n.location? <;>
      simp [NodeRole.symbolKind?, Finding.reference?, hn]

/-- An extraction is the tree read in preorder: a symbol for each definition that has a name and
covers lines, labelled by the named type definitions strictly above it, whether or not those cover
lines, and a reference for each use that has a name and covers lines. -/
theorem extract_eq_reading :
    (x.extract file).symbols = file.root.preorder.filterMap
        (fun y => x.symbolAmong? file (x.enclosing file.root y.1) y.2)
      ∧ (x.extract file).references = file.root.preorder.filterMap (fun y => x.referenceOf? y.2)
      ∧ (x.extract file).path = file.path ∧ (x.extract file).root = file.root := by
  have hrun : x.run file { steps := [.enter file.root], scopes := { style := x.style } } =
      x.findings file [] file.root := by
    rw [run_enter_findings x file _ _ _ _ rfl, run_nil]
    simp
  refine ⟨?_, ?_, rfl, rfl⟩
  · simp only [extract, hrun, findings, List.filterMap_filterMap, Node.preorder_eq,
      List.filterMap_map, List.nil_append, bind_symbol?, passedTypes_eq, Function.comp_def]
  · simp only [extract, hrun, findings, List.filterMap_filterMap, Node.preorder_eq,
      List.filterMap_map, bind_reference?, Function.comp_def]

end CodeIndex.Extractor
