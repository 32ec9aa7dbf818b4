import CodeIndex.Extraction.Record
import CodeIndex.Extraction.ScopeStack
import CodeIndex.Rules

/-! # Extraction of symbols and references

One walk through a tree, a node before its children, on a stack of steps. A type definition with a
name encloses what stands below it, whether or not it covers lines; a node whose name or lines are
missing leaves no record, but its children are visited like all others.
-/

namespace CodeIndex

structure Extractor where
  rules : LanguageRules := .ruby
  style : ScopeStyle := {}
  /-- Whether the lines of callables are kept. -/
  captureText : Bool := true

namespace Extractor

def symbol? (x : Extractor) (file : ParsedFile) (scopes : ScopeStack) (kind : SymbolKind)
    (name : String) (n : Node) : Option ExtractedSymbol :=
  n.location?.map fun span =>
    { name, kind, scope := scopes.label, span
      sourceText := if kind.isCallable && x.captureText then file.textOf? span else none
      subtree := if kind.isCallable then some n else none }

def reference? (name : Option String) (n : Node) : Option ExtractedReference := do
  return ⟨← name, ← n.location?⟩

/-- The record of a node, and the name of the scope that it opens for its children. -/
def visit (x : Extractor) (file : ParsedFile) (scopes : ScopeStack) (n : Node) :
    Option Finding × Option String :=
  match x.rules.roleOf? n with
  | none => (none, none)
  | some (role, i) =>
    let name := x.rules.nameOf? n i
    match role with
    | .typeDefinition =>
      (name.bind fun name => (x.symbol? file scopes .type name n).map .symbol, name)
    | .callable | .singletonCallable =>
      match name, role.symbolKind? with
      | some name, some kind => ((x.symbol? file scopes kind name n).map .symbol, none)
      | _, _ => (none, none)
    | .constantReference | .call => ((reference? name n).map .reference, none)

/-- What is still to be done on a walk. -/
inductive Step where
  | enter (n : Node)
  /-- Behind the children of a type definition. -/
  | leave

/-- A walk through a tree. -/
structure Walk where
  /-- The steps ahead, the next one first. -/
  steps : List Step
  scopes : ScopeStack
  /-- What has been found, the latest first. -/
  found : List Finding := []

/-- One step of a walk; `none` when there is none left. -/
def step? (x : Extractor) (file : ParsedFile) (w : Walk) : Option Walk :=
  match w.steps with
  | [] => none
  | .leave :: steps => some { w with steps, scopes := w.scopes.pop }
  | .enter n :: steps =>
    let below := n.children.map Step.enter
    let (finding, opened) := x.visit file w.scopes n
    let found := finding.toList ++ w.found
    match opened with
    | none => some { w with steps := below ++ steps, found }
    | some name => some { steps := below ++ .leave :: steps, scopes := w.scopes.push name, found }

namespace Walk

/-- The number of steps that a node takes, with its scope and all that is below it, is at most
twice the number of its nodes. -/
def cost : List Step → Nat
  | [] => 0
  | .enter n :: steps => 2 * n.weight + cost steps
  | .leave :: steps => cost steps + 1

theorem cost_enter (ns : List Node) (steps : List Step) :
    cost (ns.map .enter ++ steps) = 2 * Node.weights ns + cost steps := by
  induction ns with
  | nil => simp [Node.weights]
  | cons n ns ih => simp only [List.map_cons, List.cons_append, cost, Node.weights, ih]; omega

end Walk

theorem cost_lt_of_step? {x : Extractor} {file : ParsedFile} {w w' : Walk}
    (h : x.step? file w = some w') : Walk.cost w'.steps < Walk.cost w.steps := by
  unfold step? at h
  split at h
  · cases h
  · next hw => cases h; simp [hw, Walk.cost]
  · next hw =>
    simp only at h
    split at h <;> cases h <;> simp only [hw, Walk.cost_enter, Walk.cost, Node.weight_eq] <;> omega

/-- All that is found on a walk, in the order of the nodes. -/
def run (x : Extractor) (file : ParsedFile) (w : Walk) : List Finding :=
  match _h : x.step? file w with
  | none => w.found.reverse
  | some w' => x.run file w'
termination_by Walk.cost w.steps
decreasing_by exact cost_lt_of_step? _h

/-- The symbols and references of a file. -/
def extract (x : Extractor) (file : ParsedFile) : FileExtraction :=
  let found := x.run file { steps := [.enter file.root], scopes := { style := x.style } }
  ⟨file.path, file.root, found.filterMap Finding.symbol?, found.filterMap Finding.reference?⟩

end Extractor

end CodeIndex
