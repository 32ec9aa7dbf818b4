import CodeIndex.SymbolKind
import CodeIndex.Tree.Node

/-! # Rules of a language

Which kinds of nodes define or use names, and which child of such a node holds the name. The rules
come in groups, one for each role, and of two rules for one kind the earlier one counts.
-/

namespace CodeIndex

/-- A kind of nodes and the position of the child that holds their name. -/
structure NodeRule where
  kind : String
  nameChild : Nat := 0
deriving DecidableEq, Repr

/-- What the nodes of a kind are for. -/
inductive NodeRole where
  | typeDefinition
  | callable
  | singletonCallable
  | constantReference
  | call
deriving DecidableEq, Repr

/-- The kind of the symbol that a definition introduces. -/
def NodeRole.symbolKind? : NodeRole → Option SymbolKind
  | .typeDefinition => some .type
  | .callable => some .callable
  | .singletonCallable => some .singletonCallable
  | .constantReference | .call => none

structure LanguageRules where
  name : String
  typeDefinitions : List NodeRule
  callables : List NodeRule
  singletonCallables : List NodeRule := []
  constantReferences : List NodeRule := []
  calls : List NodeRule := []
deriving DecidableEq, Repr

namespace LanguageRules

/-- Classes and modules are named by a constant, a constant by its second child, and a call has
its receiver before its name. -/
def ruby : LanguageRules where
  name := "ruby"
  typeDefinitions := [⟨"class", 0⟩, ⟨"module", 0⟩]
  callables := [⟨"def", 0⟩]
  singletonCallables := [⟨"defs", 1⟩]
  constantReferences := [⟨"const", 1⟩]
  calls := [⟨"send", 1⟩, ⟨"csend", 1⟩]

/-- All rules with their roles, one group after the other. -/
def roles (r : LanguageRules) : List (NodeRole × NodeRule) :=
  r.typeDefinitions.map (.typeDefinition, ·) ++ r.callables.map (.callable, ·)
    ++ r.singletonCallables.map (.singletonCallable, ·)
    ++ r.constantReferences.map (.constantReference, ·) ++ r.calls.map (.call, ·)

/-- The entries that occur for the second time, where `seen` has come before. -/
def secondOccurrences (seen : List String) : List String → List String
  | [] => []
  | k :: ks =>
    if seen.count k = 1 then k :: secondOccurrences (k :: seen) ks
    else secondOccurrences (k :: seen) ks

/-- The kinds that more than one rule claims, in the order of their second claims. -/
def duplicateKinds (r : LanguageRules) : List String :=
  secondOccurrences [] (r.roles.map fun (_, rule) => rule.kind)

/-- A table with one more entry, unless it has one under the same key. -/
def withNew (key : String) (value : α) (table : List (String × α)) : List (String × α) :=
  if (table.lookup key).isSome then table else (key, value) :: table

/-- The role of each kind that has a rule and the position of the name, by its first rule. -/
def roleTable (r : LanguageRules) : List (String × NodeRole × Nat) :=
  r.roles.foldl (fun table (role, rule) => withNew rule.kind (role, rule.nameChild) table) []

/-- The role of a kind and the position of the name. -/
def roleOfKind? (r : LanguageRules) (kind : String) : Option (NodeRole × Nat) :=
  r.roleTable.lookup kind

def roleOf? (r : LanguageRules) (n : Node) : Option (NodeRole × Nat) :=
  n.kind?.bind r.roleOfKind?

def callKinds (r : LanguageRules) : List String :=
  r.calls.map (·.kind)

mutual

/-- The name that a node stands for: a string is its own name, and a reference to a constant has
the name of the child that its rule points to. -/
def nameFor? (r : LanguageRules) : Node → Option String
  | .literal (.str s) => some s
  | .literal _ => none
  | .branch kind children _ =>
    match kind.bind r.roleOfKind? with
    | some (.constantReference, i) => r.nameAt? children i
    | _ => none

/-- The name that the node at position `i` stands for. -/
def nameAt? (r : LanguageRules) : List Node → Nat → Option String
  | [], _ => none
  | n :: _, 0 => r.nameFor? n
  | _ :: ns, i + 1 => r.nameAt? ns i

end

/-- The name of a node whose rule says that its child at position `i` holds it. -/
def nameOf? (r : LanguageRules) (n : Node) (i : Nat) : Option String :=
  r.nameAt? n.children i

end LanguageRules

end CodeIndex
