import CodeIndex.Span

/-! # Nodes of syntax trees

A tree is what a parser makes of one source file. Interior nodes have children in their order,
may have a kind and may cover lines; the leaves are scalars such as names and string values. A
node without a kind is never asked for by kind, but its children are like all others.
-/

namespace CodeIndex

inductive Literal where
  | nil
  | bool (b : Bool)
  | int (n : Int64)
  /-- An integer beyond the signed ones. -/
  | large (n : UInt64)
  | float (x : Float)
  | str (s : String)
deriving Repr, BEq

inductive Node where
  | branch (kind : Option String) (children : List Node) (location : Option Span)
  | literal (value : Literal)
deriving Repr, BEq, Inhabited

namespace Node

def kind? : Node → Option String
  | .branch kind _ _ => kind
  | .literal _ => none

def hasKind (n : Node) (kind : String) : Bool :=
  n.kind? == some kind

/-- The children in their order; a literal has none. -/
def children : Node → List Node
  | .branch _ children _ => children
  | .literal _ => []

def child? (n : Node) (i : Nat) : Option Node :=
  n.children[i]?

def location? : Node → Option Span
  | .branch _ _ location => location
  | .literal _ => none

def string? : Node → Option String
  | .literal (.str s) => some s
  | _ => none

def isLiteral : Node → Bool
  | .branch .. => false
  | .literal _ => true

mutual

/-- The number of nodes in a tree, literals included, by recursion on the tree. -/
def weight : Node → Nat
  | .branch _ children _ => weights children + 1
  | .literal _ => 1

def weights : List Node → Nat
  | [] => 0
  | n :: ns => n.weight + weights ns

end

theorem weights_append (ns ms : List Node) : weights (ns ++ ms) = weights ns + weights ms := by
  induction ns with
  | nil => simp [weights]
  | cons n ns ih => simp only [List.cons_append, weights, ih]; omega

theorem weights_reverse (ns : List Node) : weights ns.reverse = weights ns := by
  induction ns with
  | nil => rfl
  | cons n ns ih => simp only [List.reverse_cons, weights_append, weights, ih]; omega

theorem weight_eq (n : Node) : n.weight = weights n.children + 1 := by
  cases n <;> rfl

/-- Counts the nodes of the trees on a stack, behind `seen` others. The last child of a node comes
to lie on top. -/
def countStack (seen : Nat) : List Node → Nat
  | [] => seen
  | n :: stack => countStack (seen + 1) (n.children.reverse ++ stack)
termination_by stack => weights stack
decreasing_by
  simp only [weights_append, weights_reverse, weights, weight_eq]
  omega

/-- The number of nodes, literals included. -/
def size (n : Node) : Nat :=
  countStack 0 [n]

end Node

end CodeIndex
