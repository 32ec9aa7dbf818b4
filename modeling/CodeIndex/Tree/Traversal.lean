import CodeIndex.Tree.Address
import CodeIndex.Tree.Node

/-! # Addressed nodes of a tree

Nodes are found by address and listed together with their addresses, a node before those below it
and the nodes below one child before those below the next.
-/

namespace CodeIndex

namespace Node

/-- The node that a path of child positions leads to. -/
def follow? (n : Node) : List Nat → Option Node
  | [] => some n
  | i :: path => (n.child? i).bind fun c => c.follow? path

def at? (n : Node) (a : Address) : Option Node :=
  n.follow? a.path

end Node

/-- A walk through a tree on which a node comes before those below it. -/
structure PreorderWalk where
  /-- The nodes whose subtrees are still ahead, the next one first. -/
  ahead : List (Address × Node)

namespace PreorderWalk

/-- The walk through the tree `n`, whose root has the address `a`. -/
def start (a : Address) (n : Node) : PreorderWalk := ⟨[(a, n)]⟩

def next? : PreorderWalk → Option ((Address × Node) × PreorderWalk)
  | ⟨[]⟩ => none
  | ⟨(a, n) :: ahead⟩ =>
    some ((a, n), ⟨(n.children.zipIdx.map fun (c, i) => (a.child i, c)) ++ ahead⟩)

/-- The number of nodes still ahead. -/
def weight (w : PreorderWalk) : Nat :=
  Node.weights (w.ahead.map (·.2))

theorem weight_lt_of_next? {w w' : PreorderWalk} {item : Address × Node}
    (h : w.next? = some (item, w')) : w'.weight < w.weight := by
  match w with
  | ⟨[]⟩ => simp [next?] at h
  | ⟨(a, n) :: ahead⟩ =>
    simp only [next?, Option.some.injEq, Prod.mk.injEq] at h
    obtain ⟨-, rfl⟩ := h
    have hc : (n.children.zipIdx.map fun (c, i) => (a.child i, c)).map (·.2) = n.children := by
      simp [Function.comp_def]
    simp only [weight, List.map_append, hc, List.map_cons, Node.weights_append, Node.weights,
      Node.weight_eq n]
    omega

/-- All that is ahead on a walk, behind those in `seen`, which are in reverse. -/
def collect (seen : List (Address × Node)) (w : PreorderWalk) : List (Address × Node) :=
  match _h : w.next? with
  | none => seen.reverse
  | some (item, w') => collect (item :: seen) w'
termination_by w.weight
decreasing_by exact weight_lt_of_next? _h

def toList (w : PreorderWalk) : List (Address × Node) :=
  collect [] w

end PreorderWalk

namespace Node

/-- The addresses and nodes of a tree in preorder, its root included. -/
def preorder (n : Node) : List (Address × Node) :=
  (PreorderWalk.start .root n).toList

def ofKind (n : Node) (kind : String) : List (Address × Node) :=
  n.preorder.filter fun (_, m) => m.hasKind kind

/-- The nodes on the way from the node at `above` along a path, the last one left out; `none` when
the path leaves the tree. -/
def passed? (above : Address) (n : Node) : List Nat → Option (List (Address × Node))
  | [] => some []
  | i :: path => do
    let c ← n.child? i
    return (above, n) :: (← c.passed? (above.child i) path)

/-- The nodes strictly above an address, the root first; `none` when no node has the address. -/
def ancestors? (n : Node) (a : Address) : Option (List (Address × Node)) :=
  n.passed? .root a.path

/-- The nodes at or below an address whose kind is one of `kinds`, in preorder and with addresses
in the whole tree; `none` when no node has the address. -/
def below? (n : Node) (a : Address) (kinds : List String) : Option (List (Address × Node)) := do
  let start ← n.at? a
  return (PreorderWalk.start a start).toList.filter fun (_, m) =>
    m.kind?.any fun kind => kinds.contains kind

end Node

end CodeIndex
