import CodeIndex.Error
import CodeIndex.Tree.Traversal

/-! # Lookups in trees

An address may lead out of a tree. Whatever is then asked about the node at it is a miss, and the
miss names the address.
-/

namespace CodeIndex

/-- What a search at an address has found; if nothing, the node is missed. -/
def Address.found (a : Address) : Option α → Except Error α
  | none => .error { cause := .noNode a }
  | some x => .ok x

namespace Address

variable {a : Address} {x : Option α}

@[simp] theorem found_eq_ok {y : α} : a.found x = .ok y ↔ x = some y := by
  cases x <;> simp [found]

@[simp] theorem found_eq_error {e : Error} :
    a.found x = .error e ↔ x = none ∧ e = { cause := .noNode a } := by
  cases x <;> simp [found, eq_comm]

end Address

namespace Node

def lookup (n : Node) (a : Address) : Except Error Node :=
  a.found (n.at? a)

/-- The nodes strictly above an address, the root first. -/
def lookupAncestors (n : Node) (a : Address) : Except Error (List (Address × Node)) :=
  a.found (n.ancestors? a)

/-- The nodes at or below an address whose kind is one of `kinds`, in preorder and with addresses
in the whole tree. -/
def lookupBelow (n : Node) (a : Address) (kinds : List String) :
    Except Error (List (Address × Node)) :=
  a.found (n.below? a kinds)

end Node

end CodeIndex
