import CodeIndex.Text.Segments

/-! # Addresses of nodes

An address is the sequence of child positions that leads from the root of a tree to a node. It is
written as `root` followed by `.children.<n>` for each position. An address says nothing about
whether a tree has a node there.
-/

namespace CodeIndex

/-- Child positions from the root downward. -/
structure Address where
  path : List Nat
deriving DecidableEq, Repr

namespace Address

def root : Address := ⟨[]⟩

def depth (a : Address) : Nat := a.path.length

def isRoot (a : Address) : Bool := a.path.isEmpty

def child (a : Address) (i : Nat) : Address := ⟨a.path ++ [i]⟩

def parent? (a : Address) : Option Address :=
  if a.isRoot then none else some ⟨a.path.dropLast⟩

/-- The addresses strictly above, the root first. -/
def strictPrefixes (a : Address) : List Address :=
  (List.range a.depth).map fun n => ⟨a.path.take n⟩

def isAncestorOf (a b : Address) : Bool :=
  a.depth < b.depth && a.path.isPrefixOf b.path

/-- The address of the node that has address `b` in the subtree at `a`. -/
def join (a b : Address) : Address := ⟨a.path ++ b.path⟩

/-- The order of the nodes of a tree in which a node comes before those below it. -/
instance : Ord Address where
  compare a b := compareOfLessAndEq a.path b.path

/-! ## Text -/

def stepText (i : Nat) : String :=
  ".children." ++ toString i

def text (a : Address) : String :=
  "root" ++ String.join (a.path.map stepText)

/-- Why a text is not an address. -/
inductive Flaw where
  | noRoot
  | notChildren
  | noIndex
  | badIndex
  /-- An index beyond 64 bits. -/
  | hugeIndex
deriving DecidableEq, Repr

def Flaw.message : Flaw → String
  | .noRoot => "must start with 'root'"
  | .notChildren => "expected 'children' step"
  | .noIndex => "missing child index"
  | .badIndex => "child index must be a non-negative integer"
  | .hugeIndex => "child index out of range"

def malformedText (text : String) (flaw : Flaw) : String :=
  "malformed node id '" ++ text ++ "': " ++ flaw.message

/-- The positions that the segments behind the first one spell, two segments a position. -/
def pathOfSegments : List (List Char) → Except Flaw (List Nat)
  | [] => .ok []
  | step :: rest =>
    if step = "children".toList then
      match rest with
      | [] => .error .noIndex
      | index :: rest =>
        match Text.natOfDigits? index with
        | none => .error .badIndex
        | some i => if i < UInt64.size then (pathOfSegments rest).map (i :: ·) else .error .hugeIndex
    else .error .notChildren

def parse (text : String) : Except Flaw Address :=
  match Text.segments '.' text.toList with
  | [] => .error .noRoot
  | first :: rest =>
    if first = "root".toList then (pathOfSegments rest).map Address.mk else .error .noRoot

end Address

end CodeIndex
