/-! # Scopes of definitions

The names of the types that enclose a place in a tree, and the label that they give to what is
defined there.
-/

namespace CodeIndex

/-- How the names of enclosing types are written as one label. -/
structure ScopeStyle where
  separator : String := "::"
  /-- The label of a place that no type encloses. -/
  outermost : String := "global"
deriving DecidableEq, Repr

/-- The label for the enclosing names `names`, given from the outermost inward. -/
def ScopeStyle.label (style : ScopeStyle) : List String → String
  | [] => style.outermost
  | names => style.separator.intercalate names

theorem ScopeStyle.label_eq (style : ScopeStyle) (names : List String) :
    style.label names =
      if names = [] then style.outermost else style.separator.intercalate names := by
  cases names <;> rfl

/-- The enclosing names, the innermost first. -/
structure ScopeStack where
  style : ScopeStyle := {}
  names : List String := []

namespace ScopeStack

def push (s : ScopeStack) (name : String) : ScopeStack :=
  { s with names := name :: s.names }

def pop (s : ScopeStack) : ScopeStack :=
  { s with names := s.names.tail }

def current? (s : ScopeStack) : Option String :=
  s.names.head?

def depth (s : ScopeStack) : Nat :=
  s.names.length

def isEmpty (s : ScopeStack) : Bool :=
  s.names.isEmpty

def label (s : ScopeStack) : String :=
  s.style.label s.names.reverse

@[simp] theorem pop_push (s : ScopeStack) (name : String) : (s.push name).pop = s := rfl

end ScopeStack

end CodeIndex
