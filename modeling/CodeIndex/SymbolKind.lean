/-! # Kinds of defined symbols -/

namespace CodeIndex

/-- What a definition introduces. -/
inductive SymbolKind where
  /-- A container of definitions, such as a class or a module. -/
  | type
  /-- A method of the instances of a container. -/
  | callable
  /-- A method of a single object. -/
  | singletonCallable
deriving DecidableEq, Repr

namespace SymbolKind

def word : SymbolKind → String
  | .type => "type"
  | .callable => "callable"
  | .singletonCallable => "singleton_callable"

def ofWord? : String → Option SymbolKind
  | "type" => some .type
  | "callable" => some .callable
  | "singleton_callable" => some .singletonCallable
  | _ => none

def unknownWord (word : String) : String :=
  "unknown symbol kind '" ++ word ++ "'"

def isCallable : SymbolKind → Bool
  | .type => false
  | .callable | .singletonCallable => true

theorem ofWord?_word (k : SymbolKind) : ofWord? k.word = some k := by
  cases k <;> rfl

end SymbolKind

end CodeIndex
