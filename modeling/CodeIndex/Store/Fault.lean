import CodeIndex.Json.Problem
import CodeIndex.Store.Cell
import CodeIndex.SymbolKind

/-! # Faults of a stored index

What a row can hold that no row written by a rebuild holds, and why a database cannot be opened.
Columns are counted from zero in the order in which a query lists them.
-/

namespace CodeIndex

inductive StoreFault where
  /-- The kind of a symbol is no word for a kind. -/
  | unknownKind (column : Nat) (word : String)
  /-- A column that holds a tree does not. -/
  | badTree (column : Nat) (problem : Json.Problem)
  /-- A number does not fit the type of its field. -/
  | outOfRange (column : Nat) (n : Int)
  /-- A column of numbers holds something else. -/
  | wrongType (column : Nat) (name : String) (type : CellType)
  | noRows
  | cannotOpen (path : String)
  | notADatabase
  | notWritable
deriving DecidableEq, Repr

namespace StoreFault

def conversion (column : Nat) (detail : String) : String :=
  "Conversion error from type Text at index: " ++ toString column ++ ", " ++ detail

def message : StoreFault → String
  | .unknownKind column word => conversion column (SymbolKind.unknownWord word)
  | .badTree column problem => conversion column problem.message
  | .outOfRange column n =>
    "Integer " ++ toString n ++ " out of range at index " ++ toString column
  | .wrongType column name type =>
    "Invalid column type " ++ type.word ++ " at index: " ++ toString column ++ ", name: " ++ name
  | .noRows => "Query returned no rows"
  | .cannotOpen path => "unable to open database file: " ++ path
  | .notADatabase => "file is not a database"
  | .notWritable => "attempt to write a readonly database"

end StoreFault

end CodeIndex
