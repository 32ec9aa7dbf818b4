import CodeIndex.Text.Segments

/-! # Paths

A path is a text of names that are separated by slashes. It is absolute when it begins with a
slash, and relative to some folder otherwise.
-/

namespace CodeIndex.Path

def isAbsolute (path : String) : Bool :=
  path.toList.head? == some '/'

/-- The names in a path. Slashes side by side have an empty name between them. -/
def names (path : String) : List String :=
  (Text.segments '/' path.toList).map String.ofList

/-- The path of what `path` is below the folder `base`. -/
def join (base path : String) : String :=
  if isAbsolute path || base.isEmpty then path
  else if base.toList.getLast? == some '/' then base ++ path
  else base ++ "/" ++ path

/-- What follows the last dot of a name, unless nothing precedes that dot. -/
def extension? (name : String) : Option String :=
  let cs := name.toList.reverse
  match cs.dropWhile (· ≠ '.') with
  | [] | ['.'] => none
  | _ => some (String.ofList (cs.takeWhile (· ≠ '.')).reverse)

end CodeIndex.Path
