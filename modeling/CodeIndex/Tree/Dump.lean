import CodeIndex.Error
import CodeIndex.Tree.Reader

/-! # Dumps of trees

A dump is the JSON text of the tree of one file, whose root is never a literal.
-/

namespace CodeIndex.Node

/-- The tree that a dump of the file `path` holds. -/
def ofDump (path : String) (dump : Text.Octets) : Except Error Node :=
  match read dump with
  | .error problem => .error { cause := .invalidTree problem, file := some path }
  | .ok n =>
    if n.isLiteral then .error { cause := .rootIsLiteral, file := some path } else .ok n

end CodeIndex.Node
