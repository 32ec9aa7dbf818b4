import CodeIndex.Query.Engine
import CodeIndex.Query.Params

/-! # Methods

The queries by name, with parameters and answers as JSON values. A registry keeps its methods in
the order of their names and has at most one of each name.
-/

namespace CodeIndex

open Json (Value)

/-- A named query. -/
structure QueryMethod where
  name : String
  /-- The names of the parameters. -/
  params : List String
  summary : String
  run : QueryEngine → Value → Except Error Value

namespace QueryMethod

def answers (write : α → Value) (xs : List α) : Value :=
  .array (xs.map write)

def builtIn : List QueryMethod :=
  [ { name := "getSymbols", params := ["file_path"], summary := "All symbols extracted from a file"
      run := fun e p => do
        return answers SymbolRecord.toJson (← e.symbols (← Params.string p "file_path")) },
    { name := "getTree", params := ["file_path"], summary := "Stored root node of a file"
      run := fun e p => do
        return (← e.tree (← Params.string p "file_path")).toJson },
    { name := "queryNodes", params := ["file_path", "kind"]
      summary := "Nodes of one kind in a file, with ids"
      run := fun e p => do
        let path ← Params.string p "file_path"
        let kind ← Params.string p "kind"
        return answers NodeMatch.toJson (← e.nodes path kind) },
    { name := "getNodeDetails", params := ["file_path", "id"], summary := "Node at an id"
      run := fun e p => do
        let path ← Params.string p "file_path"
        let id ← Params.string p "id"
        return (← e.nodeDetails path id).toJson },
    { name := "getAncestors", params := ["file_path", "id"]
      summary := "Ancestors of the node at an id, root first"
      run := fun e p => do
        let path ← Params.string p "file_path"
        let id ← Params.string p "id"
        return answers NodeMatch.toJson (← e.ancestors path id) },
    { name := "findDefinition", params := ["name"], summary := "Symbols with a name, in any file"
      run := fun e p => do
        return answers SymbolRecord.toJson (← e.definition (← Params.string p "name")) },
    { name := "findReferences", params := ["name"], summary := "References to a name, in any file"
      run := fun e p => do
        return answers ReferenceRecord.toJson (← e.references (← Params.string p "name")) },
    { name := "getCallHierarchy", params := ["file_path", "line"]
      summary := "Callers and callees of the callable enclosing a line"
      run := fun e p => do
        let path ← Params.string p "file_path"
        let line ← Params.line p "line"
        return (← e.callHierarchy path line).toJson },
    { name := "listFiles", params := [], summary := "Indexed file paths"
      run := fun e _ => do return answers Value.string (← e.files) },
    { name := "getStats", params := [], summary := "File, symbol and reference counts"
      run := fun e _ => do return (← e.stats).toJson } ]

def toJson (m : QueryMethod) : Value :=
  .object
    [("name", .string m.name), ("params", .array (m.params.map .string)),
      ("summary", .string m.summary)]

def signature (m : QueryMethod) : String :=
  "MethodSpec \x7b name: " ++ Json.quote m.name ++ ", params: ["
    ++ ", ".intercalate (m.params.map Json.quote) ++ "], .. \x7d"

end QueryMethod

/-- Methods in the order of their names. -/
structure MethodRegistry where
  methods : List QueryMethod := []

namespace MethodRegistry

/-- Inserts a method in the order of names, in place of one of the same name. -/
def insertByName (m : QueryMethod) : List QueryMethod → List QueryMethod
  | [] => [m]
  | other :: ms =>
    if m.name < other.name then m :: other :: ms
    else if m.name = other.name then m :: ms
    else other :: insertByName m ms

def insert (r : MethodRegistry) (m : QueryMethod) : MethodRegistry :=
  ⟨insertByName m r.methods⟩

def builtIn : MethodRegistry :=
  QueryMethod.builtIn.foldl insert {}

def get? (r : MethodRegistry) (name : String) : Option QueryMethod :=
  r.methods.find? (·.name == name)

def contains (r : MethodRegistry) (name : String) : Bool :=
  (r.get? name).isSome

def names (r : MethodRegistry) : List String :=
  r.methods.map (·.name)

def register (r : MethodRegistry) (m : QueryMethod) : Except Error MethodRegistry :=
  if r.contains m.name then .error { cause := .methodTaken m.name } else .ok (r.insert m)

def describe (r : MethodRegistry) : Value :=
  .array (r.methods.map QueryMethod.toJson)

def dispatch (r : MethodRegistry) (e : QueryEngine) (name : String) (params : Value) :
    Except Error Value := do
  match r.get? name with
  | none => .error { cause := .unknownMethod name }
  | some m =>
    Params.ensureObject params
    m.run e params

end MethodRegistry

end CodeIndex
