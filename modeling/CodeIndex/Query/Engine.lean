import CodeIndex.Query.Answer
import CodeIndex.Rules
import CodeIndex.Store.Reader
import CodeIndex.Tree.Lookup

/-! # Queries

Questions about the nodes of one file are answered from its stored tree, questions about names from
the rows of all files: names are compared as they are, whatever their scope. Misses and mistakes of
the caller are reported as they are, and any other error of the store as a failure of the query.
-/

namespace CodeIndex

/-- A question with its inputs. -/
inductive Query where
  | symbols (path : String)
  | tree (path : String)
  | nodes (path kind : String)
  | nodeDetails (path id : String)
  | ancestors (path id : String)
  | definition (name : String)
  | references (name : String)
  | callHierarchy (path : String) (line : UInt32)
  | files
  | stats
deriving DecidableEq, Repr

def Query.text : Query → String
  | .symbols path => "getSymbols(file_path=" ++ path ++ ")"
  | .tree path => "getTree(file_path=" ++ path ++ ")"
  | .nodes path kind => "queryNodes(file_path=" ++ path ++ ", kind=" ++ kind ++ ")"
  | .nodeDetails path id => "getNodeDetails(file_path=" ++ path ++ ", id=" ++ id ++ ")"
  | .ancestors path id => "getAncestors(file_path=" ++ path ++ ", id=" ++ id ++ ")"
  | .definition name => "findDefinition(name=" ++ name ++ ")"
  | .references name => "findReferences(name=" ++ name ++ ")"
  | .callHierarchy path line =>
    "getCallHierarchy(file_path=" ++ path ++ ", line=" ++ toString line.toNat ++ ")"
  | .files => "listFiles()"
  | .stats => "getStats()"

/-- An index and the rules by which its trees are read. -/
structure QueryEngine where
  reader : IndexReader
  rules : LanguageRules

/-- The error of a query whose read ended in error `e`. -/
def Query.failure (q : Query) (e : Error) : Error :=
  if e.isExpected then e else { cause := .readFailed e, operation := some q.text }

def Query.read (q : Query) (result : Except Error α) : Except Error α :=
  result.mapError q.failure

def notIndexed (path : String) : Error :=
  { cause := .fileNotIndexed, file := some path }

def Query.nonempty (q : Query) (name value : String) : Except Error Unit :=
  if value.isEmpty then .error { cause := .emptyArgument name, operation := some q.text }
  else .ok ()

namespace Node

/-- The node that has the address that a text spells. -/
def atText (n : Node) (text : String) : Except Error (Address × Node) :=
  match Address.parse text with
  | .error flaw => .error { cause := .malformedAddress text flaw }
  | .ok a => (n.lookup a).map fun m => (a, m)

end Node

/-- The first of the rows that cover the fewest lines. -/
def narrowest? : List SymbolRecord → Option SymbolRecord
  | [] => none
  | s :: ss =>
    match narrowest? ss with
    | none => some s
    | some t => if t.span.lineCount < s.span.lineCount then some t else some s

/-- The calls without those of a name that has come before, be it in `seen`. -/
def firstCalls (seen : List String) : List OutboundCall → List OutboundCall
  | [] => []
  | c :: cs =>
    if seen.contains c.name then firstCalls seen cs else c :: firstCalls (c.name :: seen) cs

/-- The call that a node makes, if its rule finds a name. -/
def LanguageRules.call? (r : LanguageRules) (n : Node) : Option OutboundCall := do
  let (_, i) ← r.roleOf? n
  return ⟨← r.nameOf? n i, n.location?⟩

/-- The names that are called in a tree, each with its first call. -/
def LanguageRules.outboundCalls (r : LanguageRules) (n : Node) :
    Except Error (List OutboundCall) := do
  let calls ← n.lookupBelow .root r.callKinds
  return firstCalls [] (calls.filterMap fun (_, m) => r.call? m)

namespace QueryEngine

variable (e : QueryEngine)

def requireFile (q : Query) (path : String) : Except Error Unit := do
  if ← q.read (e.reader.hasFile path) then return () else .error (notIndexed path)

def loadTree (q : Query) (path : String) : Except Error Node := do
  match ← q.read (e.reader.file path) with
  | none => .error (notIndexed path)
  | some file => return file.root

def symbols (path : String) : Except Error (List SymbolRecord) := do
  let q := Query.symbols path
  e.requireFile q path
  q.read (e.reader.symbolsInFile path)

def tree (path : String) : Except Error Node :=
  e.loadTree (.tree path) path

def nodes (path kind : String) : Except Error (List NodeMatch) := do
  let q := Query.nodes path kind
  q.nonempty "kind" kind
  let root ← e.loadTree q path
  return (root.ofKind kind).map fun (a, n) => ⟨a, n⟩

def nodeDetails (path id : String) : Except Error Node := do
  let root ← e.loadTree (.nodeDetails path id) path
  let (_, n) ← (root.atText id).mapError (·.inFile path)
  return n

/-- The nodes strictly above an address in a file, the root first. -/
def ancestors (path id : String) : Except Error (List NodeMatch) := do
  let root ← e.loadTree (.ancestors path id) path
  let (a, _) ← (root.atText id).mapError (·.inFile path)
  let above ← root.lookupAncestors a
  return above.map fun (a, n) => ⟨a, n⟩

def definition (name : String) : Except Error (List SymbolRecord) := do
  let q := Query.definition name
  q.nonempty "name" name
  q.read (e.reader.symbolsNamed name)

def references (name : String) : Except Error (List ReferenceRecord) := do
  let q := Query.references name
  q.nonempty "name" name
  q.read (e.reader.referencesNamed name)

/-- The narrowest callable around a line, with the references to its name and its own calls. -/
def callHierarchy (path : String) (line : UInt32) : Except Error CallHierarchy := do
  let q := Query.callHierarchy path line
  if line = 0 then .error { cause := .lineIsZero, operation := some q.text }
  e.requireFile q path
  let rows ← q.read (e.reader.symbolsInFile path)
  match narrowest? (rows.filter fun s => s.kind.isCallable && s.span.containsLine line) with
  | none => .error { cause := .noEnclosingCallable, file := some path, line := some line }
  | some symbol =>
    let inbound ← q.read (e.reader.referencesNamed symbol.name)
    let outbound ← symbol.subtree.elim (return []) e.rules.outboundCalls
    return ⟨symbol, inbound, outbound⟩

def files : Except Error (List String) :=
  Query.files.read e.reader.filePaths

def stats : Except Error StoreStats :=
  Query.stats.read e.reader.stats

end QueryEngine

end CodeIndex
