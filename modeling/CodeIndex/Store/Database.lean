import CodeIndex.Store.Cell
import CodeIndex.Store.Reader
import CodeIndex.Tree.Reader

/-! # Indexes in a database

Three tables of rows whose cells are numbers and texts: trees are kept as JSON texts, kinds as
words, and a path only in the row of its file. A row is turned into a record when it is read, and
the first cell that does not fit its field is reported.
-/

namespace CodeIndex

structure FileRow where
  id : Int
  path : String
  /-- The JSON text of the tree. -/
  root : String
deriving DecidableEq, Repr

structure SymbolRow where
  id : Int
  fileId : Int
  name : String
  kind : String
  scope : String
  start : NumberCell
  stop : NumberCell
  sourceText : Option String
  /-- The JSON text of the tree. -/
  subtree : Option String
deriving DecidableEq, Repr

structure ReferenceRow where
  id : Int
  fileId : Int
  symbolName : String
  start : NumberCell
  stop : NumberCell
deriving DecidableEq, Repr

/-- Tables in the order of their row numbers. -/
structure Database where
  files : List FileRow := []
  symbols : List SymbolRow := []
  references : List ReferenceRow := []
deriving DecidableEq, Repr

namespace Database

/-! ## Writing -/

def symbolRow (fileId id : Int) (s : ExtractedSymbol) : SymbolRow where
  id := id
  fileId := fileId
  name := s.name
  kind := s.kind.word
  scope := s.scope
  start := .number s.span.start.toNat
  stop := .number s.span.stop.toNat
  sourceText := s.sourceText
  subtree := s.subtree.map Node.compact

/-- Tables that are being filled, and how many rows have been written into each. -/
structure Filling where
  rows : Database := {}
  counts : StoreStats := {}

def insertSymbol (fileId : Int) (f : Filling) (s : ExtractedSymbol) : Filling where
  rows := { f.rows with
    symbols := f.rows.symbols ++ [symbolRow fileId (f.counts.symbols + 1) s] }
  counts := { f.counts with symbols := f.counts.symbols + 1 }

def referenceRow (fileId id : Int) (r : ExtractedReference) : ReferenceRow where
  id := id
  fileId := fileId
  symbolName := r.symbolName
  start := .number r.span.start.toNat
  stop := .number r.span.stop.toNat

def insertReference (fileId : Int) (f : Filling) (r : ExtractedReference) : Filling where
  rows := { f.rows with
    references := f.rows.references ++ [referenceRow fileId (f.counts.references + 1) r] }
  counts := { f.counts with references := f.counts.references + 1 }

/-- Inserts a file, then its symbols, then its references. -/
def insertFile (f : Filling) (file : FileExtraction) : Filling :=
  let id : Int := f.counts.files + 1
  let f : Filling := {
    rows := { f.rows with files := f.rows.files ++ [⟨id, file.path, file.root.compact⟩] }
    counts := { f.counts with files := f.counts.files + 1 } }
  file.references.foldl (insertReference id) (file.symbols.foldl (insertSymbol id) f)

def fill (files : List FileExtraction) : Filling :=
  files.foldl insertFile {}

/-! ## Reading -/

def faulty (fault : StoreFault) : Except Error α :=
  .error { cause := .store fault }

/-- A line number from column `column` of a query, whose name is `name`. -/
def readLine (column : Nat) (name : String) : NumberCell → Except Error UInt32
  | .number n =>
    if 0 ≤ n ∧ n < UInt32.size then .ok (UInt32.ofNat n.toNat) else faulty (.outOfRange column n)
  | .misfit type => faulty (.wrongType column name type)

/-- A tree, if there is one, from column `column` of a query. -/
def readTree (column : Nat) : Option String → Except Error (Option Node)
  | none => .ok none
  | some text =>
    match Node.read (Text.octets text) with
    | .ok n => .ok (some n)
    | .error problem => faulty (.badTree column problem)

/-- The columns of a symbol are its number, its file's number and path, its name, kind, scope,
first and last line, text and tree. -/
def readSymbol (path : String) (row : SymbolRow) : Except Error SymbolRecord := do
  match SymbolKind.ofWord? row.kind with
  | none => faulty (.unknownKind 4 row.kind)
  | some kind =>
    let start ← readLine 6 "start_line" row.start
    let stop ← readLine 7 "end_line" row.stop
    return {
      id := row.id, fileId := row.fileId, path, name := row.name, kind, scope := row.scope
      span := ⟨start, stop⟩, sourceText := row.sourceText
      subtree := ← readTree 9 row.subtree }

/-- The columns of a reference are its number, its file's number and path, the name, and the first
and last line. -/
def readReference (path : String) (row : ReferenceRow) : Except Error ReferenceRecord := do
  let start ← readLine 4 "start_line" row.start
  let stop ← readLine 5 "end_line" row.stop
  return { id := row.id, fileId := row.fileId, path, symbolName := row.symbolName
           span := ⟨start, stop⟩ }

def pathOf? (d : Database) (id : Int) : Option String :=
  (d.files.find? (·.id == id)).map (·.path)

/-- The symbols of known files together with the paths of those files. -/
def locatedSymbols (d : Database) : List (String × SymbolRow) :=
  d.symbols.filterMap fun row => (d.pathOf? row.fileId).map (·, row)

def locatedReferences (d : Database) : List (String × ReferenceRow) :=
  d.references.filterMap fun row => (d.pathOf? row.fileId).map (·, row)

def symbolsWhere (d : Database) (wanted : String → SymbolRow → Bool) :
    Except Error (List SymbolRecord) :=
  (d.locatedSymbols.filter fun (path, row) => wanted path row).mapM fun (path, row) =>
    readSymbol path row

def file (d : Database) (path : String) : Except Error (Option IndexedFile) :=
  match d.files.find? (·.path == path) with
  | none => .ok none
  | some row =>
    match Node.read (Text.octets row.root) with
    | .ok root => .ok (some ⟨row.id, row.path, root⟩)
    | .error problem => .error { cause := .storedTree problem }

def stats (d : Database) : StoreStats :=
  ⟨d.files.length, d.symbols.length, d.references.length⟩

def reader (d : Database) : IndexReader where
  file := d.file
  hasFile path := .ok (d.files.any (·.path == path))
  filePaths := .ok (d.files.map (·.path))
  symbolsInFile path := d.symbolsWhere fun p _ => p == path
  symbolsNamed name := d.symbolsWhere fun _ row => row.name == name
  referencesNamed name :=
    (d.locatedReferences.filter fun (_, row) => row.symbolName == name).mapM fun (path, row) =>
      readReference path row
  stats := .ok d.stats

instance : IndexStore Database where
  reader := reader
  rebuild _ files := do
    checkDistinctPaths files
    let filled := fill files
    return (filled.rows, filled.counts)

/-! ## Changing single cells -/

def FileRow.set? (row : FileRow) (column : String) (cell : Cell) : Option FileRow :=
  match column with
  | "id" => cell.number?.map fun id => { row with id }
  | "file_path" => cell.text?.map fun path => { row with path }
  | "root_tree" => cell.text?.map fun root => { row with root }
  | _ => none

def SymbolRow.set? (row : SymbolRow) (column : String) (cell : Cell) : Option SymbolRow :=
  match column with
  | "id" => cell.number?.map fun id => { row with id }
  | "file_id" => cell.number?.map fun fileId => { row with fileId }
  | "name" => cell.text?.map fun name => { row with name }
  | "kind" => cell.text?.map fun kind => { row with kind }
  | "scope" => cell.text?.map fun scope => { row with scope }
  | "start_line" => cell.numberCell?.map fun start => { row with start }
  | "end_line" => cell.numberCell?.map fun stop => { row with stop }
  | "source_text" => cell.nullable?.map fun sourceText => { row with sourceText }
  | "subtree" => cell.nullable?.map fun subtree => { row with subtree }
  | _ => none

def ReferenceRow.set? (row : ReferenceRow) (column : String) (cell : Cell) : Option ReferenceRow :=
  match column with
  | "id" => cell.number?.map fun id => { row with id }
  | "file_id" => cell.number?.map fun fileId => { row with fileId }
  | "symbol_name" => cell.text?.map fun symbolName => { row with symbolName }
  | "start_line" => cell.numberCell?.map fun start => { row with start }
  | "end_line" => cell.numberCell?.map fun stop => { row with stop }
  | _ => none

/-- Changes the rows with number `id` and counts them, keeping the order of numbers; `none` when a
change is refused. -/
def setRows? (rows : List ρ) (number : ρ → Int) (id : Int) (set? : ρ → Option ρ) :
    Option (List ρ × Nat) := do
  let rows' ← rows.mapM fun row => if number row = id then set? row else some row
  return (rows'.mergeSort fun a b => number a ≤ number b, (rows.filter (number · = id)).length)

/-- Sets the cell in column `column` of row `id` of a table, and counts the rows changed. -/
def setCell? (d : Database) (table column : String) (id : Int) (cell : Cell) :
    Option (Database × Nat) :=
  match table with
  | "files" => do
    let (files, n) ← setRows? d.files (·.id) id (FileRow.set? · column cell)
    return ({ d with files }, n)
  | "symbols" => do
    let (symbols, n) ← setRows? d.symbols (·.id) id (SymbolRow.set? · column cell)
    return ({ d with symbols }, n)
  | "references" => do
    let (references, n) ← setRows? d.references (·.id) id (ReferenceRow.set? · column cell)
    return ({ d with references }, n)
  | _ => none

end Database

end CodeIndex
