import CodeIndex.Disk.Fault
import CodeIndex.Json.Value
import CodeIndex.Settings.Problem
import CodeIndex.Store.Fault
import CodeIndex.Tree.Address

/-! # Errors

An error has a cause, which fixes its kind and its message, and may say in which file, at which
line and during which operation it arose. Misses and mistakes of the caller are expected; the
other kinds are failures of the index itself.
-/

namespace CodeIndex

inductive ErrorKind where
  | parse
  | notFound
  | invalidArgument
  | storage
  | config
  | io
  | internal
deriving DecidableEq, Repr

def ErrorKind.code : ErrorKind → String
  | .parse => "parse"
  | .notFound => "not_found"
  | .invalidArgument => "invalid_argument"
  | .storage => "storage"
  | .config => "config"
  | .io => "io"
  | .internal => "internal"

mutual

inductive Cause where
  -- Trees
  | invalidTree (problem : Json.Problem)
  | rootIsLiteral
  | noNode (address : Address)
  | malformedAddress (text : String) (flaw : Address.Flaw)
  -- Sources of trees
  | noTreeDump (path : String) (fault : Fault)
  | parserNotRun (program : String) (fault : Fault)
  | parserFailed (status stderr : String)
  | emptyCommand
  -- Queries
  | fileNotIndexed
  | noEnclosingCallable
  | emptyArgument (name : String)
  | lineIsZero
  /-- A failure of the index while it is read. -/
  | readFailed (error : Error)
  -- Requests
  | paramsNotObject (type : String)
  | missingParameter (name : String)
  | notAString (name type : String)
  | notALine (name : String) (value : Json.Value)
  | unknownMethod (name : String)
  | methodTaken (name : String)
  -- The index
  | duplicatePath
  | storedTree (problem : Json.Problem)
  | store (fault : StoreFault)
  | lockPoisoned
  -- Everything else
  | unreadableRoot (fault : Fault)
  | walk (message : String)
  | settings (problem : SettingsProblem)
  | io (message : String)
  /-- An error from outside, with what caused it. -/
  | other (kind : ErrorKind) (message : String) (source : Option Error)

structure Error where
  cause : Cause
  file : Option String := none
  line : Option UInt32 := none
  operation : Option String := none

end

namespace Cause

def kind : Cause → ErrorKind
  | .invalidTree _ | .rootIsLiteral | .noTreeDump .. | .parserNotRun .. | .parserFailed .. => .parse
  | .noNode _ | .malformedAddress .. | .fileNotIndexed | .noEnclosingCallable => .notFound
  | .emptyArgument _ | .lineIsZero | .paramsNotObject _ | .missingParameter _ | .notAString ..
  | .notALine .. | .unknownMethod _ | .methodTaken _ => .invalidArgument
  | .duplicatePath | .storedTree _ | .store _ => .storage
  | .emptyCommand | .settings _ => .config
  | .unreadableRoot _ | .walk _ | .io _ => .io
  | .readFailed _ | .lockPoisoned => .internal
  | .other kind .. => kind

end Cause

mutual

def Cause.message : Cause → String
  | .invalidTree problem => "Invalid tree JSON: " ++ problem.message
  | .rootIsLiteral => "Tree root is not a node"
  | .noNode address => "No node at " ++ address.text
  | .malformedAddress text flaw => Address.malformedText text flaw
  | .noTreeDump path fault => "No tree dump at " ++ path ++ ": " ++ fault.message
  | .parserNotRun program fault => "Failed to run parser '" ++ program ++ "': " ++ fault.message
  | .parserFailed status stderr => "Parser exited with " ++ status ++ ": " ++ stderr
  | .emptyCommand => "Parser command is empty"
  | .fileNotIndexed => "File is not indexed"
  | .noEnclosingCallable => "No callable encloses this line"
  | .emptyArgument name => "'" ++ name ++ "' must not be empty"
  | .lineIsZero => "'line' is 1-based"
  | .readFailed error => "Index read failed: " ++ error.message
  | .paramsNotObject type => "params must be an object, got " ++ type
  | .missingParameter name => "missing required parameter '" ++ name ++ "'"
  | .notAString name type => "'" ++ name ++ "' must be a string, got " ++ type
  | .notALine name value => "'" ++ name ++ "' must be a positive integer, got " ++ value.compact
  | .unknownMethod name => "Unknown method '" ++ name ++ "'"
  | .methodTaken name => "Method '" ++ name ++ "' is already registered"
  | .duplicatePath => "Duplicate file path in build"
  | .storedTree problem => "JSON serialization error: " ++ problem.message
  | .store fault => "SQLite error: " ++ fault.message
  | .lockPoisoned => "Index store lock poisoned"
  | .unreadableRoot fault => "Cannot read repository root: " ++ fault.message
  | .walk message => "Walk error: " ++ message
  | .settings problem => problem.message
  | .io message => "IO error: " ++ message
  | .other _ message _ => message

def Error.message : Error → String
  | ⟨cause, _, _, _⟩ => cause.message

end

namespace Error

def kind (e : Error) : ErrorKind := e.cause.kind

def isNotFound (e : Error) : Bool := e.kind == .notFound

/-- Whether the error is a miss or a mistake of the caller. -/
def isExpected (e : Error) : Bool :=
  e.kind == .notFound || e.kind == .invalidArgument

def inFile (e : Error) (file : String) : Error := { e with file := some file }

/-- The error in one line. A line is shown only behind a file. -/
def display (e : Error) : String :=
  let place := match e.file, e.line with
    | none, _ => ""
    | some file, none => " in " ++ file
    | some file, some line => " in " ++ file ++ ":" ++ toString line.toNat
  let operation := match e.operation with
    | none => ""
    | some operation => " during " ++ operation
  "[" ++ e.kind.code ++ "] " ++ e.message ++ place ++ operation

/-- The line for what caused the error, if that is known. -/
def sourceDisplay? (e : Error) : Option String :=
  match e.cause with
  | .invalidTree problem | .storedTree problem => some problem.message
  | .noTreeDump _ fault | .parserNotRun _ fault | .unreadableRoot fault => some fault.message
  | .readFailed error => some error.display
  | .store fault => some fault.message
  | .settings problem => some problem.message
  | .io message => some message
  | .other _ _ source => source.map display
  | _ => none

/-- The problem of a JSON text that directly caused the error. -/
def jsonProblem? (e : Error) : Option Json.Problem :=
  match e.cause with
  | .invalidTree problem | .storedTree problem => some problem
  | _ => none

/-- The fields of an error in an answer, behind its kind and its message. -/
def contextJson (e : Error) : List (String × Json.Value) :=
  (e.file.toList.map fun file => ("file_path", .string file))
    ++ (e.line.toList.map fun line => ("line", .nat line.toNat))
    ++ e.operation.toList.map fun operation => ("operation", .string operation)

def response (e : Error) : Json.Value :=
  .object [("error", .object
    (("code", .string e.kind.code) :: ("message", .string e.message) :: e.contextJson))]

end Error

end CodeIndex
