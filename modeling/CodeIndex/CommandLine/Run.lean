import CodeIndex.Build.Basic
import CodeIndex.CommandLine.Arguments
import CodeIndex.Disk.StoredIndex
import CodeIndex.Query.Methods
import CodeIndex.Shell.Program

/-! # The command line

A build replaces the content of a database by the index of a repository, a query asks it, and the
methods of queries can be listed. Answers are printed as indented JSON. A failure that has no
answer prints nothing and shows only in the status.
-/

namespace CodeIndex.CommandLine

/-- What the command line prints, and its status. -/
structure Reply where
  status : Nat
  output : String := ""
deriving DecidableEq, Repr

namespace Reply

def failed : Reply := ⟨1, ""⟩

def ofJson (status : Nat) (v : Json.Value) : Reply :=
  ⟨status, v.indented ++ "\n"⟩

def ofRefusal : Refusal → Reply
  | .helpWanted => ⟨0, ""⟩
  | .misused => ⟨2, ""⟩

end Reply

/-- The programs that the command line finds on its disk. -/
instance : Programs := ⟨Shell.runProgram⟩

def loadSettings (d : Disk) (cwd : Location) : Option String → Except SettingsProblem Settings
  | none => .ok {}
  | some path =>
    match d.readText cwd path with
    | .ok text => Settings.ofYaml text
    | .error fault => .error (.unreadable fault)

def build (d : Disk) (cwd : Location) (settings : Settings) (database repository : String) :
    Disk × Reply :=
  match settings.accepted, StoredIndex.ofAddress d cwd database with
  | .ok settings, .ok index =>
    match (settings.build cwd repository index.opened.rows).run index.disk with
    | (.ok (rows, report), d) =>
      match { index with disk := d }.save rows with
      | .ok index => (index.disk, .ofJson 0 report.toJson)
      | .error _ => (d, .failed)
    | (.error _, d) => (d, .failed)
  | _, _ => (d, .failed)

/-- How deep the parameters of a query may be nested. -/
def maxDepth : Nat := 127

def readParams (text : String) : Option Json.Value :=
  match Json.Value.read (Text.octets text) with
  | .ok v => if v.depth ≤ maxDepth then some v else none
  | .error _ => none

def query (d : Disk) (cwd : Location) (settings : Settings) (database method params : String) :
    Disk × Reply :=
  match readParams params with
  | none => (d, .failed)
  | some params =>
    match StoredIndex.ofAddress d cwd database with
    | .error _ => (d, .failed)
    | .ok index =>
      let engine : QueryEngine := ⟨IndexStore.reader index, settings.language⟩
      match MethodRegistry.builtIn.dispatch engine method params with
      | .ok v => (index.disk, .ofJson 0 v)
      | .error e => (index.disk, .ofJson 1 e.response)

def perform (d : Disk) (cwd : Location) (i : Invocation) : Disk × Reply :=
  match loadSettings d cwd i.settings with
  | .error _ => (d, .failed)
  | .ok settings =>
    match i.request with
    | .build repository => build d cwd settings i.database repository
    | .query method params => query d cwd settings i.database method params
    | .methods => (d, .ofJson 0 MethodRegistry.builtIn.describe)

/-- Runs the command line with arguments in the folder `cwd`. -/
def run (d : Disk) (cwd : Location) (args : List String) : Disk × Reply :=
  match Invocation.ofArguments args with
  | .ok i => perform d cwd i
  | .error refusal => (d, .ofRefusal refusal)

end CodeIndex.CommandLine
