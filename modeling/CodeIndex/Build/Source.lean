import CodeIndex.Disk.Programs
import CodeIndex.Extraction.Record
import CodeIndex.Settings.Basic
import CodeIndex.Text.Blank
import CodeIndex.Tree.Dump

/-! # Sources of trees

A source gives the parsed file of a path in a repository: its tree, which some other program has
made, and its text, if that can be read. A program that is run for a tree may change the disk, and
any programs will do.
-/

namespace CodeIndex

/-- What gives the parsed file of a path below a repository. -/
abbrev TreeSource := String → StateM Disk (Except Error ParsedFile)

namespace TreeSource

def parsedFile (d : Disk) (cwd : Location) (repository path : String) (dump : Text.Octets) :
    Except Error ParsedFile := do
  let root ← Node.ofDump path dump
  return ⟨path, root, (d.readText cwd (Path.join repository path)).toOption⟩

def sidecar (cwd : Location) (repository suffix : String) : TreeSource := fun path => do
  let d ← get
  let dump := Path.join repository path ++ "." ++ suffix
  match d.read cwd dump with
  | .error fault => return .error { cause := .noTreeDump dump fault, file := some path }
  | .ok content => return parsedFile d cwd repository path content

/-- What stands for the path of a file in the arguments of a parser. -/
def placeholder : String := "\x7bpath\x7d"

def parser [Programs] (d : Disk) (cwd : Location) (repository program : String)
    (args : List String) (path : String) : Except Fault (Outcome × Disk) := do
  let args := args.map (·.replace placeholder (Path.join repository path))
  if repository.toList.contains '\x00' then throw .nulInArgument
  let (folder, _) ← d.list cwd repository
  Programs.run d folder program args

def command [Programs] (cwd : Location) (repository program : String) (args : List String) :
    TreeSource :=
  fun path => do
    match parser (← get) cwd repository program args path with
    | .error fault => return .error { cause := .parserNotRun program fault, file := some path }
    | .ok (outcome, d) =>
      set d
      if outcome.ending.isSuccess then return parsedFile d cwd repository path outcome.output
      else
        let errors := Text.trim (Text.repaired outcome.errors)
        return .error { cause := .parserFailed outcome.ending.text errors, file := some path }

end TreeSource

/-- The source that settings describe, for a repository. A command has to name a program. -/
def TreeSourceSettings.build [Programs] (s : TreeSourceSettings) (cwd : Location)
    (repository : String) : Except Error TreeSource :=
  match s with
  | .sidecar suffix => .ok (.sidecar cwd repository suffix)
  | .command [] => .error { cause := .emptyCommand }
  | .command (program :: args) => .ok (.command cwd repository program args)

/-- The source that settings describe, or one that has no file where there is none. -/
def TreeSourceSettings.source [Programs] (s : TreeSourceSettings) (cwd : Location)
    (repository : String) : TreeSource :=
  match s.build cwd repository with
  | .ok source => source
  | .error e => fun _ => return .error e

end CodeIndex
