import CodeIndex.Disk.Initial
import CodeIndex.Shell.Builtin.Output
import CodeIndex.Shell.CommandReader

/-! # Finding commands

The name of a command stands for a function, for a command of the shell itself, or for a program in
one of the folders that are searched; a name with a slash is the path of a program.
-/

namespace CodeIndex.Shell

def builtinNames : List String :=
  [".", ":", "[", "alias", "bg", "break", "cd", "chdir", "command", "continue", "echo", "eval",
    "exec", "exit", "export", "false", "fg", "getopts", "hash", "jobs", "kill", "local", "printf",
    "pwd", "read", "readonly", "return", "set", "shift", "test", "times", "trap", "true", "type",
    "ulimit", "umask", "unalias", "unset", "wait"]

/-- What the name of a command stands for. -/
inductive Callee where
  | function (body : Command)
  | builtin (name : String)
  | program

namespace Action

/-- Finds out what a name stands for, functions aside where they are not wanted. -/
def calleeOf (withFunctions : Bool) (name : String) : Action Callee := do
  if name.toList.contains '/' then return .program
  let p ← process
  match if withFunctions then p.functions.lookup name else none with
  | some body => return .function body
  | none => return if builtinNames.contains name then .builtin name else .program

def programAt (path : String) : Action (Except Fault Program) := do
  let m ← get
  match Text.unpacked? path with
  | none => return .error .notFound
  | some path =>
    match m.world.disk.locate m.process.cwd path with
    | .ok (_, .program p) => return .ok p
    | .ok _ => return .error .denied
    | .error fault => return .error fault

/-- The first of some paths under which there is a program; the fault is that of the last path with
one worth telling. -/
def firstProgram (fault : Fault) : List String → Action (Except Fault (String × Program))
  | [] => return .error fault
  | path :: rest => do
    match ← programAt path with
    | .ok p => return .ok (path, p)
    | .error new =>
      firstProgram (if new = .notFound ∨ new = .notDirectory then fault else new) rest

/-- The program that a name stands for, in the folders with the given paths. -/
def findProgram (folders name : String) : Action (Except Fault (String × Program)) := do
  if name.toList.contains '/' then return (← programAt name).map (name, ·)
  else firstProgram .notFound ((Builtin.candidates folders name).map (·.1))

/-- Why a program cannot be run, in the words of the shell. -/
def runFault (name : String) (fault : Fault) : String :=
  name ++ ": " ++
    if fault = .notFound ∨ fault = .notDirectory then "not found" else fault.reason

def runFaultStatus : Fault → Nat
  | .notFound | .notDirectory | .nameTooLong | .tooManyLinks => 127
  | _ => 126

def rememberProgram (name path : String) : Action Unit := do
  unless name.toList.contains '/' do
    modifyProcess fun p =>
      { p with found := (name, path) :: p.found.filter (·.1 != name) }

/-- Tells what a name stands for, in words or as it could be typed. -/
def describe (inWords : Bool) (folders : Option String) (name : String) : Action Nat := do
  let p ← process
  let tell (words text : String) : Action Nat := do
    emit ((if inWords then name ++ words else text) ++ "\n")
    return 0
  if reservedWords.contains name then tell " is a shell keyword" name
  else
    match p.aliases.lookup name with
    | some value =>
      tell (" is an alias for " ++ value) ("alias " ++ name ++ "=" ++ singleQuoted value)
    | none =>
      match ← calleeOf true name with
      | .function _ => tell " is a shell function" name
      | .builtin _ =>
        let kind := if specialCommands.contains name then "special " else ""
        tell (" is a " ++ kind ++ "shell builtin") name
      | .program =>
        let m ← get
        let isThere : Bool := (Text.unpacked? name).any fun path =>
          (m.world.disk.locate m.process.cwd path).toOption.isSome
        let tracked := if folders.isNone then p.found.lookup name else none
        if name.toList.contains '/' && isThere then tell (" is " ++ name) name
        else if let some path := tracked then tell (" is a tracked alias for " ++ path) path
        else match ← findProgram (folders.getD (← valueOf "PATH")) name with
          | .ok (path, _) =>
            if folders.isNone then rememberProgram name path
            tell (" is " ++ path) path
          | .error _ =>
            if inWords then emit (name ++ ": not found\n")
            return 127

end Action

namespace Builtin

open Shell.Action

def type (args : List String) : Action Nat :=
  args.foldlM (fun status name => do return status ||| (← describe true none name)) 0

/-- Tells what a name stands for, where the options ask for that. -/
def command (args : List String) : Action Nat := do
  let (options, names) ← options { plain := "pvV" } args
  let letters := options.map (·.1)
  let folders := if letters.contains 'p' then some Disk.programFolders else none
  match names with
  | name :: _ =>
    if letters.contains 'V' then describe true folders name
    else if letters.contains 'v' then describe false folders name
    else return 0
  | [] => return 0

/-- Shows, forgets or looks for the paths of programs. -/
def hash (args : List String) : Action Nat := do
  let (options, names) ← options { plain := "r" } args
  unless options.isEmpty do
    modifyProcess ({ · with found := [] })
    return 0
  if names.isEmpty then
    for (_, path) in (← process).found do emit (path ++ "\n")
  let mut status := 0
  for name in names do
    match ← calleeOf true name with
    | .program =>
      match ← findProgram (← valueOf "PATH") name with
      | .ok (path, _) => rememberProgram name path
      | .error fault =>
        complain (runFault name fault)
        status := 1
    | _ => pure ()
  return status

end Builtin

end CodeIndex.Shell
