import CodeIndex.Shell.Builtin.Variables
import CodeIndex.Shell.Start

/-! # Simple commands

The words of a simple command become fields, of which the first names what is called; the command
that calls another one is seen through. Redirections and assignments hold for the command alone,
unless it is a special one or there is none.
-/

namespace CodeIndex.Shell

/-- How far the fields of a simple command have been read. -/
inductive Stage where
  /-- The next field is the name of a command. -/
  | name
  /-- The command that calls another one has been named, and its options are next. -/
  | options
  /-- The callee is known. -/
  | settled
deriving DecidableEq, Repr

/-- What a simple command calls. -/
structure Call where
  callee : Option Callee := none
  /-- The fields from the name of the callee on, last one first. -/
  fields : List String := []
  /-- All fields, last one first. -/
  shown : List String := []
  stage : Stage := .name
  /-- Functions are not called. -/
  skipsFunctions : Bool := false
  /-- Programs are looked for in the usual folders. -/
  usesFolders : Bool := false
  /-- Whether the command of the shell that was named first is a special one. -/
  isSpecial : Option Bool := none

namespace Call

/-- Whether the call is one of the command of the shell with a name. -/
def isBuiltin (c : Call) (names : List String) : Bool :=
  c.callee.any fun
    | .builtin name => names.contains name
    | _ => false

/-- Whether assignments in front of the call end with it. -/
def hasScope (c : Call) : Bool :=
  c.callee.isSome && c.isSpecial != some true

/-- Whether words that assign are expanded as assignments. -/
def takesAssignments (c : Call) : Bool :=
  c.stage = .settled && c.isBuiltin ["alias", "export", "local", "readonly"]

def name (c : Call) : String :=
  c.fields.getLast?.getD ""

def args (c : Call) : List String :=
  c.fields.reverse.drop 1

end Call

namespace Action

/-! ## The callee -/

def withName (c : Call) (field : String) : Action Call := do
  let callee ← calleeOf (!c.skipsFunctions) field
  let isSpecial := match callee with
    | .builtin name => c.isSpecial <|> some (specialCommands.contains name)
    | _ => c.isSpecial
  let c := { c with callee := some callee, fields := [field], isSpecial }
  return { c with stage := if c.isBuiltin ["command"] then .options else .settled }

def withField (c : Call) (field : String) : Action Call := do
  let c := { c with shown := field :: c.shown }
  let added := { c with fields := field :: c.fields }
  match c.stage with
  | .settled => return added
  | .name => withName c field
  | .options =>
    match field.toList with
    | ['-', '-'] => return { added with stage := .name, skipsFunctions := true }
    | '-' :: o :: os =>
      if (o :: os).all (· = 'p') then return { added with usesFolders := true }
      else return { added with stage := .settled }
    | _ => withName { c with skipsFunctions := true } field

def callOf (run : Runner) (words : List Word) : Action Call :=
  words.foldlM (fun c w => do
    if c.takesAssignments && w.assignedName?.isSome then
      withField c (← textOfWord (substitution run) w { assigns := true })
    else (← fieldsOf (substitution run) w).foldlM withField c) {}

/-! ## Commands that run others -/

/-- The path of a file that is to be run as a script. -/
def scriptPath (name : String) : Action String := do
  if name.toList.contains '/' then return name
  let m ← get
  let isFile (path : String) : Bool :=
    (Text.unpacked? path).any fun path =>
      match m.world.disk.locate m.process.cwd path with
      | .ok (_, .file _) | .ok (_, .database _) | .ok (_, .program _) => true
      | _ => false
  let paths := (Builtin.candidates (← valueOf "PATH") name).map (·.1)
  match paths.find? isFile with
  | some path => return path
  | none => fault (name ++ ": not found")

/-- Runs the script in a file in the running shell. -/
def source (run : Runner) (args : List String) : Action Nat := do
  match ← withoutOptions args with
  | [] => return 0
  | name :: _ =>
    let path ← scriptPath name
    match ← withFile path scriptContent with
    | .error reason => fault ("cannot open " ++ path ++ ": " ++ reasonFor .reading reason)
    | .ok content =>
      modifyProcess ({ · with command := some path })
      runContent run content

def exec (run : Runner) (args : List String) : Action Nat := do
  match args with
  | [] => return 0
  | name :: args =>
    match ← findProgram (← valueOf "PATH") name with
    | .ok (_, p) => throw (.gone (← become run p name args))
    | .error fault =>
      complain (runFault name fault)
      setStatus (runFaultStatus fault)
      throw .finish

def builtin (run : Runner) (p : Place) (name : String) (args : List String) : Action Nat :=
  match name with
  | "." => source run args
  | ":" | "true" => return 0
  | "false" => return 1
  | "[" | "test" => Builtin.test name args
  | "alias" => Builtin.aliasNames args
  | "bg" | "fg" => Builtin.resume args
  | "break" => Builtin.leaveLoop .break args
  | "cd" | "chdir" => Builtin.changeFolder args
  | "command" => Builtin.command args
  | "continue" => Builtin.leaveLoop .continue args
  | "echo" => Builtin.echo args
  | "eval" =>
    if args.isEmpty then return 0
    else runText run { tested := p.tested } (" ".intercalate args)
  | "exec" => do exec run (← withoutOptions args)
  | "exit" => Builtin.exitShell args
  | "export" => Builtin.exportVariables args
  | "getopts" => Builtin.getopts args
  | "hash" => Builtin.hash args
  | "jobs" => Builtin.jobs args
  | "kill" => Builtin.kill args
  | "local" => Builtin.makeLocal args
  | "printf" => Builtin.printf args
  | "pwd" => Builtin.workingFolder args
  | "read" => Builtin.read args
  | "readonly" => Builtin.fixVariables args
  | "return" => Builtin.returnFrom args
  | "set" => Builtin.set args
  | "shift" => Builtin.shift args
  | "times" => Builtin.times
  | "trap" => Builtin.trap args
  | "type" => Builtin.type args
  | "ulimit" => Builtin.limit args
  | "umask" => Builtin.mask args
  | "unalias" => Builtin.unaliasNames args
  | "unset" => Builtin.unset args
  | "wait" => Builtin.wait args
  | _ => return 127

/-! ## Calling -/

/-- Runs a command of the shell itself and writes its output. The faults of a special one end the
script. -/
def callBuiltin (run : Runner) (p : Place) (c : Call) (name : String) : Action Nat := do
  let outer := (← process).command
  modifyProcess ({ · with command := some c.name })
  let result ← attempt do
    let status ← builtin run p name c.args
    let status ← do
      if ← flush then pure status
      else
        complain (c.name ++ ": I/O error")
        pure (status ||| 1)
    setStatus status
    return status
  modifyProcess ({ · with command := outer, buffer := [] })
  match result with
  | .ok status => return status
  | .error .fault =>
    if c.isSpecial = some true then throw .fault
    return (← process).status
  | .error i => throw i

/-- How many functions may run inside of each other. -/
def maxFunctionDepth : Nat := 1000

/-- Runs a function, which has arguments of its own and leaves no loop around it. -/
def callFunction (run : Runner) (p : Place) (c : Call) (body : Command) : Action Nat := do
  let outer ← process
  if maxFunctionDepth ≤ outer.functionDepth then
    fault ("Maximum function recursion depth (" ++ toString maxFunctionDepth ++ ") reached")
  modifyProcess fun p =>
    { p with args := c.args, place := {}, loops := 0, functionDepth := p.functionDepth + 1 }
  let restore : Action Unit := modifyProcess fun inner =>
    { inner with
      args := outer.args, place := outer.place, loops := outer.loops
      functionDepth := outer.functionDepth
      skip := if inner.skip matches some (.return _) then none else inner.skip }
  let _ ← always restore (run { tested := p.tested } body)
  return (← process).status

/-- Runs a program in a process of its own, unless nothing follows it. -/
def callProgram (run : Runner) (p : Place) (c : Call) : Action Nat := do
  let folders ← if c.usesFolders then pure Disk.programFolders else valueOf "PATH"
  match ← findProgram folders c.name with
  | .ok (path, program) =>
    rememberProgram c.name path
    let become : Action Unit := do throw (.gone (← become run program c.name c.args))
    if p.last && !(← process).traps.any (!·.2.isEmpty) then
      become
      return 0
    else awaited run become
  | .error fault =>
    complain (runFault c.name fault)
    let isPath := c.name.toList.contains '/'
    let status := if isPath then runFaultStatus fault else 127
    setStatus status
    if isPath && p.last then throw .finish
    if !isPath && c.isSpecial = some true then throw .fault
    return status

def perform (run : Runner) (p : Place) (c : Call) : Action Nat := do
  match c.callee with
  | none =>
    let status := (← process).outputStatus
    setStatus status
    return status
  | some (.builtin name) => callBuiltin run p c name
  | some (.function body) => callFunction run p c body
  | some .program => callProgram run p c

/-- Carries out the assignments of a simple command, and gives their texts. -/
def assignAll (run : Runner) (c : Call) (assignments : List Word) : Action (List String) :=
  assignments.mapM fun w => do
    let text ← textOfWord (substitution run) w { assigns := true }
    if c.hasScope then makeLocal (splitAssignment text).1
    assignText text (c.hasScope || (c.isBuiltin ["exec"] && !c.args.isEmpty))
    return text

/-- Shows a simple command where messages went before its redirections. -/
def trace (messages : Option Nat) (texts : List String) : Action Unit := do
  match messages with
  | none => return ()
  | some file =>
    let line := (← valueOf "PS4") ++ " ".intercalate texts ++ "\n"
    withDescriptor file fun d => do
      let _ ← write d (Text.unpack line)

def simple (run : Runner) (p : Place) (line : Nat) (assignments words : List Word)
    (rs : List Redirection) : Action Nat := do
  modifyProcess ({ · with line, outputStatus := 0 })
  let c ← callOf run words
  let outer ← process
  if c.hasScope then enterScope
  let turns ← turnsOf run rs
  let before ← connections turns
  let status ← do
    let result ← attempt do
      let status ← turnAll turns
      if status ≠ 0 then
        setStatus status
        if c.isSpecial = some true then throw .fault
        return status
      let texts ← assignAll run c assignments
      if ← hasOption 'x' then trace (outer.descriptors.lookup 2) (texts ++ c.shown.reverse)
      perform run p c
    match result with
    | .ok status =>
      unless c.isBuiltin ["exec"] do reconnect before
      pure status
    | .error i =>
      reconnect before
      throw i
  leaveScopes outer.locals.length
  return status

end Action

end CodeIndex.Shell
