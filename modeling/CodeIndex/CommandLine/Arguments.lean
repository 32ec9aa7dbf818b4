import CodeIndex.Text.Segments

/-! # Arguments of the command line

A command stands between options that take one value each. A value stands in the argument of its
option, behind an equals sign or directly behind the letter, or in the next argument, which then
may not look like an option. Two options go with every command; given at both places, the one
behind the command counts. No option is given twice at one place, and a path is never empty.
-/

namespace CodeIndex.CommandLine

/-- An option, which takes a value. -/
structure Flag where
  name : String
  letter : Option Char := none
  /-- Whether the value is a path. -/
  isPath : Bool := false

inductive Request where
  | build (repository : String)
  | query (method params : String)
  | methods
deriving DecidableEq, Repr

/-- What the arguments ask for. -/
structure Invocation where
  /-- The path of the database. -/
  database : String := ".treeindex.db"
  /-- The path of the settings. -/
  settings : Option String := none
  request : Request
deriving DecidableEq, Repr

/-- Why arguments are no invocation. -/
inductive Refusal where
  | helpWanted
  | misused
deriving DecidableEq, Repr

/-- The options of one place and the arguments that belong to none. -/
structure Given where
  values : List (String × String) := []
  positional : List String := []
  /-- The command and its arguments, where one has been met. -/
  command : Option (String × List String) := none

/-- A place for options. -/
structure Place where
  flags : List Flag
  /-- The commands that end the place. -/
  commands : List String := []
  /-- How many arguments may belong to no option. -/
  room : Nat := 0

namespace Place

def repeats (names : List String) : Bool :=
  match names with
  | [] => false
  | name :: rest => rest.contains name || repeats rest

/-- Whether no option is given twice and no path is empty. -/
def isSound (p : Place) (g : Given) : Bool :=
  !repeats (g.values.map (·.1)) &&
    g.values.all fun (name, value) =>
      !value.isEmpty || !p.flags.any fun f => f.name == name && f.isPath

def checked (p : Place) (g : Given) : Except Refusal Given :=
  if p.isSound g then .ok g else .error .misused

def isOption (arg : String) : Bool :=
  match arg.toList with
  | '-' :: _ :: _ => true
  | _ => false

def addPositional (p : Place) (g : Given) (args : List String) : Except Refusal Given := do
  let g ← p.checked g
  let positional := g.positional ++ args
  if p.room < positional.length then throw .misused
  return { g with positional }

/-- An option with the value in the same argument, if there is one. -/
inductive Named where
  | help
  | option (flag : Flag) (value : Option String)

def named (p : Place) (arg : String) : Except Refusal Named :=
  match arg.toList with
  | '-' :: '-' :: cs =>
    let (name, rest) := cs.span (· ≠ '=')
    let value := match rest with
      | [] => none
      | _ :: value => some (String.ofList value)
    match p.flags.find? (·.name.toList == name) with
    | some flag => .ok (.option flag value)
    | none => if name = "help".toList && value.isNone then .ok .help else .error .misused
  | '-' :: c :: cs =>
    match p.flags.find? (·.letter == some c) with
    | some flag =>
      match cs with
      | [] => .ok (.option flag none)
      | '=' :: value | value => .ok (.option flag (some (String.ofList value)))
    | none => if c = 'h' then .ok .help else .error .misused
  | _ => .error .misused

/-- Reads the arguments of a place. A value is checked when the next argument of the place is read
or the place ends, and at once where it stands in the argument of its option. -/
def scan (p : Place) (g : Given) : List String → Except Refusal Given
  | [] => .ok g
  | arg :: args =>
    if p.commands.contains arg then .ok { g with command := some (arg, args) }
    else if arg = "--" then p.addPositional g args
    else if isOption arg then do
      match ← p.named arg with
      | .help =>
        let _ ← p.checked g
        throw .helpWanted
      | .option flag (some value) =>
        p.scan (← p.checked { g with values := g.values ++ [(flag.name, value)] }) args
      | .option flag none =>
        let g ← p.checked g
        match args with
        | [] => throw .misused
        | value :: args =>
          if isOption value then throw .misused
          p.scan { g with values := g.values ++ [(flag.name, value)] } args
    else do
      p.scan (← p.addPositional g [arg]) args

end Place

def sharedFlags : List Flag :=
  [{ name := "db", isPath := true }, { name := "config", letter := some 'c', isPath := true }]

def commandNames : List String := ["build", "query", "methods", "help"]

def outerPlace : Place where
  flags := sharedFlags
  commands := commandNames

def innerPlace : String → Place
  | "build" => { flags := sharedFlags ++ [{ name := "repo", letter := some 'r', isPath := true }] }
  | "query" => { flags := sharedFlags ++ [{ name := "params", letter := some 'p' }], room := 1 }
  | _ => { flags := sharedFlags }

/-- The request of a command, with what is given behind it. -/
def request? (command : String) (g : Given) : Option Request :=
  match command with
  | "build" => (g.values.lookup "repo").map .build
  | "query" => g.positional.head?.map (.query · ((g.values.lookup "params").getD "\x7b\x7d"))
  | "methods" => some .methods
  | _ => none

/-- What help is wanted on: nothing, or one command. -/
def helpRefusal : List String → Refusal
  | [] => .helpWanted
  | [name] => if commandNames.contains name then .helpWanted else .misused
  | _ => .misused

def Invocation.ofArguments (args : List String) : Except Refusal Invocation := do
  let outer ← outerPlace.scan {} args
  match outer.command with
  | none => throw .misused
  | some (command, args) =>
    if command = "help" then throw (helpRefusal args)
    let place := innerPlace command
    let inner ← place.checked (← place.scan {} args)
    let _ ← outerPlace.checked outer
    match request? command inner with
    | none => throw .misused
    | some request =>
      let values := inner.values ++ outer.values
      return {
        database := (values.lookup "db").getD ".treeindex.db"
        settings := values.lookup "config"
        request }

end CodeIndex.CommandLine
