import CodeIndex.Shell.Number
import CodeIndex.Shell.Variables

/-! # Options

The options of a command are letters behind a hyphen, any number of them in one argument, up to an
argument that is none or that consists of two hyphens. The options of the shell can also be turned
off, behind a plus sign.
-/

namespace CodeIndex.Shell

/-- The letters of the options that a command has, and of those that have an argument. -/
structure OptionLetters where
  plain : String := ""
  withArgument : String := ""

namespace Action

/-- The options in the letters `cs` of an argument and in the arguments behind it. -/
def optionsFrom (letters : OptionLetters) :
    Nat → List Char → List String → Action (List (Char × String) × List String)
  | 0, _, args => return ([], args)
  | n + 1, [], args =>
    match args with
    | "--" :: rest => return ([], rest)
    | arg :: rest =>
      match arg.toList with
      | '-' :: c :: cs => optionsFrom letters n (c :: cs) rest
      | _ => return ([], args)
    | [] => return ([], [])
  | n + 1, c :: cs, args => do
    let found (argument : String) (cs : List Char) (args : List String) :
        Action (List (Char × String) × List String) := do
      let (options, rest) ← optionsFrom letters n cs args
      return ((c, argument) :: options, rest)
    if letters.plain.toList.contains c then found "" cs args
    else if letters.withArgument.toList.contains c then
      match cs, args with
      | [], [] => fault ("No arg for -" ++ String.singleton c ++ " option")
      | [], arg :: args => found arg [] args
      | cs, args => found (String.ofList cs) [] args
    else fault ("Illegal option -" ++ String.singleton c)

/-- The options at the front of arguments, and the arguments behind them. -/
def options (letters : OptionLetters) (args : List String) :
    Action (List (Char × String) × List String) :=
  optionsFrom letters (args.foldl (fun n a => n + a.length + 1) 1) [] args

/-- The arguments behind the options of a command that has none. -/
def withoutOptions (args : List String) : Action (List String) := do
  return (← options {} args).2

def naturalOf (text : String) : Action Nat :=
  match natural? text with
  | some n => return n
  | none => fault ("Illegal number: " ++ text)

/-! ## Options of the shell -/

def setOption (letter : Char) (on : Bool) : Action Unit := do
  unless (optionTable.filterMap (·.2)).contains letter do
    fault ("Illegal option -" ++ String.singleton letter)
  modifyProcess fun p =>
    let others := p.options.filter (· != letter)
    { p with options := if on then letter :: others else others }

def showOptions (asCommands : Bool) : Action Unit := do
  let isOn (letter : Option Char) : Action Bool :=
    match letter with
    | some c => hasOption c
    | none => return false
  unless asCommands do emit "Current option settings\n"
  for (name, letter) in optionTable do
    let on ← isOn letter
    if asCommands then emit ("set " ++ (if on then "-o " else "+o ") ++ name ++ "\n")
    else
      let gap := String.ofList (List.replicate (16 - name.length) ' ')
      emit (name ++ gap ++ (if on then "on" else "off") ++ "\n")

/-- Turns the option with a name on or off; without a name all of them are shown. -/
def setNamedOption (name : Option String) (on : Bool) : Action Unit := do
  match name with
  | none => showOptions (!on)
  | some name =>
    match optionTable.find? (·.1 == name) with
    | some (_, some letter) => setOption letter on
    | some (_, none) => return ()
    | none => fault ("Illegal option -o " ++ name)

/-- What the arguments of a shell say besides its options. -/
structure ShellArguments where
  rest : List String
  /-- Whether the script is an argument. -/
  hasScript : Bool := false
  /-- Whether two hyphens ended the options. -/
  isClosed : Bool := false

/-- Sets the options in the letters `cs` of an argument. -/
def setLetters (isStart on : Bool) : List Char → Bool → List String → Action (Bool × List String)
  | [], hasScript, args => return (hasScript, args)
  | c :: cs, hasScript, args => do
    if isStart && c = 'c' then setLetters isStart on cs true args
    else if isStart && c = 'l' then setLetters isStart on cs hasScript args
    else if c = 'o' then
      setNamedOption args.head? on
      setLetters isStart on cs hasScript (args.drop 1)
    else
      setOption c on
      setLetters isStart on cs hasScript args

def setOptionsFrom (isStart : Bool) : Nat → Bool → List String → Action ShellArguments
  | 0, hasScript, args => return { rest := args, hasScript }
  | n + 1, hasScript, args => do
    match args with
    | [] => return { rest := [], hasScript }
    | arg :: rest =>
      match arg.toList with
      | ['-'] =>
        unless isStart do
          setOption 'x' false
          setOption 'v' false
        return { rest, hasScript }
      | ['-', '-'] => return { rest, hasScript, isClosed := true }
      | '-' :: cs =>
        let (hasScript, rest) ← setLetters isStart true cs hasScript rest
        setOptionsFrom isStart n hasScript rest
      | '+' :: cs =>
        let (hasScript, rest) ← setLetters isStart false cs hasScript rest
        setOptionsFrom isStart n hasScript rest
      | _ => return { rest := args, hasScript }

/-- Sets the options at the front of the arguments of a shell or of the command that changes
them. -/
def setOptions (isStart : Bool) (args : List String) : Action ShellArguments :=
  setOptionsFrom isStart (args.length + 1) false args

end Action

end CodeIndex.Shell
