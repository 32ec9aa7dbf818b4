import CodeIndex.Shell.Machine

/-! # Variables

A variable may have a value, may be handed on to programs, and may be fixed for good. Functions
restore the variables that they have made local.
-/

namespace CodeIndex.Shell

/-- Runs of characters between quotation marks, the marks among them double ones. -/
def quotedRuns : Nat → List Char → List Char
  | 0, _ => []
  | n + 1, cs =>
    let (before, rest) := cs.span (· ≠ '\'')
    let (marks, rest) := rest.span (· = '\'')
    ['\''] ++ before ++ ['\'']
      ++ (if marks.isEmpty then [] else ['"'] ++ marks ++ ['"'])
      ++ (if rest.isEmpty then [] else quotedRuns n rest)

/-- A text between quotation marks, as it could be typed. -/
def singleQuoted (s : String) : String :=
  String.ofList (quotedRuns (s.length + 1) s.toList)

namespace Action

def lookUp (name : String) : Action (Option Variable) := do
  return (← process).bindings.lookup name

def valueOf? (name : String) : Action (Option String) := do
  return (← lookUp name).bind Variable.value

def valueOf (name : String) : Action String := do
  return (← valueOf? name).getD ""

/-- Gives a variable a place in the table, or none. -/
def putVariable (name : String) (v : Option Variable) : Action Unit :=
  modifyProcess fun p =>
    let others := p.bindings.filter (·.1 != name)
    { p with bindings := (v.map (name, ·)).toList ++ others }

def hasOption (letter : Char) : Action Bool := do
  return (← process).options.contains letter

def checkWritable (name : String) : Action Unit := do
  if (← lookUp name).any Variable.isReadOnly then fault (name ++ ": is read only")

/-- Gives a variable a value; it may be handed on from then on. -/
def assign (name value : String) (exported : Bool := false) : Action Unit := do
  checkWritable name
  let before := (← lookUp name).getD { value := none }
  let isExported := before.isExported || exported || (← hasOption 'a')
  putVariable name (some { before with value := some value, isExported })
  if name = "PATH" then modifyProcess ({ · with found := [] })
  if name = "OPTIND" then
    modifyProcess fun p =>
      { p with place := { argument := max ((Text.natOfDigits? value.toList).getD 1) 1 } }

/-- The name and the value of a text with an equals sign. -/
def splitAssignment (text : String) : String × Option String :=
  match text.toList.span (· ≠ '=') with
  | (name, _ :: value) => (String.ofList name, some (String.ofList value))
  | (name, []) => (String.ofList name, none)

def checkName (name : String) : Action Unit := do
  unless isName name do fault (name ++ ": bad variable name")

/-- Carries out an assignment that is written as a text. -/
def assignText (text : String) (exported : Bool := false) : Action Unit := do
  let (name, value) := splitAssignment text
  checkName name
  assign name (value.getD "") exported

def unset (name : String) : Action Unit := do
  checkName name
  checkWritable name
  putVariable name none

/-- Changes what may be done with a variable, and its value if a text gives one. -/
def mark (text : String) (change : Variable → Variable) : Action Unit := do
  let (name, value) := splitAssignment text
  checkName name
  match value with
  | some value => assign name value
  | none => pure ()
  let v := (← lookUp name).getD { value := none }
  putVariable name (some (change v))

/-! ## Local variables -/

def enterScope : Action Unit :=
  modifyProcess fun p => { p with locals := ([], none) :: p.locals }

def makeLocal (name : String) : Action Unit := do
  let v ← lookUp name
  modifyProcess fun p =>
    match p.locals with
    | (bindings, options) :: outer =>
      { p with locals := ((name, v) :: bindings, options) :: outer }
    | [] => p

/-- Makes the options local to the innermost scope. -/
def makeOptionsLocal : Action Unit :=
  modifyProcess fun p =>
    match p.locals with
    | (bindings, options) :: outer =>
      { p with locals := (bindings, some (options.getD p.options)) :: outer }
    | [] => p

/-- Ends scopes until so many are left, and restores their variables. -/
def leaveScopes (depth : Nat) : Action Unit := do
  let p ← process
  for (bindings, options) in p.locals.take (p.locals.length - depth) do
    for (name, v) in bindings do
      putVariable name v
    match options with
    | some options => modifyProcess ({ · with options })
    | none => pure ()
  modifyProcess fun p => { p with locals := p.locals.drop (p.locals.length - depth) }

/-! ## Parameters of the shell -/

def separators : Action String := do
  return (← valueOf? "IFS").getD " \t\n"

/-- The options of the shell: a name and a letter for each of them. -/
def optionTable : List (String × Option Char) :=
  [("errexit", some 'e'), ("noglob", some 'f'), ("ignoreeof", some 'I'), ("interactive", some 'i'),
    ("monitor", some 'm'), ("noexec", some 'n'), ("stdin", some 's'), ("xtrace", some 'x'),
    ("verbose", some 'v'), ("vi", some 'V'), ("emacs", some 'E'), ("noclobber", some 'C'),
    ("allexport", some 'a'), ("notify", some 'b'), ("nounset", some 'u'), ("privileged", some 'p'),
    ("nolog", none), ("debug", none)]

def optionLetters (options : List Char) : String :=
  String.ofList ((optionTable.filterMap (·.2)).filter options.contains).reverse

/-- What a parameter stands for that is not a list of arguments. -/
def parameter? (name : String) : Action (Option String) := do
  let p ← process
  match name with
  | "$" => return some (toString p.leader)
  | "?" => return some (toString p.status)
  | "#" => return some (toString p.args.length)
  | "!" => return p.background.map toString
  | "-" => return some (optionLetters p.options)
  | "0" => return some p.name
  | name =>
    match Text.natOfDigits? name.toList with
    | some 0 => return some p.name
    | some (n + 1) => return p.args[n]?
    | none => valueOf? name

end Action

end CodeIndex.Shell
