import CodeIndex.Shell.Expansion
import CodeIndex.Shell.Options

/-! # Commands about variables and arguments
-/

namespace CodeIndex.Shell.Builtin

open Shell.Action

def sortedVariables : Action (List (String × Variable)) := do
  return (← process).bindings.mergeSort fun a b => a.1 ≤ b.1

/-- Shows variables, with their values between quotation marks. -/
def showVariables (before : String) (p : Variable → Bool) : Action Unit := do
  for (name, v) in ← sortedVariables do
    if p v then
      let value := match v.value with
        | some value => "=" ++ singleQuoted value
        | none => ""
      emit (before ++ name ++ value ++ "\n")

def mark (name : String) (change : Variable → Variable) (isMarked : Variable → Bool)
    (args : List String) : Action Nat := do
  let (options, rest) ← options { plain := "p" } args
  if options.isEmpty && !rest.isEmpty then
    for text in rest do Action.mark text change
  else showVariables (name ++ " ") isMarked
  return 0

def exportVariables : List String → Action Nat :=
  mark "export" ({ · with isExported := true }) Variable.isExported

def fixVariables : List String → Action Nat :=
  mark "readonly" ({ · with isReadOnly := true }) Variable.isReadOnly

def makeLocal (args : List String) : Action Nat := do
  if (← process).locals.isEmpty then fault "not in a function"
  for text in args do
    if text = "-" then makeOptionsLocal
    else
      let (name, value) := splitAssignment text
      checkName name
      Action.makeLocal name
      match value with
      | some value => assign name value
      | none => pure ()
  return 0

def unset (args : List String) : Action Nat := do
  let (options, names) ← options { plain := "vf" } args
  let isFunction := options.getLast?.any (·.1 == 'f')
  for name in names do
    if isFunction then
      modifyProcess fun p => { p with functions := p.functions.filter (·.1 != name) }
    else Action.unset name
  return 0

/-- Changes the options and the arguments of the shell, or shows the variables. -/
def set (args : List String) : Action Nat := do
  if args.isEmpty then showVariables "" fun v => v.value.isSome
  else
    let s ← setOptions false args
    if s.isClosed || !s.rest.isEmpty then
      modifyProcess ({ · with args := s.rest, place := {} })
  return 0

def shift (args : List String) : Action Nat := do
  let n ← match args.head? with
    | some text => naturalOf text
    | none => pure 1
  let p ← process
  if p.args.length < n then fault "can't shift that many"
  modifyProcess ({ · with args := p.args.drop n, place := {} })
  return 0

/-! ## Reading lines -/

/-- The signs of a line of input, and whether its end was found. Where backslashes count, one of
them quotes the character behind it, or joins two lines. -/
def inputLine (raw : Bool) : Nat → List Sign → Action (List Sign × Bool)
  | 0, signs => return (signs.reverse, false)
  | n + 1, signs => do
    let next : Action (Option Char) := do
      match ← Action.read 0 (some 1) with
      | .ok [b] => return some (Char.ofNat b.toNat)
      | _ => return none
    match ← next with
    | none => return (signs.reverse, false)
    | some '\n' => return (signs.reverse, true)
    | some '\x00' => inputLine raw n signs
    | some c =>
      if c = '\\' && !raw then
        match ← next with
        | none => return (signs.reverse, false)
        | some '\n' | some '\x00' => inputLine raw n signs
        | some c => inputLine raw n (.char c true :: signs)
      else inputLine raw n (.char c false :: signs)

def unquotedRuns (signs : List Sign) : List Region :=
  let places := (List.range signs.length).zip signs
  (places.filter fun (_, s) => s matches .char _ false).foldl (fun (rs : List Region) (i, _) =>
    match rs with
    | r :: rest => if r.stop = i then { r with stop := i + 1 } :: rest else ⟨i, i + 1, false⟩ :: rs
    | [] => [⟨i, i + 1, false⟩]) []

def maxLine : Nat := 1000000

/-- Reads a line, and gives its fields to variables; the last one gets all that is left. -/
def read (args : List String) : Action Nat := do
  let (options, names) ← options { plain := "r", withArgument := "p" } args
  if names.isEmpty then fault "arg count"
  let (signs, isEnded) ← inputLine (options.any (·.1 == 'r')) maxLine []
  let e : Expanded := { signs := signs.toArray, regions := unquotedRuns signs }
  let fields := (e.fieldsWithin (← separators).toList (some names.length)).map textOf
  for (name, i) in names.zipIdx do
    checkName name
    assign name (fields[i]?.getD "")
  return if isEnded then 0 else 1

/-! ## Options of scripts -/

/-- Takes the next option of arguments, and puts it into a variable. -/
def nextOption (letters name : String) (args : List String) : Action Nat := do
  let p ← process
  let place := if args.length + 1 < p.place.argument then {} else p.place
  let isQuiet := letters.startsWith ":"
  let finish (letter : Char) (argument : Nat) (characters : Option Nat) (status : Nat) :
      Action Nat := do
    assign "OPTIND" (toString argument)
    checkName name
    assign name (String.singleton letter)
    modifyProcess ({ · with place := { argument, characters } })
    return status
  /- The characters that are left of the argument in front. -/
  let begun := match place.characters with
    | some n => ((args[place.argument - 2]?).getD "").toList.drop n
    | none => []
  let (cs, next) := match begun, (args[place.argument - 1]?).map String.toList with
    | _ :: _, _ => (some begun, place.argument)
    | [], some ['-', '-'] => (none, place.argument + 1)
    | [], some ('-' :: c :: cs) => (some (c :: cs), place.argument + 1)
    | [], _ => (none, place.argument)
  match cs with
  | none | some [] => finish '?' next none 1
  | some (c :: cs) =>
    let used := ((args[next - 2]?).getD "").length - cs.length
    let rest := if cs.isEmpty then none else some used
    match letters.toList.dropWhile (· ≠ c) with
    | [] =>
      if isQuiet then assign "OPTARG" (String.singleton c)
      else
        report ("Illegal option -" ++ String.singleton c ++ "\n")
        Action.unset "OPTARG"
      finish '?' next (some used) 0
    | _ :: ':' :: _ =>
      match cs, args[next - 1]? with
      | [], none =>
        if isQuiet then
          assign "OPTARG" (String.singleton c)
          finish ':' next (some used) 0
        else
          report ("No arg for -" ++ String.singleton c ++ " option\n")
          Action.unset "OPTARG"
          finish '?' next (some used) 0
      | [], some argument =>
        assign "OPTARG" argument
        finish c (next + 1) none 0
      | cs, _ =>
        assign "OPTARG" (String.ofList cs)
        finish c next none 0
    | _ =>
      assign "OPTARG" ""
      finish c next (rest <|> some used) 0

def getopts (args : List String) : Action Nat := do
  match ← withoutOptions args with
  | letters :: name :: [] => nextOption letters name (← process).args
  | letters :: name :: args => nextOption letters name args
  | _ => fault "Usage: getopts optstring var [arg...]"

end CodeIndex.Shell.Builtin
