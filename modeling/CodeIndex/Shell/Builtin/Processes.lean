import CodeIndex.Shell.Options

/-! # Commands about processes and signals
-/

namespace CodeIndex.Shell.Builtin

open Shell.Action

/-! ## Signals -/

/-- The number of the signal that a text names; zero stands for the end of the shell. -/
def signalNumber? (text : String) (least : Nat) : Option Nat :=
  match Text.natOfDigits? text.toList with
  | some n => if n < Signal.count then some n else none
  | none =>
    if least = 0 && text.map Char.toUpper = "EXIT" then some 0
    else (Signal.ofName? text).map Signal.number

def signalName (n : Nat) : String :=
  if n = 0 then "EXIT" else (Signal.ofNumber n).name

/-- Sends a signal to a process, and tells whether there is such a process. Nothing but the running
process and those that wait for it are there. -/
def send (signal target : Nat) : Action Bool := do
  let p ← process
  unless p.number = target || p.waiting.contains target do return false
  if signal ≠ 0 then
    modifyWorld fun w => { w with sent := w.sent ++ [(target, signal)] }
  return true

def killUsage : Action α :=
  fault "Usage: kill [-s sigspec | -signum | -sigspec] [pid | job]... or\nkill -l [exitstatus]"

/-- Shows the name of the signal with a number or behind a status, or of all signals. -/
def listSignals : List String → Action Nat
  | [] => do
    emit "0\n"
    for n in (List.range Signal.count).drop 1 do emit (signalName n ++ "\n")
    return 0
  | text :: _ => do
    let n ← naturalOf text
    let n := if 128 < n then n - 128 else n
    if n = 0 ∨ Signal.count ≤ n then fault ("invalid signal number or exit status: " ++ text)
    emit (signalName n ++ "\n")
    return 0

/-- Receives what has been sent to the running process as far as it does not provide for it. -/
def receive : Action Unit := do
  let m ← get
  let own := m.process.number
  let isFatal (signal : Nat) : Bool :=
    signal = 9 || ((Signal.ofNumber signal).isDeadly && (m.process.traps.lookup signal).isNone)
  match m.world.sent.find? fun (target, signal) => target = own && isFatal signal with
  | some (_, signal) => throw (.gone (.killed signal))
  | none =>
    let isKept (signal : Nat) : Bool := (m.process.traps.lookup signal).any (· ≠ "")
    modifyWorld fun w =>
      { w with sent := w.sent.filter fun (target, signal) => target ≠ own || isKept signal }

def jobOf (text : String) : Action Job := do
  let jobs := (← process).jobs
  let orFault (message : String) : Option Job → Action Job
    | some j => return j
    | none => fault message
  match text.toList.drop 1 with
  | [] | ['+'] | ['%'] => orFault "No current job" jobs.head?
  | ['-'] => orFault "No previous job" jobs[1]?
  | digits =>
    let number := Text.natOfDigits? digits
    orFault ("No such job: " ++ text) (jobs.find? fun j => some j.number = number)

def sendAll (signal : Nat) (targets : List String) : Action Nat := do
  let mut status := 0
  for target in targets do
    let isJob := target.startsWith "%"
    let isGroup := target.startsWith "-"
    let n ← do
      if isJob then pure (← jobOf target).process
      else naturalOf (if isGroup then String.ofList (target.toList.drop 1) else target)
    let isSent ← if isJob || isGroup then pure false else send signal n
    unless isSent do
      complain "No such process\n"
      status := 1
    receive
  return status

def kill (args : List String) : Action Nat := do
  let byLetters : Action Nat := do
    let (options, rest) ← options { plain := "l", withArgument := "s" } args
    let named := (options.filter (·.1 == 's')).map (·.2)
    let numbers ← named.mapM fun name =>
      match signalNumber? name 1 with
      | some n => pure n
      | none => fault ("invalid signal number or name: " ++ name)
    if options.any (·.1 == 'l') then
      if numbers.isEmpty then listSignals rest else killUsage
    else if rest.isEmpty then killUsage
    else sendAll (numbers.getLast?.getD 15) rest
  match args with
  | [] => killUsage
  | first :: rest =>
    if first.startsWith "-" then
      match signalNumber? (String.ofList (first.toList.drop 1)) 1 with
      | some n => if rest.isEmpty then killUsage else sendAll n rest
      | none => byLetters
    else sendAll 15 args

/-! ## Traps -/

def showTraps : Action Nat := do
  let p ← process
  for n in List.range Signal.count do
    match p.traps.lookup n with
    | some action => emit ("trap -- " ++ singleQuoted action ++ " " ++ signalName n ++ "\n")
    | none => pure ()
  return 0

/-- Sets what is run for signals; the first argument is what, unless it is a number itself. -/
def trap (args : List String) : Action Nat := do
  match ← withoutOptions args with
  | [] => showTraps
  | first :: rest =>
    let isSignal := rest.isEmpty || (Text.natOfDigits? first.toList).any (· < Signal.count)
    let action := if isSignal || first = "-" then none else some first
    for name in if isSignal then first :: rest else rest do
      match signalNumber? name 0 with
      | none =>
        report ("trap: " ++ name ++ ": bad trap\n")
        return 1
      | some n =>
        modifyProcess fun p =>
          { p with traps := (action.map (n, ·)).toList ++ p.traps.filter (·.1 != n) }
    return 0

/-! ## Jobs -/

def noteWaiting (isMeant : Job → Bool) : Action Unit :=
  modifyProcess fun p =>
    { p with jobs := p.jobs.map fun j => { j with isWaitedFor := j.isWaitedFor || isMeant j } }

/-- The status of a process that has run beside the shell, or of all of them. -/
def wait (args : List String) : Action Nat := do
  let args ← withoutOptions args
  if args.isEmpty then noteWaiting fun _ => true
  let mut status := 0
  for arg in args do
    let job ← do
      if arg.startsWith "%" then some <$> jobOf arg
      else
        let n ← naturalOf arg
        pure ((← process).jobs.find? (·.process == n))
    status ← match job with
      | some j => do
        noteWaiting (·.number == j.number)
        pure j.ending.status
      | none => pure 127
  return status

def endingText : Ending → String
  | .exited 0 => "Done"
  | .exited n => "Done(" ++ toString n ++ ")"
  | .killed n => (Signal.ofNumber n).description

def showJob (isShort : Bool) (j : Job) : Action Unit := do
  let jobs := (← process).jobs
  let isAt (i : Nat) : Bool := (jobs[i]?).any (·.number == j.number)
  let sign := if isAt 0 then "+" else if isAt 1 then "-" else " "
  let text := "[" ++ toString j.number ++ "] " ++ sign ++ " " ++ endingText j.ending
  let gap := String.ofList (List.replicate (33 - text.length) ' ')
  let others := String.join (List.replicate (j.size - 1) " | ")
  emit (if isShort then toString j.process ++ "\n" else text ++ gap ++ others ++ "\n")
  unless isShort do
    modifyProcess fun p => { p with jobs := p.jobs.filter (·.number != j.number) }

def jobs (args : List String) : Action Nat := do
  let (options, names) ← options { plain := "lp" } args
  let isShort := options.any (·.1 == 'p')
  if names.isEmpty then (← process).jobs.forM (showJob isShort)
  else names.forM fun name => do showJob isShort (← jobOf name)
  return 0

def resume (args : List String) : Action Nat := do
  let args ← withoutOptions args
  let _ ← jobOf (args.head?.getD "%")
  fault ("job " ++ args.head?.getD "(null)" ++ " not created under job control")

/-! ## The environment of the shell -/

def octalText (n : Nat) : String :=
  let ds := Nat.toDigits 8 n
  String.ofList (List.replicate (4 - ds.length) '0' ++ ds)

def permissions (mask shift : Nat) : String :=
  let bits := (mask >>> (3 * shift)) % 8
  String.ofList ([(4, 'r'), (2, 'w'), (1, 'x')].filterMap fun (bit, c) =>
    if bits / bit % 2 = 0 then some c else none)

/-- What classes of users may do, each in three bits. -/
abbrev Modes := List (Char × Nat)

def modeBits (modes : Modes) (c : Char) : Option Nat :=
  match c with
  | 'r' => some 4
  | 'w' => some 2
  | 'x' => some 1
  | 'X' => some (if modes.any (·.2 % 2 == 1) then 1 else 0)
  | c => modes.lookup c

/-- Adds bits for some users, takes them away, or sets them. -/
def operate (users : List Char) (op : Char) (bits : Nat) (modes : Modes) : Modes :=
  modes.map fun (c, n) =>
    if users.isEmpty || users.contains c || users.contains 'a' then
      (c, match op with
        | '+' => n ||| bits
        | '-' => n &&& (7 ^^^ bits)
        | _ => bits)
    else (c, n)

/-- Carries out the operations that are written for some users, the last of which has begun. -/
def operateFrom (users : List Char) : Option (Char × Nat) → List Char → Modes → Option Modes
  | none, [], _ => none
  | some (op, bits), [], modes => some (operate users op bits modes)
  | begun, c :: cs, modes =>
    if c = '+' || c = '-' || c = '=' then
      operateFrom users (some (c, 0)) cs
        (match begun with
          | some (op, bits) => operate users op bits modes
          | none => modes)
    else
      match begun, modeBits modes c with
      | some (op, bits), some more => operateFrom users (some (op, bits ||| more)) cs modes
      | _, _ => none

def modesAfter (text : String) (modes : Modes) : Option Modes :=
  (Text.segments ',' text.toList).foldlM (fun modes cs =>
    let (users, rest) := cs.span "ugoa".toList.contains
    operateFrom users none rest modes) modes

/-- Shows or sets what new files may not be used for. -/
def mask (args : List String) : Action Nat := do
  let (options, rest) ← options { plain := "S" } args
  let m := (← process).mask
  match rest with
  | [] =>
    if options.isEmpty then emit (octalText m ++ "\n")
    else
      emit ("u=" ++ permissions m 2 ++ ",g=" ++ permissions m 1 ++ ",o=" ++ permissions m 0 ++ "\n")
    return 0
  | text :: _ =>
    if text.toList.all (fun c => '0' ≤ c && c ≤ '7') && !text.isEmpty then
      modifyProcess ({ · with mask := (Shell.natural 8 0 text.toList).1 % 512 })
      return 0
    else if text.toList.head?.any Char.isDigit then fault ("Illegal number: " ++ text)
    else
      match modesAfter text [('u', 7 - m / 64), ('g', 7 - m / 8 % 8), ('o', 7 - m % 8)] with
      | none => fault ("Illegal mode: " ++ text)
      | some modes =>
        modifyProcess ({ · with mask := modes.foldl (fun n (_, bits) => 8 * n + (7 - bits)) 0 })
        return 0

/-- Shows the time that has been used, which is none. -/
def times : Action Nat := do
  emit "0m0.000000s 0m0.000000s\n0m0.000000s 0m0.000000s\n"
  return 0

def limit (args : List String) : Action Nat := do
  let _ ← options { plain := "HSatfdscmlpnvwr" } args
  emit "unlimited\n"
  return 0

/-! ## Aliases -/

def showAlias (name value : String) : Action Unit :=
  emit (name ++ "=" ++ singleQuoted value ++ "\n")

def aliasNames (args : List String) : Action Nat := do
  let mut status := 0
  if args.isEmpty then
    for (name, value) in (← process).aliases do showAlias name value
  for arg in args do
    match splitAssignment arg with
    | (name, some value) =>
      modifyProcess fun p =>
        { p with aliases := p.aliases.filter (·.1 != name) ++ [(name, value)] }
    | (name, none) =>
      match (← process).aliases.lookup name with
      | some value => showAlias name value
      | none =>
        report ("alias: " ++ name ++ " not found\n")
        status := 1
  return status

def unaliasNames (args : List String) : Action Nat := do
  let (options, names) ← options { plain := "a" } args
  unless options.isEmpty do
    modifyProcess ({ · with aliases := [] })
    return 0
  let mut status := 0
  for name in names do
    if ((← process).aliases.lookup name).isNone then
      report ("unalias: " ++ name ++ " not found\n")
      status := 1
    modifyProcess fun p => { p with aliases := p.aliases.filter (·.1 != name) }
  return status

/-! ## Skipping -/

def leaveLoop (skip : Skip) (args : List String) : Action Nat := do
  let n ← match args.head? with
    | some text =>
      let n ← naturalOf text
      if n = 0 then fault ("Illegal number: " ++ text)
      pure n
    | none => pure 1
  modifyProcess fun p =>
    let n := min n p.loops
    if n = 0 then p else { p with skip := some skip, skipCount := n }
  return 0

def returnFrom (args : List String) : Action Nat := do
  match args.head? with
  | some text =>
    let n ← naturalOf text
    modifyProcess ({ · with skip := some (.return true) })
    return n
  | none =>
    modifyProcess ({ · with skip := some (.return false) })
    return (← process).status

def exitShell (args : List String) : Action Nat := do
  match args.head? with
  | some text =>
    let n ← naturalOf text
    modifyProcess ({ · with savedStatus := some n })
  | none => pure ()
  throw .exit

end CodeIndex.Shell.Builtin
