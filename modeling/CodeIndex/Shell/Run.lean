import CodeIndex.Shell.Call

/-! # Running commands

A command gives a status. What is inside of it runs at most so deep, so that a script that calls
itself without end is ended by a signal.
-/

namespace CodeIndex.Shell

namespace Action

/-- Does for a command what redirections ask for, and undoes it. Where they cannot be carried out
the script may end. -/
def redirected (run : Runner) (p : Place) (rs : List Redirection) (action : Action Nat) :
    Action Nat := do
  let turns ← turnsOf run rs
  let before ← connections turns
  let status ← always (reconnect before) do
    let status ← turnAll turns
    if status = 0 then some <$> action
    else
      setStatus status
      return none
  match status with
  | some status => return status
  | none =>
    if !p.tested && (← hasOption 'e') then throw .finish
    return (← process).status

/-! ## Processes -/

/-- Runs a command in a process of its own, unless nothing follows it. -/
def subshell (run : Runner) (p : Place) (c : Command) (rs : List Redirection) : Action Nat := do
  let turns ← turnsOf run rs
  let body : Action Unit := do
    turns.forM turn
    let _ ← run { p with last := true } c
  if p.last && !(← process).traps.any (!·.2.isEmpty) then
    body
    throw .finish
  else awaited run body

def dropInput : Action Unit := do
  connect 0 (some (← openFile { stream := .nothing, reads := true, writes := false }))

/-- Keeps how a process has ended that was not waited for. -/
def addJob (process size : Nat) (ending : Ending) : Action Unit :=
  modifyProcess fun p =>
    let isFree (n : Nat) : Bool := !p.jobs.any (·.number == n + 1)
    let number := ((List.range (p.jobs.length + 1)).find? isFree).getD 0 + 1
    { p with jobs := { number, process, size, ending } :: p.jobs, background := some process }

/-- Runs a command in a process that is not waited for. -/
def inBackground (run : Runner) (c : Command) (rs : List Redirection) : Action Nat := do
  let turns ← turnsOf run rs
  let number := (← world).lastProcess + 1
  let ending ← inChild run do
    dropInput
    turns.forM turn
    let _ ← run { last := true } c
  addJob number 1 ending
  return 0

/-- Runs commands in processes of their own, each of which reads what the one before it writes, and
gives the number and the end of the last one. -/
def piped (run : Runner) (p : Place) (inBackground : Bool) :
    Option Nat → List Command → Action (Nat × Ending)
  | _, [] => return (0, .exited 0)
  | input, c :: rest => do
    let output ← do
      if rest.isEmpty then pure none
      else some <$> openFile { stream := .pipe [], reads := true, writes := true }
    let number := (← world).lastProcess + 1
    let ending ← inChild run do
      match input with
      | some i => connect 0 (some i)
      | none => if inBackground then dropInput
      match output with
      | some i => connect 1 (some i)
      | none => pure ()
      let _ ← run { p with last := true } c
    unless inBackground do reportSignal ending
    if rest.isEmpty then return (number, ending) else piped run p inBackground output rest

def pipeline (run : Runner) (p : Place) (cs : List Command) (inBackground : Bool) : Action Nat := do
  let (number, ending) ← piped run p inBackground none cs
  if inBackground then
    addJob number cs.length ending
    return 0
  else return ending.status

/-! ## Loops -/

/-- What is skipped in a loop behind a command in it, when this loop has been counted. -/
def skipInLoop : Action (Option Skip) := do
  match (← process).skip with
  | none => return none
  | some (.return withStatus) => return some (.return withStatus)
  | some skip =>
    if (← process).skipCount ≤ 1 then
      modifyProcess ({ · with skip := none, skipCount := 0 })
      return some skip
    else
      modifyProcess fun p => { p with skipCount := p.skipCount - 1 }
      return some .break

def leaves : Option Skip → Bool
  | none | some .continue => false
  | some .break | some (.return _) => true

def maxRounds : Nat := 4000000

/-- The rounds of a loop; the status is that of the last one so far. -/
def rounds (run : Runner) (p : Place) (untilSuccess : Bool) (test body : Command) :
    Nat → Nat → Action Nat
  | 0, _ => throw (.gone (.killed 24))
  | n + 1, status => do
    let tested ← run { tested := true } test
    match ← skipInLoop with
    | some (.return _) => return tested
    | some .break => return status
    | some .continue => rounds run p untilSuccess test body n status
    | none =>
      if (tested = 0) = untilSuccess then return status
      let status ← run p body
      if leaves (← skipInLoop) then return status
      rounds run p untilSuccess test body n status

def repeated (run : Runner) (p : Place) (name : String) (body : Command) :
    Nat → List String → Action Nat
  | status, [] => return status
  | _, text :: rest => do
    assign name text
    let status ← run p body
    if leaves (← skipInLoop) then return status
    repeated run p name body status rest

def inLoop (action : Action Nat) : Action Nat := do
  modifyProcess fun p => { p with loops := p.loops + 1 }
  let status ← action
  modifyProcess fun p => { p with loops := p.loops - 1 }
  return status

/-! ## Choices -/

def fitsAny (run : Runner) (text : List Char) : List Word → Action Bool
  | [] => return false
  | w :: ws => do
    if (← patternOfWord (substitution run) w).isMatch text then return true
    else fitsAny run text ws

/-- Runs the commands of the first clause that fits a text. -/
def firstFitting (run : Runner) (p : Place) (text : List Char) : List Clause → Action Nat
  | [] => return 0
  | .mk patterns body :: rest => do
    if ← fitsAny run text patterns then
      match body with
      | some c => run p c
      | none => return 0
    else firstFitting run p text rest

/-! ## Commands -/

/-- Runs a command where `run` runs those inside of it. -/
def runWith (run : Runner) (p : Place) (c : Command) : Action Nat := do
  let inner : Place := { tested := p.tested }
  let skips : Action Bool := do return (← process).skip.isSome
  let enter (line : Nat) : Action Unit := modifyProcess ({ · with line })
  match c with
  | .simple line assignments words rs => simple run p line assignments words rs
  | .pipeline cs background => pipeline run p cs background
  | .redirected line c rs =>
    enter line
    redirected run p rs (run inner c)
  | .background line c rs =>
    enter line
    inBackground run c rs
  | .subshell line c rs =>
    enter line
    subshell run p c rs
  | .sequence first second =>
    let status ← run inner first
    if ← skips then return status else run p second
  | .both first second =>
    let status ← run { tested := true } first
    if status ≠ 0 || (← skips) then return status else run p second
  | .either first second =>
    let status ← run { tested := true } first
    if status = 0 || (← skips) then return status else run p second
  | .negated c =>
    let status ← run { tested := true } c
    if ← skips then return status else return if status = 0 then 1 else 0
  | .conditional test yes no =>
    let status ← run { tested := true } test
    if ← skips then return status
    else if status = 0 then run p yes
    else
      match no with
      | some no => run p no
      | none => return 0
  | .loop untilSuccess test body =>
    inLoop (rounds run inner untilSuccess test body maxRounds 0)
  | .each line name words body =>
    enter line
    let texts := (← words.mapM (fieldsOf (substitution run))).flatten
    inLoop (repeated run inner name body 0 texts)
  | .select line subject clauses =>
    enter line
    let text ← textOfWord (substitution run) subject
    firstFitting run p text.toList clauses
  | .define name body =>
    modifyProcess fun p =>
      { p with functions := (name, body) :: p.functions.filter (·.1 != name) }
    return 0

/-- Whether the failure of a command may end the script. -/
def isDecisive : Command → Bool
  | .simple .. | .pipeline .. | .background .. | .subshell .. => true
  | _ => false

/-- Runs a command and answers the signals that come in around it. -/
def runStep (run : Runner) (p : Place) (c : Command) : Action Nat := do
  runTraps run
  unless ← hasOption 'n' do
    let status ← runWith run p c
    setStatus status
    runTraps run
    if isDecisive c && status ≠ 0 && !p.tested && (← hasOption 'e') then throw .finish
  return (← process).status

/-- Runs commands, at most so deep inside of each other. -/
def runner : Nat → Runner
  | 0, _, _ => throw (.gone (.killed 11))
  | n + 1, p, c => runStep (runner n) p c

/-- How deep commands may run inside of each other. -/
def maxDepth : Nat := 10000

end Action

end CodeIndex.Shell
