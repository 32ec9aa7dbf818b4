import CodeIndex.Shell.Builtin.Processes
import CodeIndex.Shell.CommandReader
import CodeIndex.Shell.Descriptors
import CodeIndex.Shell.Expansion

/-! # Scripts in processes

A script runs line by line, and each line is read when the ones before it have run. Signals that a
process provides for, and its end, make it run further scripts. What is asked for here is how a
single command runs.
-/

namespace CodeIndex.Shell

/-- Where a command stands. -/
structure Place where
  /-- Its failure is asked for, and so it is no reason to end the script. -/
  tested : Bool := false
  /-- Nothing follows it in its process. -/
  last : Bool := false
deriving DecidableEq, Repr

/-- What runs commands, and gives their status. -/
abbrev Runner := Place → Command → Action Nat

namespace Action

/-! ## Lines -/

def nextLine (r : Reading) : Action (ScriptLine × Reading) := do
  let p ← process
  match { r with aliases := p.aliases, announced := p.documents.length : Reading }.nextLine with
  | .error flaw =>
    modifyProcess ({ · with line := flaw.line, readLine := flaw.line })
    fault flaw.text
  | .ok (line, r) =>
    modifyProcess fun p =>
      { p with documents := r.documents ++ p.documents, readLine := r.line }
    return (line, { r with documents := [] })

def maxLines : Nat := 1000000000

/-- Runs the lines of a script from some place on. Lines of a file are shown where that is
wanted. -/
def runLines (run : Runner) (p : Place) (isFile : Bool) : Nat → Reading → Nat → Action Nat
  | 0, _, status => return status
  | n + 1, before, status => do
    let (line, r) ← nextLine before
    if isFile && (← hasOption 'v') then
      report (String.ofList (before.rest.take (before.rest.length - r.rest.length)))
    match line with
    | .ended => return status
    | .command none => runLines run p isFile n r status
    | .command (some c) =>
      let status ← run p c
      if (← process).skip.isSome then return status
      runLines run p isFile n r status

/-- Runs a script, and gives the status of its last command. -/
def runScript (run : Runner) (p : Place) (isFile : Bool) (text : String) : Action Nat := do
  let readLine := (← process).readLine
  always (modifyProcess ({ · with readLine })) do
    runLines run p isFile maxLines (.ofText text) 0

def runText (run : Runner) (p : Place) (text : String) : Action Nat :=
  runScript run p false text

/-- Runs the script in a file with some content; it may be left by returning from it. -/
def runContent (run : Runner) (content : Text.Octets) : Action Nat := do
  let status ← runScript run {} true (Text.pack (content.filter (· ≠ 0)))
  modifyProcess fun p => { p with skip := none }
  return status

/-! ## Signals -/

/-- Runs what is provided for signals, after which the status is what it was before. -/
def answer (run : Runner) (status : Nat) : List Nat → Action Unit
  | [] => return ()
  | signal :: rest => do
    let p ← process
    if p.skip.isSome then return ()
    modifyWorld fun w => { w with sent := w.sent.filter (· != (p.number, signal)) }
    match p.traps.lookup signal with
    | none => pure ()
    | some text =>
      let _ ← runText run {} text
      if (← process).skip ≠ some (.return true) then setStatus status
    answer run status rest

def runTraps (run : Runner) : Action Unit := do
  unless (← world).sent.isEmpty do
    Builtin.receive
    let m ← get
    let p := m.process
    let isPending (n : Nat) : Bool := m.world.sent.contains (p.number, n)
    match (List.range Signal.count).filter isPending with
    | [] => return ()
    | signals =>
      let status := p.savedStatus.getD p.status
      modifyProcess ({ · with savedStatus := some status })
      answer run status signals
      modifyProcess ({ · with savedStatus := p.savedStatus })

/-! ## The end of a process -/

/-- Forgets what was being skipped, and takes the saved status where that is wanted. -/
def settle (takesSaved : Bool) : Action Unit :=
  modifyProcess fun p =>
    { p with
      status := if takesSaved then p.savedStatus.getD p.status else p.status
      savedStatus := none, skip := none, skipCount := 0, loops := 0 }

/-- Runs what is provided for the end of the running shell. -/
def runLastTrap (run : Runner) : Action Unit := do
  let p ← process
  match p.traps.lookup 0 with
  | none => return ()
  | some text =>
    modifyProcess fun p =>
      { p with traps := p.traps.filter (·.1 != 0), savedStatus := some p.status, skip := none }
    match ← attempt (runText run {} text) with
    | .ok _ | .error .exit => settle true
    | .error (.gone e) => throw (.gone e)
    | .error _ => settle false

/-- How the running shell ends when it has done all it had to do, or has been interrupted. -/
def endShell (run : Runner) (result : Except Interrupt Unit) : Action Ending := do
  match result with
  | .error (.gone e) => return e
  | .error i => settle (i = .exit || (← process).skip = some (.return false))
  | .ok () => pure ()
  match ← attempt (runLastTrap run) with
  | .error (.gone e) => return e
  | _ => return .exited ((← process).status % 256)

/-- Runs an action in a process of its own, and gives how that process ends. -/
def inChild (run : Runner) (action : Action Unit) : Action Ending := do
  let parent ← process
  let number := (← world).lastProcess + 1
  modifyWorld ({ · with lastProcess := number })
  modifyProcess fun p =>
    { p with
      number, parent := p.number, waiting := p.number :: p.waiting
      traps := p.traps.filter (·.2.isEmpty), jobs := [] }
  let ending ← endShell run (← attempt action)
  modifyProcess fun _ => { parent with jobs := parent.jobs.filter (!·.isWaitedFor) }
  Builtin.receive
  return ending

/-- Tells of the signal that has ended a process, if it is one that is worth telling. -/
def reportSignal : Ending → Action Unit
  | .exited _ => return ()
  | .killed signal => do
    unless [2, 13].contains signal do report ((Signal.ofNumber signal).description ++ "\n")

/-- Runs an action in a process of its own, and gives the status. -/
def awaited (run : Runner) (action : Action Unit) : Action Nat := do
  let ending ← inChild run action
  reportSignal ending
  return ending.status

/-! ## Words -/

def substitution (run : Runner) : Substitution
  | none => return ""
  | some c => do
    let i ← openFile { stream := .record [], reads := false, writes := true }
    let outputStatus ← awaited run do
      connect 1 (some i)
      let _ ← run { last := true } c
    modifyProcess ({ · with outputStatus })
    match ((← world).files[i]?).map OpenFile.stream with
    | some (.record parts) => return Text.pack parts.reverse.flatten
    | _ => return ""

def documentText (run : Runner) (number : Nat) : Action String := do
  match (← process).documents.lookup number with
  | none => return ""
  | some w => textOfWord (substitution run) w { quoted := true }

/-- The redirections with their targets, or with what gives the texts of documents. -/
def turnsOf (run : Runner) (rs : List Redirection) : Action (List Turn) :=
  rs.mapM fun r => do
    let d := r.direction
    match d with
    | .document number _ =>
      return { descriptor := r.descriptor, direction := d, target := documentText run number }
    | .duplicate =>
      let target := ((← fieldsOf (substitution run) r.target).head?).getD ""
      match target.toList with
      | [c] =>
        if c.isDigit || c = '-' then
          return { descriptor := r.descriptor, direction := d, target := pure target }
      | _ => pure ()
      modifyProcess fun p => { p with line := p.readLine }
      fault "Syntax error: Bad fd number"
    | _ =>
      let target ← textOfWord (substitution run) r.target
      return { descriptor := r.descriptor, direction := d, target := pure target }

end Action

end CodeIndex.Shell
