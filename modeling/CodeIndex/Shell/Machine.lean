import CodeIndex.Disk.Basic
import CodeIndex.Shell.Signal
import CodeIndex.Shell.Syntax
import CodeIndex.Text.Packed

/-! # Processes

A machine has a disk, files that are open, and one process that is running. A process that is
started takes the place of the one that starts it until it has ended, so that nothing ever runs side
by side. The texts of a process are packed.
-/

namespace CodeIndex.Shell

open Text (Octets)

/-- What an open file is connected to. -/
inductive Stream where
  /-- What is written is lost, and there is nothing to read. -/
  | nothing
  /-- What is written is kept, the latest part first. -/
  | record (parts : List Octets)
  /-- What is written can be read. -/
  | pipe (content : Octets)
  /-- A file on the disk at a place in it; what is written may always go to the end. -/
  | file (location : Location) (offset : Nat) (appends : Bool)
  | folder

structure OpenFile where
  stream : Stream
  reads : Bool
  writes : Bool

/-- What all processes share. -/
structure World where
  disk : Disk
  files : Array OpenFile := #[]
  /-- The number of the process that was started last. -/
  lastProcess : Nat
  /-- Signals that have been sent and not been received, each with the process that it is for. -/
  sent : List (Nat × Nat) := []

structure Variable where
  value : Option String
  isExported : Bool := false
  isReadOnly : Bool := false
deriving Repr

/-- Where to go on when a command has ended early. -/
inductive Skip where
  | break
  | continue
  /-- The command that ends a function may have given it a status. -/
  | return (withStatus : Bool)
deriving DecidableEq, Repr

/-- A command that has run beside the shell, and how it has ended. -/
structure Job where
  number : Nat
  /-- The number of the last process of the command. -/
  process : Nat
  /-- How many processes the command has had. -/
  size : Nat := 1
  ending : Ending
  isWaitedFor : Bool := false
deriving Repr

/-- The places in the arguments up to which options have been taken: an argument, and characters of
it. -/
structure OptionPlace where
  argument : Nat := 1
  characters : Option Nat := none
deriving Repr

structure Process where
  number : Nat
  /-- The number of the process that began to read the script. -/
  leader : Nat
  /-- The number of the process that started this one. -/
  parent : Nat
  /-- The processes that wait for the end of this one. -/
  waiting : List Nat := []
  /-- What new files may not be used for. -/
  mask : Nat := 18
  /-- The folder from which relative paths lead. -/
  cwd : Location
  /-- The path by which that folder was entered. -/
  path : String
  /-- The open files by descriptors. -/
  descriptors : List (Nat × Nat)
  /-- The name of the script. -/
  name : String := ""
  args : List String := []
  place : OptionPlace := {}
  bindings : List (String × Variable) := []
  /-- The variables to be restored when functions end, and the options if they are. -/
  locals : List (List (String × Option Variable) × Option (List Char)) := []
  functions : List (String × Command) := []
  aliases : List (String × String) := []
  /-- What is run when a signal is received, or for the number zero at the end. -/
  traps : List (Nat × String) := []
  /-- The options that are on, by their letters. -/
  options : List Char := []
  /-- How the last command ended. -/
  status : Nat := 0
  /-- How the last command ended whose output was taken. -/
  outputStatus : Nat := 0
  /-- The status in front of a trap. -/
  savedStatus : Option Nat := none
  /-- The line that is running. -/
  line : Nat := 0
  /-- The line up to which the script has been read. -/
  readLine : Nat := 1
  /-- How many functions are running. -/
  functionDepth : Nat := 0
  /-- How many loops are running. -/
  loops : Nat := 0
  skip : Option Skip := none
  /-- How many loops are left by skipping. -/
  skipCount : Nat := 0
  /-- The command of the shell itself that is running. -/
  command : Option String := none
  /-- What that command has to write, the latest part first. -/
  buffer : List Octets := []
  /-- The documents of the commands that have been read, by their numbers. -/
  documents : List (Nat × Word) := []
  /-- The paths of the programs that have been run, by their names. -/
  found : List (String × String) := []
  /-- The latest job first. -/
  jobs : List Job := []
  /-- The last process that was not waited for. -/
  background : Option Nat := none

structure Machine where
  world : World
  process : Process

/-- Why nothing more is run. -/
inductive Interrupt where
  /-- The shell was told to exit. -/
  | exit
  /-- The shell has nothing more to do. -/
  | finish
  | fault
  /-- The process has ended. -/
  | gone (e : Ending)
deriving DecidableEq, Repr

/-- What runs on a machine, unless it is interrupted. -/
abbrev Action := ExceptT Interrupt (StateM Machine)

namespace Action

def process : Action Process := do
  return (← get).process

def world : Action World := do
  return (← get).world

def modifyProcess (f : Process → Process) : Action Unit :=
  modify fun m => { m with process := f m.process }

def modifyWorld (f : World → World) : Action Unit :=
  modify fun m => { m with world := f m.world }

/-- Runs an action, and gives the interrupt if there was one. -/
def attempt (action : Action α) : Action (Except Interrupt α) :=
  ExceptT.mk do
    return .ok (← action.run)

/-- Runs an action and then a last one, even where the first is interrupted. -/
def always (last : Action Unit) (action : Action α) : Action α := do
  let result ← attempt action
  last
  match result with
  | .ok a => return a
  | .error i => throw i

def setStatus (status : Nat) : Action Unit :=
  modifyProcess ({ · with status })

/-! ## Open files -/

def openFile (f : OpenFile) : Action Nat := do
  let w ← world
  modifyWorld ({ · with files := w.files.push f })
  return w.files.size

def fileOf? (descriptor : Nat) : Action (Option (Nat × OpenFile)) := do
  let m ← get
  return (m.process.descriptors.lookup descriptor).bind fun i => (m.world.files[i]?).map (i, ·)

def setStream (i : Nat) (s : Stream) : Action Unit :=
  modifyWorld fun w => { w with files := w.files.modify i ({ · with stream := s }) }

/-- Makes a descriptor lead to an open file, or to nothing. -/
def connect (descriptor : Nat) (file : Option Nat) : Action Unit :=
  modifyProcess fun p =>
    let others := p.descriptors.filter (·.1 != descriptor)
    { p with descriptors := (file.map (descriptor, ·)).toList ++ others }

def contentAt (location : Location) : Action Octets := do
  match (← world).disk.root.at? location with
  | some (.file content) => return content
  | some (.database _) => return Disk.databaseHeader
  | some (.program _) => return Disk.programHeader
  | _ => return []

/-- Replaces octets from a place on; zeros fill a gap in front of it. -/
def overwrite (content : Octets) (offset : Nat) (bs : Octets) : Octets :=
  let before := content.take offset
  before ++ List.replicate (offset - before.length) 0 ++ bs ++ content.drop (offset + bs.length)

/-- Writes to a descriptor, and tells whether it can be written to. -/
def write (descriptor : Nat) (bs : Octets) : Action Bool := do
  match ← fileOf? descriptor with
  | none => return false
  | some (i, f) =>
    if !f.writes then return false
    match f.stream with
    | .nothing => return true
    | .record parts => setStream i (.record (bs :: parts))
    | .pipe content => setStream i (.pipe (content ++ bs))
    | .file location offset appends =>
      let content ← contentAt location
      let offset := if appends then content.length else offset
      modifyWorld fun w =>
        { w with disk := w.disk.put location (.file (overwrite content offset bs)) }
      setStream i (.file location (offset + bs.length) appends)
    | .folder => return false
    return true

/-- Reads at most so many octets from a descriptor; none where it cannot be read. -/
def read (descriptor : Nat) (count : Option Nat) : Action (Except Fault Octets) := do
  let upTo (bs : Octets) : Octets := match count with
    | some n => bs.take n
    | none => bs
  match ← fileOf? descriptor with
  | none => return .error .badDescriptor
  | some (i, f) =>
    if !f.reads then return .error .badDescriptor
    match f.stream with
    | .nothing | .record _ => return .ok []
    | .pipe content =>
      let bs := upTo content
      setStream i (.pipe (content.drop bs.length))
      return .ok bs
    | .file location offset appends =>
      let bs := upTo ((← contentAt location).drop offset)
      setStream i (.file location (offset + bs.length) appends)
      return .ok bs
    | .folder => return .error .isDirectory

/-! ## Output of the shell -/

/-- Adds packed text to what the running command has to write. -/
def emit (text : String) : Action Unit :=
  modifyProcess fun p => { p with buffer := Text.unpack text :: p.buffer }

/-- Writes what the running command has to write, and tells whether that was possible. -/
def flush : Action Bool := do
  match (← process).buffer with
  | [] => return true
  | parts =>
    modifyProcess ({ · with buffer := [] })
    write 1 parts.reverse.flatten

def report (text : String) : Action Unit := do
  let _ ← write 2 (Text.unpack text)

def complain (message : String) : Action Unit := do
  let p ← process
  let command := match p.command with
    | some name => name ++ ": "
    | none => ""
  report (p.name ++ ": " ++ toString p.line ++ ": " ++ command ++ message ++ "\n")

def fault (message : String) : Action α := do
  setStatus 2
  complain message
  let _ ← flush
  throw .fault

end Action

end CodeIndex.Shell
