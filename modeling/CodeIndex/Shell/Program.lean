import CodeIndex.Disk.Programs
import CodeIndex.Shell.Run

/-! # Programs

A program that is run from outside has no input, and what it writes is kept. It is found by its name
in the folders for programs, or by a path, and it may change the disk.
-/

namespace CodeIndex.Shell

namespace Machine

/-- A machine with one process in the folder `cwd`. -/
def start (d : Disk) (cwd : Location) : Machine where
  world :=
    { disk := d, lastProcess := 2
      files :=
        #[{ stream := .nothing, reads := true, writes := false },
          { stream := .record [], reads := false, writes := true },
          { stream := .record [], reads := false, writes := true }] }
  process :=
    { number := 2, leader := 2, parent := 1, cwd, path := Builtin.pathOf cwd
      descriptors := [(0, 0), (1, 1), (2, 2)]
      bindings :=
        [("PATH", ⟨some Disk.programFolders, true, false⟩), ("HOME", ⟨some "/root", true, false⟩)] }

/-- What comes of an action, and the machine on which it has run. -/
def after (m : Machine) (action : Action α) : Except Interrupt α × Machine :=
  Id.run (StateT.run (ExceptT.run action) m)

def written (m : Machine) (file : Nat) : Text.Octets :=
  match (m.world.files[file]?).map OpenFile.stream with
  | some (.record parts) => parts.reverse.flatten
  | _ => []

end Machine

def programNamed (d : Disk) (cwd : Location) (name : String) : Except Fault Program :=
  let find : Action (Except Fault (String × Program)) :=
    Action.findProgram Disk.programFolders (Text.packed name)
  if !name.toList.contains '/' && Disk.maxName < name.utf8ByteSize then .error .nameTooLong
  else if name.isEmpty then .error .notFound
  else
    match ((Machine.start d cwd).after find).1 with
    | .ok (.ok (_, p)) => .ok p
    | .ok (.error fault) => .error fault
    | .error _ => .error .notFound

/-- Runs a program in the folder `cwd`, and gives what it has made of the disk. -/
def runProgram (d : Disk) (cwd : Location) (name : String) (args : List String) :
    Except Fault (Outcome × Disk) :=
  if (name :: args).any (·.toList.contains '\x00') then .error .nulInArgument
  else do
    let p ← programNamed d cwd name
    let run := Action.runner Action.maxDepth
    let action := Action.become run p (Text.packed name) (args.map Text.packed)
    let (result, m) := (Machine.start d cwd).after action
    let ending := match result with
      | .ok e | .error (.gone e) => e
      | .error _ => .exited 2
    return (⟨ending, m.written 1, m.written 2⟩, m.world.disk)

end CodeIndex.Shell
