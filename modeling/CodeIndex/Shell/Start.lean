import CodeIndex.Shell.Cat
import CodeIndex.Shell.Lookup
import CodeIndex.Shell.Script

/-! # Running programs

A program that is run takes the place of the process. The shell then starts anew: it has the
variables that have been handed on to it, and the script is given by its arguments.
-/

namespace CodeIndex.Shell

namespace Action

def baseVariables (parent : Nat) : List (String × Variable) :=
  [("IFS", " \t\n"), ("OPTIND", "1"), ("PATH", Disk.programFolders), ("PPID", toString parent),
    ("PS1", "# "), ("PS2", "> "), ("PS4", "+ ")].map fun (name, value) =>
      (name, ⟨some value, false, false⟩)

/-- The path by which the folder of the process was entered, if that is known. -/
def enteredPath (bindings : List (String × Variable)) : Action String := do
  let m ← get
  let p := m.process
  let known := ((bindings.lookup "PWD").bind Variable.value).filter Path.isAbsolute
  let leads (path : String) : Bool :=
    (Text.unpacked? path).any fun path =>
      (m.world.disk.list p.cwd path).toOption.any fun (location, _) => location = p.cwd
  return (known.filter leads).getD (Builtin.pathOf p.cwd)

/-- The variables of a shell that others have been handed on to. -/
def inherited (base handedOn : List (String × Variable)) : List (String × Variable) :=
  let own := ["IFS", "OPTIND", "PPID"]
  let kept := handedOn.filter fun (name, _) => isName name && !own.contains name
  kept ++ base.filter fun (name, _) => (kept.lookup name).isNone

def becomeShell (name : String) : Action Unit := do
  let p ← process
  let handedOn := p.bindings.filter fun (_, v) => v.isExported && v.value.isSome
  let handedOn := handedOn.map fun (name, v) => (name, { v with isReadOnly := false })
  let path ← enteredPath handedOn
  modifyProcess fun p =>
    { number := p.number, leader := p.number, parent := p.parent, waiting := p.waiting
      mask := p.mask, cwd := p.cwd, path, descriptors := p.descriptors, name
      traps := p.traps.filter (·.2.isEmpty)
      bindings := inherited (baseVariables p.parent) handedOn }
  putVariable "PWD" (some ⟨some path, true, false⟩)

/-- The content that a file gives for a script; a folder gives none. -/
def scriptContent (descriptor : Nat) : Action Text.Octets := do
  match ← read descriptor none with
  | .ok content => return content
  | .error _ => return []

/-- Runs the script that the arguments of a shell ask for. -/
def runArguments (run : Runner) (args : List String) : Action Unit := do
  let a ← setOptions true args
  let fromInput : Action Unit := do
    let _ ← runContent run (← scriptContent 0)
  if a.hasScript then
    match a.rest with
    | [] => fault "-c requires an argument"
    | script :: rest =>
      modifyProcess fun p => { p with name := rest.head?.getD p.name, args := rest.drop 1 }
      let _ ← runText run {} script
      if ← hasOption 's' then fromInput
  else
    match a.rest, ← hasOption 's' with
    | [], _ =>
      setOption 's' true
      fromInput
    | rest, true =>
      modifyProcess ({ · with args := rest })
      fromInput
    | path :: rest, false =>
      match ← withFile path scriptContent with
      | .error reason => fault ("cannot open " ++ path ++ ": " ++ reasonFor .reading reason)
      | .ok content =>
        modifyProcess ({ · with name := path, args := rest })
        let _ ← runContent run content

def become (run : Runner) (p : Program) (name : String) (args : List String) : Action Ending := do
  match p with
  | .copier =>
    match ← attempt (Cat.run name args) with
    | .ok status => return .exited status
    | .error (.gone e) => return e
    | .error _ => return .exited 1
  | .constant succeeds => return .exited (if succeeds then 0 else 1)
  | .shell =>
    becomeShell name
    endShell run (← attempt (runArguments run args))

end Action

end CodeIndex.Shell
