import CodeIndex.Shell.Variables

/-! # Descriptors

A redirection opens a file, or makes a descriptor another name of one that is open. Some paths stand
for descriptors themselves.
-/

namespace CodeIndex.Shell

/-- What a file is opened for. -/
inductive Opening where
  | reading
  /-- The content is replaced; a file that is there may have to stay. -/
  | writing (keeps : Bool)
  | appending
  | both
deriving DecidableEq, Repr

namespace Opening

def writes : Opening → Bool
  | reading => false
  | _ => true

def reads : Opening → Bool
  | reading | both => true
  | _ => false

end Opening

def descriptorOf? (path : String) : Option Nat :=
  match path with
  | "/dev/stdin" => some 0
  | "/dev/stdout" => some 1
  | "/dev/stderr" => some 2
  | _ =>
    match Path.names path with
    | ["", "dev", "fd", n] | ["", "proc", "self", "fd", n] => Text.natOfDigits? n.toList
    | _ => none

namespace Action

/-- What is connected to an entry at a location when it is opened. -/
def streamAt (location : Location) (e : Option Entry) (opening : Opening) :
    Action (Except Fault Stream) := do
  let put (content : Text.Octets) : Action Unit :=
    modifyWorld fun w => { w with disk := w.disk.put location (.file content) }
  match e with
  | some (.folder _) => return if opening.writes then .error .isDirectory else .ok .folder
  | some .device => return .ok .nothing
  | some (.link _) => return .error .tooManyLinks
  | some _ =>
    match opening with
    | .writing true => return .error .alreadyThere
    | .writing false => put []
    | _ => pure ()
  | none =>
    unless opening.writes do return .error .notFound
    put []
  return .ok (.file location 0 (opening = .appending))

def openPath (path : String) (opening : Opening) : Action (Except Fault OpenFile) := do
  let m ← get
  let file (s : Except Fault Stream) : Except Fault OpenFile :=
    s.map fun stream => { stream, reads := opening.reads, writes := opening.writes }
  match descriptorOf? path with
  | some n =>
    match ← fileOf? n with
    | none => return .error .notFound
    | some (_, f) =>
      match f.stream with
      | .file location _ _ =>
        return file (← streamAt location (m.world.disk.root.at? location) opening)
      | stream => return .ok { f with stream }
  | none =>
    match Text.unpacked? path with
    | none => return if opening.writes then file (.ok .nothing) else .error .notFound
    | some path =>
      let found : Except Fault (Location × Option Entry) :=
        if opening = .reading then
          (m.world.disk.locate m.process.cwd path).map fun (location, e) => (location, some e)
        else m.world.disk.place m.process.cwd path
      match found with
      | .error fault => return .error fault
      | .ok (location, e) => return file (← streamAt location e opening)

/-- The open file that a path or a descriptor leads to. -/
def openShared (path : String) (opening : Opening) : Action (Except Fault Nat) := do
  match descriptorOf? path with
  | some n =>
    match ← fileOf? n with
    | some (i, { stream := .file .., .. }) =>
      match ← openPath path opening with
      | .ok f => return .ok (← openFile f)
      | .error _ => return .ok i
    | some (i, _) => return .ok i
    | none => return .error .notFound
  | none =>
    match ← openPath path opening with
    | .ok f => return .ok (← openFile f)
    | .error fault => return .error fault

def spareDescriptor : Nat := 255

def withDescriptor (file : Nat) (action : Nat → Action α) : Action α := do
  connect spareDescriptor (some file)
  always (connect spareDescriptor none) (action spareDescriptor)

def withFile (path : String) (action : Nat → Action α) : Action (Except Fault α) := do
  match ← openShared path .reading with
  | .error fault => return .error fault
  | .ok file => return .ok (← withDescriptor file action)

/-- Why a file cannot be opened, in the words of the shell. -/
def reasonFor (opening : Opening) (fault : Fault) : String :=
  match fault with
  | .notFound | .notDirectory => if opening.writes then "Directory nonexistent" else "No such file"
  | fault => fault.reason

def openTarget (path : String) (opening : Opening) : Action Nat := do
  match ← openShared path opening with
  | .ok i => return i
  | .error reason =>
    let attempt := if opening.writes then "create" else "open"
    fault ("cannot " ++ attempt ++ " " ++ path ++ ": " ++ reasonFor opening reason)

/-- A redirection whose target is known. -/
structure Turn where
  descriptor : Nat
  direction : Direction
  /-- What gives the text of the target, or of a document. -/
  target : Action String

def turn (t : Turn) : Action Unit := do
  let target ← t.target
  let opened (opening : Opening) : Action Unit := do
    connect t.descriptor (some (← openTarget target opening))
  match t.direction with
  | .input => opened .reading
  | .output => opened (.writing (← hasOption 'C'))
  | .replace => opened (.writing false)
  | .append => opened .appending
  | .both => opened .both
  | .document .. =>
    let content := Text.unpack target
    let file ← openFile { stream := .pipe content, reads := true, writes := false }
    connect t.descriptor (some file)
  | .duplicate =>
    if target = "-" then connect t.descriptor none
    else
      match ← fileOf? ((Text.natOfDigits? target.toList).getD 0) with
      | none => fault (target ++ ": " ++ Fault.badDescriptor.reason)
      | some (i, _) => connect t.descriptor (some i)

/-- Turns descriptors, and gives a status for whether that was possible. -/
def turnAll (turns : List Turn) : Action Nat := do
  match ← attempt (turns.forM turn) with
  | .ok () => return 0
  | .error .fault => return 2
  | .error i => throw i

def connections (turns : List Turn) : Action (List (Nat × Option Nat)) := do
  let p ← process
  return turns.map fun t => (t.descriptor, p.descriptors.lookup t.descriptor)

def reconnect (before : List (Nat × Option Nat)) : Action Unit :=
  before.forM fun (descriptor, file) => connect descriptor file

end Action

end CodeIndex.Shell
