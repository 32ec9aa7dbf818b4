import CodeIndex.Shell.Format
import CodeIndex.Shell.Options
import CodeIndex.Shell.Test

/-! # Commands that write or ask

Each of these commands gives its status.
-/

namespace CodeIndex.Shell.Builtin

open Shell.Action

/-- Writes arguments with blanks between them; one of them may end all output. -/
def echoFrom : List String → String → Action Unit
  | [], last => emit last
  | arg :: rest, last => do
    let (cs, ends) := Format.unescaped arg
    emit (String.ofList cs)
    if ends then return ()
    if rest.isEmpty then emit last
    else
      emit " "
      echoFrom rest last

def echo (args : List String) : Action Nat := do
  match args with
  | "-n" :: rest => echoFrom rest ""
  | _ => echoFrom args "\n"
  return 0

def printf (args : List String) : Action Nat := do
  match ← withoutOptions args with
  | [] => fault "usage: printf format [arg ...]"
  | format :: args =>
    let r := Format.result format args
    emit r.output
    for complaint in r.complaints do complain complaint
    match r.refusal with
    | some message => fault message
    | none => return if r.complaints.isEmpty then 0 else 1

/-- Whether a condition holds; one behind a bracket has to be closed by an argument that begins with
another one. -/
def test (name : String) (args : List String) : Action Nat := do
  let holds ←
    if name = "[" then
      if args.getLast?.any (·.startsWith "]") then Test.condition args.dropLast
      else fault "missing ]"
    else Test.condition args
  return if holds then 0 else 1

def pathOf (location : Location) : String :=
  "/" ++ "/".intercalate (location.map Text.packed)

/-- Whether the last of the options in question asks for paths without links. -/
def isPhysical (options : List (Char × String)) : Bool :=
  options.getLast?.any (·.1 == 'P')

def workingFolder (args : List String) : Action Nat := do
  let (options, _) ← options { plain := "LP" } args
  let p ← process
  emit ((if isPhysical options then pathOf p.cwd else p.path) ++ "\n")
  return 0

/-- The path of a folder without the names that lead nowhere. -/
def tidied (names : List String) : List String :=
  (names.foldl (fun (kept : List String) name =>
    if name = "" ∨ name = "." then kept
    else if name = ".." then kept.drop 1
    else name :: kept) []).reverse

/-- The path that leads from one folder to another by the names alone. -/
def resolved (base path : String) : String :=
  let slashes := (path.toList.takeWhile (· = '/')).length
  let start := if 0 < slashes then [] else Path.names base
  (if slashes = 2 || (slashes = 0 && base.startsWith "//") then "//" else "/")
    ++ "/".intercalate (tidied (start ++ Path.names path))

/-- Enters a folder, and tells whether that was possible. -/
def enter (path : String) (physical : Bool) : Action Bool := do
  let m ← get
  let path := if physical then path else resolved m.process.path path
  match Text.unpacked? path with
  | none => return false
  | some file =>
    match m.world.disk.list m.process.cwd file with
    | .error _ => return false
    | .ok (location, _) =>
      let new := if physical then pathOf location else path
      assign "OLDPWD" m.process.path true
      modifyProcess ({ · with cwd := location, path := new })
      assign "PWD" new true
      return true

def isAnchored (path : String) : Bool :=
  Path.isAbsolute path || [some ".", some ".."].contains (Path.names path).head?

/-- The paths of a folder under the folders in a list of paths. -/
def candidates (list path : String) : List (String × Bool) :=
  (Text.segments ':' list.toList).map fun folder =>
    (Path.join (String.ofList folder) path, !folder.isEmpty)

def changeFolder (args : List String) : Action Nat := do
  let (options, args) ← options { plain := "LP" } args
  let physical := isPhysical options
  let (path, shows) ← match args.head? with
    | none => pure ((← valueOf "HOME"), false)
    | some "-" => pure ((← valueOf "OLDPWD"), true)
    | some path => pure (path, false)
  let m ← get
  let isFolder (path : String) : Bool :=
    (Text.unpacked? path).any fun file => (m.world.disk.list m.process.cwd file).toOption.isSome
  let named := if path.isEmpty then "." else path
  let places := candidates (← valueOf "CDPATH") named
  let found := if isAnchored path then none else places.find? fun (p, _) => isFolder p
  let (target, shown) := found.getD (path, false)
  unless ← enter target physical do fault ("can't cd to " ++ path)
  if shows || shown then emit ((← process).path ++ "\n")
  return 0

end CodeIndex.Shell.Builtin
