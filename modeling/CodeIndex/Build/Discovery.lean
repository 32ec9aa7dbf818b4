import CodeIndex.Build.Report
import CodeIndex.Disk.Basic
import CodeIndex.Error
import CodeIndex.Settings.Basic

/-! # Discovery

A walk through a repository finds the files that settings want indexed. It takes the entries of
every folder in the order of their names, and passes over the folders below the repository whose
names are excluded. Links are followed only where the settings say so; a link that leads back to a
folder that the walk is in is reported and not followed. Whatever the walk cannot read is reported
as well.
-/

namespace CodeIndex

/-- What a walk found. -/
structure Discovery where
  /-- The paths of the files below the repository, in order. -/
  files : List String := []
  failures : List BuildFailure := []
deriving DecidableEq, Repr

namespace Discovery

/-- One thing that a walk meets, under the names on the way to it from the repository. -/
inductive Finding where
  | file (names : List String)
  | unreadable (names : List String) (message : String)
deriving DecidableEq, Repr

def pathOf (names : List String) : String :=
  "/".intercalate names

def Finding.file? : Finding → Option String
  | .file names => some (pathOf names)
  | .unreadable .. => none

def Finding.failure? : Finding → Option BuildFailure
  | .file _ => none
  | .unreadable names message =>
    some ⟨pathOf names, Error.display { cause := .walk message }⟩

/-- The files that findings name, in order, and the failures as they came. -/
def ofFindings (findings : List Finding) : Discovery where
  files := (findings.filterMap Finding.file?).mergeSort (· ≤ ·)
  failures := findings.filterMap Finding.failure?

/-- The lists of named lists in the order of the names. -/
def inNameOrder (named : List (String × List α)) : List α :=
  (named.mergeSort fun a b => a.1 ≤ b.1).flatMap (·.2)

/-- A folder that a walk is in: the names by which it was reached, and where it is. -/
structure Place where
  names : List String
  location : Location

/-- The folders that a walk is in, from the innermost one on. -/
abbrev Trail := List Place

/-- What a walk depends on. -/
structure Walk where
  settings : Settings
  disk : Disk
  /-- The folder from which relative paths lead. -/
  cwd : Location
  /-- The path of the repository. -/
  repository : String

namespace Walk

variable (w : Walk)

def fullPath (names : List String) : String :=
  names.foldl Path.join w.repository

def indexes (name : String) : Bool :=
  (Path.extension? name).any w.settings.indexes

def fileFindings (names : List String) (name : String) : List Finding :=
  if w.indexes name then [.file names] else []

def linkFindings (enter : Trail → List (String × Entry) → List Finding) (trail : Trail)
    (names : List String) (name : String) : List Finding :=
  let path := w.fullPath names
  match w.disk.locate w.cwd path with
  | .error fault =>
    [.unreadable names ("IO error for operation on " ++ path ++ ": " ++ fault.message)]
  | .ok (location, .folder entries) =>
    match trail.find? (·.location == location) with
    | some above =>
      [.unreadable names
        ("File system loop found: " ++ path ++ " points to an ancestor "
          ++ w.fullPath above.names)]
    | none =>
      if w.settings.excludes name then [] else enter (⟨names, location⟩ :: trail) entries
  | .ok (_, .device) => []
  | .ok _ => w.fileFindings names name

mutual

/-- What is found in the entry of a name in the folder `here`. Folders behind links are entered by
`enter`. -/
def entryFindings (enter : Trail → List (String × Entry) → List Finding) (here : Place)
    (trail : Trail) (name : String) : Entry → List Finding
  | .folder entries =>
    if w.settings.excludes name then []
    else
      let below : Place := ⟨here.names ++ [name], here.location ++ [name]⟩
      inNameOrder (entriesFindings enter below (here :: trail) entries)
  | .link _ =>
    if w.settings.followLinks then
      w.linkFindings enter (here :: trail) (here.names ++ [name]) name
    else []
  | .device => []
  | _ => w.fileFindings (here.names ++ [name]) name

/-- What is found in each entry of the folder `here`. -/
def entriesFindings (enter : Trail → List (String × Entry) → List Finding) (here : Place)
    (trail : Trail) : List (String × Entry) → List (String × List Finding)
  | [] => []
  | (name, e) :: es =>
    (name, entryFindings enter here trail name e) :: entriesFindings enter here trail es

end

/-- What is found in the innermost folder of a trail, when at most `n` folders are entered other
than from the folder that holds them. Folders entered so are never the same while the walk is in
them, so that the number of folders on the disk is enough. -/
def findings : Nat → Trail → List (String × Entry) → List Finding
  | 0, _, _ | _, [], _ => []
  | n + 1, here :: trail, entries =>
    inNameOrder (w.entriesFindings (findings n) here trail entries)

end Walk

end Discovery

/-- The files of a repository that settings want indexed. Only a repository that cannot be read at
all is an error. -/
def Disk.discover (d : Disk) (settings : Settings) (cwd : Location) (repository : String) :
    Except Error Discovery :=
  match d.list cwd repository with
  | .error fault => .error { cause := .unreadableRoot fault, file := some repository }
  | .ok (location, entries) =>
    let w : Discovery.Walk := ⟨settings, d, cwd, repository⟩
    .ok (.ofFindings (w.findings (d.root.folderCount + 1) [⟨[], location⟩] entries))

end CodeIndex
