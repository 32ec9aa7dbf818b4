import CodeIndex.Disk.DatabaseAddress
import CodeIndex.Disk.Entry
import CodeIndex.Disk.Path

/-! # Disks

An entry is found from a folder by a path: links on the way are followed, up to a limit, and every
name but the last has to lead to a folder. What a disk cannot give it refuses with the fault that
says why.
-/

namespace CodeIndex

structure Disk where
  root : Entry := .folder []

namespace Disk

/-- How many links may be followed on the way to one entry. -/
def maxLinks : Nat := 40

def maxName : Nat := 255

def maxPath : Nat := 4095

/-- The entry that names lead to from the folder `here`, with at most `links` links on the way. A
link in last place is followed only where `followLast` says so. -/
def follow (d : Disk) (followLast : Bool) (links : Nat) (here : Location) (names : List String) :
    Except Fault (Location × Entry) :=
  match d.root.at? here, names with
  | none, _ => .error .notFound
  | some e, [] => .ok (here, e)
  | some (.folder entries), name :: rest =>
    if name = "" ∨ name = "." then d.follow followLast links here rest
    else if name = ".." then d.follow followLast links here.dropLast rest
    else if maxName < name.utf8ByteSize then .error .nameTooLong
    else
      match entries.lookup name, links with
      | none, _ => .error .notFound
      | some (.link target), links =>
        if rest.isEmpty && !followLast then .ok (here ++ [name], .link target)
        else
          match links with
          | 0 => .error .tooManyLinks
          | links + 1 =>
            d.follow followLast links (if Path.isAbsolute target then [] else here)
              (Path.names target ++ rest)
      | some _, links => d.follow followLast links (here ++ [name]) rest
  | some _, _ :: _ => .error .notDirectory
termination_by (links, names.length)

/-- The entry that a path leads to from the folder `cwd`, and where it is. -/
def locate (d : Disk) (cwd : Location) (path : String) (followLast : Bool := true) :
    Except Fault (Location × Entry) :=
  if path.toList.contains '\x00' then .error .nulInPath
  else if path.isEmpty then .error .notFound
  else if maxPath < path.utf8ByteSize then .error .nameTooLong
  else d.follow followLast maxLinks (if Path.isAbsolute path then [] else cwd) (Path.names path)

/-! ## Reading -/

def databaseHeader : Text.Octets :=
  Text.octets "SQLite format 3\x00"

def programHeader : Text.Octets :=
  Text.octets "\x7fELF"

def read (d : Disk) (cwd : Location) (path : String) : Except Fault Text.Octets := do
  match ← d.locate cwd path with
  | (_, .file content) => return content
  | (_, .database _) => return databaseHeader
  | (_, .device) => return []
  | (_, .program _) => return programHeader
  | (_, .folder _) => .error .isDirectory
  | (_, .link _) => .error .tooManyLinks

def readText (d : Disk) (cwd : Location) (path : String) : Except Fault String := do
  match Text.ofOctets? (← d.read cwd path) with
  | some text => return text
  | none => .error .notText

def list (d : Disk) (cwd : Location) (path : String) :
    Except Fault (Location × List (String × Entry)) := do
  match ← d.locate cwd path with
  | (location, .folder entries) => return (location, entries)
  | _ => .error .notDirectory

/-! ## Writing -/

/-- Where a file under a path is kept or would be kept, from the folder `here`. A link in last place
leads on, also where there is nothing behind it. -/
def placeFrom (d : Disk) : Nat → Location → String → Except Fault (Location × Option Entry)
  | 0, _, _ => .error .tooManyLinks
  | links + 1, here, path =>
    let start : Location := if Path.isAbsolute path then [] else here
    match d.follow false maxLinks start (Path.names path) with
    | .ok (location, .link target) => d.placeFrom links location.dropLast target
    | .ok (location, e) => .ok (location, some e)
    | .error .notFound =>
      let names := (Path.names path).reverse.dropWhile (· = "")
      match d.follow true maxLinks start (names.drop 1).reverse, names.head? with
      | .ok (location, .folder _), some name =>
        if (Path.names path).getLast? = some "" then .error .isDirectory
        else .ok (location ++ [name], none)
      | .ok _, _ => .error .notDirectory
      | .error fault, _ => .error fault
    | .error fault => .error fault

/-- Where a file under a path is kept or would be kept, and the entry if there is one. -/
def place (d : Disk) (cwd : Location) (path : String) : Except Fault (Location × Option Entry) :=
  if path.isEmpty then .error .notFound
  else if maxPath < path.utf8ByteSize then .error .nameTooLong
  else d.placeFrom maxLinks cwd path

def put (d : Disk) (location : Location) (e : Entry) : Disk :=
  ⟨d.root.change (some e) location⟩

/-- Where a path leads from `cwd`, whether or not there is an entry. -/
def target (d : Disk) (cwd : Location) (path : String) : Location :=
  (Path.names path).foldl (fun here name =>
    if name = "" ∨ name = "." then here
    else if name = ".." then here.dropLast
    else
      match d.follow true maxLinks here [name] with
      | .ok (location, _) => location
      | .error _ => here ++ [name]) (if Path.isAbsolute path then [] else cwd)

/-- Writes an entry under a path, making the folders on the way. -/
def write (d : Disk) (cwd : Location) (path : String) (e : Entry) : Disk :=
  d.put (d.target cwd path) e

/-- Removes the entry under a path; a link is removed rather than what it stands for. -/
def remove (d : Disk) (cwd : Location) (path : String) : Disk :=
  match d.locate cwd path false with
  | .ok (location, _) => ⟨d.root.change none location⟩
  | .error _ => d

/-! ## Databases -/

/-- How many links may be followed on the way to a database. -/
def maxDatabaseLinks : Nat := 200

/-- Where names lead from the folder `here` when links are followed and nothing needs to be
there. -/
def wayTo (d : Disk) (links : Nat) (here : Location) (names : List String) : Option Location :=
  match names with
  | [] => some here
  | name :: rest =>
    if name = "" ∨ name = "." then d.wayTo links here rest
    else if name = ".." then d.wayTo links here.dropLast rest
    else if maxName < name.utf8ByteSize then none
    else
      match d.root.at? here, d.root.at? (here ++ [name]), links with
      | some (.folder _), some (.link _), 0 => none
      | some (.folder _), some (.link target), links + 1 =>
        d.wayTo links (if Path.isAbsolute target then [] else here) (Path.names target ++ rest)
      | some (.folder _), _, links | none, _, links => d.wayTo links (here ++ [name]) rest
      | some _, _, _ => none
termination_by (links, names.length)

/-- A database that has been opened. -/
structure OpenDatabase where
  rows : Database := {}
  /-- Where it is kept. -/
  location : Option Location := none
  /-- Whether it may not be changed. -/
  fixed : Bool := false

/-- Opens the database that is kept at a location. An empty file becomes a database. -/
def openAt (d : Disk) (a : DatabaseAddress) (location : Location) :
    Except StoreFault (Disk × OpenDatabase) :=
  let fixed := a.access == .readOnly
  let fresh : Except StoreFault (Disk × OpenDatabase) :=
    if fixed then .error .notWritable
    else .ok (d.put location (.database {}), { location := some location })
  match d.root.at? location.dropLast, d.root.at? location with
  | _, some (.database rows) => .ok (d, { rows, location := some location, fixed })
  | _, some (.file []) | _, some (.file [_]) => fresh
  | some (.folder _), none => if a.access == .any then fresh else .error (.cannotOpen a.path)
  | _, some (.file _) => .error .notADatabase
  | _, _ => .error (.cannotOpen a.path)

def openDatabase (d : Disk) (cwd : Location) (text : String) :
    Except StoreFault (Disk × OpenDatabase) :=
  match DatabaseAddress.ofText? text with
  | none => .error (.cannotOpen text)
  | some a =>
    if a.isTransient then .ok (d, {})
    else
      match d.wayTo maxDatabaseLinks (if Path.isAbsolute a.path then [] else cwd)
          (Path.names a.path) with
      | none => .error (.cannotOpen a.path)
      | some location => d.openAt a location

def OpenDatabase.save (o : OpenDatabase) (d : Disk) (rows : Database) : Except StoreFault Disk :=
  if o.fixed then .error .notWritable
  else
    match o.location with
    | some location => .ok (d.put location (.database rows))
    | none => .ok d

end Disk

end CodeIndex
