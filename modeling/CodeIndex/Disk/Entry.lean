import CodeIndex.Store.Database

/-! # Entries of a disk

A disk holds files, databases, links, folders, devices and programs. An entry is found by the names
on the way to it.
-/

namespace CodeIndex

/-- Where an entry is: the names on the way to it from the root of the disk. -/
abbrev Location := List String

/-- What can be run. -/
inductive Program where
  | shell
  /-- Copies files. -/
  | copier
  /-- Does nothing but succeed, or else fail. -/
  | constant (succeeds : Bool)
deriving DecidableEq, Repr

inductive Entry where
  | file (content : Text.Octets)
  | database (d : Database)
  /-- A path that stands for another entry. -/
  | link (target : String)
  | folder (entries : List (String × Entry))
  /-- What keeps nothing that is written to it. -/
  | device
  | program (p : Program)

namespace Entry

def entries : Entry → List (String × Entry)
  | folder es => es
  | _ => []

/-- The entry at a location below, following no links. -/
def at? (e : Entry) : Location → Option Entry
  | [] => some e
  | name :: names =>
    match e.entries.lookup name with
    | none => none
    | some below => below.at? names

/-- The entries with `new` under a name, or with nothing under it. -/
def withEntry (name : String) (new : Option Entry) :
    List (String × Entry) → List (String × Entry)
  | [] => new.toList.map (name, ·)
  | (other, e) :: es =>
    if other = name then new.toList.map (name, ·) ++ es else (other, e) :: withEntry name new es

/-- The entry with `new` at a location below, or with nothing there. Folders that are missing on
the way are made. -/
def change (e : Entry) (new : Option Entry) : Location → Entry
  | [] => new.getD e
  | [name] => folder (withEntry name new e.entries)
  | name :: names =>
    let below := (e.entries.lookup name).getD (folder [])
    folder (withEntry name (some (below.change new names)) e.entries)

mutual

def folderCount : Entry → Nat
  | folder es => folderCounts es + 1
  | _ => 0

def folderCounts : List (String × Entry) → Nat
  | [] => 0
  | (_, e) :: es => e.folderCount + folderCounts es

end

end Entry

end CodeIndex
