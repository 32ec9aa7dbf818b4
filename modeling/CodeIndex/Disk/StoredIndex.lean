import CodeIndex.Disk.Basic

/-! # Indexes on a disk

An index that is kept in a database on a disk is read from the rows of the database as it is open. A
rebuild replaces those rows and what the disk keeps of them, both or neither.
-/

namespace CodeIndex

/-- A database that is open, on its disk. -/
structure StoredIndex where
  disk : Disk
  opened : Disk.OpenDatabase

namespace StoredIndex

def ofAddress (d : Disk) (cwd : Location) (text : String) : Except StoreFault StoredIndex := do
  let (disk, opened) ← d.openDatabase cwd text
  return { disk, opened }

def save (s : StoredIndex) (rows : Database) : Except Error StoredIndex :=
  match s.opened.save s.disk rows with
  | .ok disk => .ok { disk, opened := { s.opened with rows } }
  | .error fault => Database.faulty fault

instance : IndexStore StoredIndex where
  reader s := IndexStore.reader s.opened.rows
  rebuild s files := do
    let (rows, stats) ← IndexStore.rebuild s.opened.rows files
    return (← s.save rows, stats)

end StoredIndex

end CodeIndex
