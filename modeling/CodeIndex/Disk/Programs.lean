import CodeIndex.Disk.Basic
import CodeIndex.Shell.Signal

/-! # Programs on a disk

Some program may be run in a folder of a disk and change the disk. What runs it stays open: nothing
is known of a program but how it ends and what it leaves behind.
-/

namespace CodeIndex

/-- What a program leaves behind. -/
structure Outcome where
  ending : Shell.Ending
  output : Text.Octets := []
  errors : Text.Octets := []
deriving DecidableEq, Repr

/-- What runs programs by their names, with arguments and in a folder. -/
class Programs where
  run (d : Disk) (folder : Location) (name : String) (args : List String) :
    Except Fault (Outcome × Disk)

end CodeIndex
