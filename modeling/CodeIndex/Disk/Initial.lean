import CodeIndex.Disk.Basic

/-! # Disks with programs

Programs are kept in folders of their own, in which they are found by their names alone.
-/

namespace CodeIndex.Disk

/-- The paths of the folders in which programs are found, with colons between them. -/
def programFolders : String :=
  "/usr/local/sbin:/usr/local/bin:/usr/sbin:/usr/bin:/sbin:/bin"

/-- A disk that holds the programs, a device, and nothing else. -/
def initial : Disk where
  root := .folder
    [("bin", .link "usr/bin"),
      ("sbin", .link "usr/sbin"),
      ("dev", .folder [("null", .device)]),
      ("root", .folder []),
      ("tmp", .folder []),
      ("usr", .folder
        [("bin", .folder
            [("cat", .program .copier), ("dash", .program .shell),
              ("false", .program (.constant false)), ("sh", .link "dash"),
              ("true", .program (.constant true))]),
          ("local", .folder [("bin", .folder []), ("sbin", .folder [])]),
          ("sbin", .folder [])])]

end CodeIndex.Disk
