/-! # Faults of a file system -/

namespace CodeIndex

/-- Why a path cannot be read. -/
inductive Fault where
  | notFound
  | denied
  | notDirectory
  | isDirectory
  | nameTooLong
  | tooManyLinks
  /-- A descriptor leads nowhere. -/
  | badDescriptor
  /-- There is something where nothing should be. -/
  | alreadyThere
  /-- The path holds a character that no path may hold. -/
  | nulInPath
  /-- An argument of a program holds a character that no argument may hold. -/
  | nulInArgument
  /-- The content is no text. -/
  | notText
deriving DecidableEq, Repr

namespace Fault

def reason : Fault → String
  | .notFound => "No such file or directory"
  | .denied => "Permission denied"
  | .notDirectory => "Not a directory"
  | .isDirectory => "Is a directory"
  | .nameTooLong => "File name too long"
  | .tooManyLinks => "Too many levels of symbolic links"
  | .badDescriptor => "Bad file descriptor"
  | .alreadyThere => "File exists"
  | .nulInPath => "file name contained an unexpected NUL byte"
  | .nulInArgument => "nul byte found in provided data"
  | .notText => "stream did not contain valid UTF-8"

/-- The number that the system gives to a fault of its own. -/
def number? : Fault → Option Nat
  | .notFound => some 2
  | .badDescriptor => some 9
  | .alreadyThere => some 17
  | .denied => some 13
  | .notDirectory => some 20
  | .isDirectory => some 21
  | .nameTooLong => some 36
  | .tooManyLinks => some 40
  | .nulInPath | .nulInArgument | .notText => none

def message (f : Fault) : String :=
  match f.number? with
  | some n => f.reason ++ " (os error " ++ toString n ++ ")"
  | none => f.reason

end Fault

end CodeIndex
