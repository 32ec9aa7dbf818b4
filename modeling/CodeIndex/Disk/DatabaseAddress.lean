import CodeIndex.Text.Octet
import CodeIndex.Text.Repaired
import CodeIndex.Text.Segments

/-! # Addresses of databases

A database is named by its path, or by an address that begins with `file:` and may say behind a
question mark how the database is opened. In an address an octet may be given by its number behind
a percent sign; what follows a NUL octet in a part of an address does not count.
-/

namespace CodeIndex

/-- How a database is opened. -/
inductive Access where
  | readOnly
  | existing
  /-- A database that is missing is made. -/
  | any
  /-- The database is kept nowhere. -/
  | memory
deriving DecidableEq, Repr

namespace Access

/-- Whether an address that allows `before` may go on to ask for `wanted`. -/
def allows (before wanted : Access) : Bool :=
  match before, wanted with
  | _, .memory | .any, _ => true
  | .existing, .readOnly | .existing, .existing => true
  | .readOnly, .readOnly => true
  | _, _ => false

end Access

/-- The path of a database and how it is opened. -/
structure DatabaseAddress where
  path : String
  access : Access := .any
deriving DecidableEq, Repr

namespace DatabaseAddress

def decode : Text.Octets → Text.Octets
  | [] => []
  | [b] => [b]
  | [b, c] => [b, c]
  | b :: c :: d :: rest =>
    match b, Text.Octet.hexDigit? c, Text.Octet.hexDigit? d with
    | 0x25, some m, some n =>
      if m = 0 ∧ n = 0 then [] else UInt8.ofNat (16 * m + n) :: decode rest
    | _, _, _ => b :: decode (c :: d :: rest)

def decoded (cs : List Char) : String :=
  Text.repaired (decode (Text.octets (String.ofList cs)))

/-- What comes before the first character `c`, and what comes after it. -/
def splitAt (c : Char) (cs : List Char) : List Char × List Char :=
  (cs.takeWhile (· ≠ c), (cs.dropWhile (· ≠ c)).drop 1)

/-- The options behind the question mark, with their values. -/
def options (cs : List Char) : List (String × String) :=
  ((Text.segments '&' cs).map fun option =>
    let (name, value) := splitAt '=' option
    (decoded name, decoded value)).filter fun (name, _) => !name.isEmpty

def access? : String → Option Access
  | "ro" => some .readOnly
  | "rw" => some .existing
  | "rwc" => some .any
  | "memory" => some .memory
  | _ => none

/-- The ways of keeping files that an option may name. -/
def keepers : List String :=
  ["unix", "unix-dotfile", "unix-excl", "unix-none"]

/-- The access after an option, if the option is acceptable. -/
def choose? (before : Access) : String × String → Option Access
  | ("mode", value) =>
    (access? value).bind fun wanted => if before.allows wanted then some wanted else none
  | ("cache", value) => if value = "shared" ∨ value = "private" then some before else none
  | ("vfs", value) =>
    if keepers.contains value then some before
    else if value = "memdb" then some .memory
    else none
  | ("immutable", value) =>
    if ["0", "no", "off", "false"].contains value || before = .memory then some before
    else some .readOnly
  | _ => some before

/-- The path behind the authority, which may only be this machine. -/
def withoutAuthority? : List Char → Option (List Char)
  | '/' :: '/' :: rest =>
    let (host, path) := rest.span (· ≠ '/')
    if host.isEmpty || String.ofList host = "localhost" then some path else none
  | path => some path

/-- The address that a text gives, if it gives one. -/
def ofText? (text : String) : Option DatabaseAddress :=
  match text.toList with
  | 'f' :: 'i' :: 'l' :: 'e' :: ':' :: rest => do
    let rest ← withoutAuthority? (rest.takeWhile (· ≠ '#'))
    let (path, query) := splitAt '?' rest
    let access ← (options query).foldlM choose? .any
    return { path := decoded path, access }
  | _ => some { path := text }

def memoryPath : String := ":memory:"

/-- Whether the database is kept nowhere. -/
def isTransient (a : DatabaseAddress) : Bool :=
  a.access == .memory || a.path == memoryPath || a.path.isEmpty

end DatabaseAddress

end CodeIndex
