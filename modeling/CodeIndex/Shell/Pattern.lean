import CodeIndex.Disk.Basic
import CodeIndex.Text.Packed

/-! # Patterns of names

In a pattern a star stands for any characters, a question mark for one of them, and brackets for
one out of a list. A character that is quoted stands for itself.
-/

namespace CodeIndex.Shell

/-- A character, and whether it is quoted. -/
structure Mark where
  char : Char
  quoted : Bool := false
deriving DecidableEq, Repr

abbrev Pattern := List Mark

def Mark.is (m : Mark) (c : Char) : Bool :=
  m.char == c && !m.quoted

namespace Pattern

/-- The pattern that is written with a backslash in front of each quoted character. -/
def ofText : List Char → Pattern
  | '\\' :: c :: cs => ⟨c, true⟩ :: ofText cs
  | c :: cs => ⟨c, c == '\\'⟩ :: ofText cs
  | [] => []

def text (p : Pattern) : String :=
  String.ofList (p.map Mark.char)

/-! ## Matching -/

/-- The kinds of characters that have names between brackets. -/
def kinds : List (String × (Char → Bool)) :=
  [("alnum", Char.isAlphanum), ("alpha", Char.isAlpha), ("blank", fun c => c == ' ' || c == '\t'),
    ("cntrl", fun c => c.toNat < 32 || c.toNat == 127), ("digit", Char.isDigit),
    ("graph", fun c => 33 ≤ c.toNat && c.toNat < 127), ("lower", Char.isLower),
    ("print", fun c => 32 ≤ c.toNat && c.toNat < 127),
    ("punct", fun c => 33 ≤ c.toNat && c.toNat < 127 && !c.isAlphanum),
    ("space", fun c => " \t\n\x0b\x0c\r".toList.contains c), ("upper", Char.isUpper),
    ("xdigit", fun c => c.isDigit || ('a' ≤ c && c ≤ 'f') || ('A' ≤ c && c ≤ 'F'))]

/-- The name of a kind up to a colon and a closing bracket, and what follows them. -/
def kindName? : Pattern → Option (List Char × Pattern)
  | [] | [_] => none
  | m :: b :: rest =>
    if m.char = ':' && b.char = ']' then some ([], rest)
    else (kindName? (b :: rest)).map fun (name, after) => (m.char :: name, after)

/-- The kind behind an opening bracket in a list, and what follows it. -/
def kind? : Pattern → Option ((Char → Bool) × Pattern)
  | m :: rest =>
    if m.is ':' then do
      let (name, after) ← kindName? rest
      return (← kinds.lookup (String.ofList name), after)
    else none
  | [] => none

/-- Whether a character is in the list that goes on up to a closing bracket, and what follows that
bracket; none where the list is not closed. The first character of a list does not close it. -/
def listed? (x : Char) : Nat → Bool → Pattern → Option (Bool × Pattern)
  | 0, _, _ | _, _, [] => none
  | n + 1, isFirst, m :: rest =>
    let goOn (found : Bool) (rest : Pattern) : Option (Bool × Pattern) := do
      let (more, after) ← listed? x n false rest
      return (found || more, after)
    if m.is ']' && !isFirst then some (false, rest)
    else
      match if m.is '[' then kind? rest else none with
      | some (holds, after) => goOn (holds x) after
      | none =>
        match rest with
        | dash :: high :: after =>
          if dash.is '-' && !high.is ']' then goOn (m.char ≤ x && x ≤ high.char) after
          else goOn (m.char == x) rest
        | _ => goOn (m.char == x) rest

/-- Whether a character fits the brackets at the beginning of a pattern, behind which `p` goes on,
and what follows them. The list may be one of exceptions. -/
def admits? (x : Char) (p : Pattern) : Option (Bool × Pattern) :=
  let (isExcepting, rest) := match p with
    | m :: rest => if m.is '!' then (true, rest) else (false, p)
    | [] => (false, p)
  (listed? x (rest.length + 1) true rest).map fun (found, after) => (found != isExcepting, after)

def fits : Nat → Pattern → List Char → Bool
  | 0, _, _ => false
  | _, [], cs => cs.isEmpty
  | n + 1, m :: p, cs =>
    if m.is '*' then
      fits n p cs ||
        match cs with
        | [] => false
        | _ :: rest => fits n (m :: p) rest
    else
      match cs with
      | [] => false
      | c :: rest =>
        if m.is '?' then fits n p rest
        else
          match if m.is '[' then admits? c p else none with
          | some (admitted, after) => admitted && fits n after rest
          | none => m.char == c && fits n p rest

def isMatch (p : Pattern) (s : List Char) : Bool :=
  fits (p.length + s.length + 1) p s

/-! ## Paths -/

/-- Whether brackets that have been opened are closed before the next slash. -/
def isClosed : Pattern → Bool
  | [] => false
  | m :: rest => m.char ≠ '/' && (rest.head?.any (·.is ']') || isClosed rest)

/-- Whether any character of a pattern stands for others. -/
def isActive : Pattern → Bool
  | [] => false
  | m :: rest =>
    m.is '*' || m.is '?'
      || (m.is '[' && isClosed (if rest.head?.any (·.is '!') then rest.drop 1 else rest))
      || isActive rest

def segments : Pattern → List Pattern
  | [] => [[]]
  | m :: p =>
    if m.char = '/' then [] :: segments p
    else
      match segments p with
      | [] => [[m]]
      | s :: ss => (m :: s) :: ss

/-- The names in a folder, as octets; two of them stand for the folder itself and the one it is
in. -/
def namesIn (d : Disk) (cwd : Location) (folder : String) : List String :=
  match Text.unpacked? folder with
  | none => []
  | some folder =>
    match d.list cwd (if folder.isEmpty then "." else folder) with
    | .error _ => []
    | .ok (_, entries) => "." :: ".." :: entries.map fun (name, _) => Text.packed name

/-- The names in a folder that fit a pattern. A name with a dot in front fits only a pattern with
one. -/
def matchesIn (d : Disk) (cwd : Location) (folder : String) (p : Pattern) : List String :=
  let visible (name : String) := name.toList.head? != some '.' || p.head?.any (·.char == '.')
  (namesIn d cwd folder).filter fun name => visible name && p.isMatch name.toList

/-- The paths that begin with `before` and go on along the segments of a pattern. -/
def pathsAlong (d : Disk) (cwd : Location) (before : String) : List Pattern → List String
  | [] => [before]
  | [p] =>
    if p.isActive then (matchesIn d cwd before p).map (before ++ ·)
    else
      let path := before ++ p.text
      match Text.unpacked? path with
      | none => []
      | some file => if (d.locate cwd file false).toOption.isSome then [path] else []
  | p :: ps =>
    if p.isActive then
      (matchesIn d cwd before p).flatMap fun name => pathsAlong d cwd (before ++ name ++ "/") ps
    else pathsAlong d cwd (before ++ p.text ++ "/") ps

def paths (d : Disk) (cwd : Location) (p : Pattern) : List String :=
  if p.isActive then (pathsAlong d cwd "" p.segments).mergeSort (· ≤ ·) else []

end Pattern

end CodeIndex.Shell
