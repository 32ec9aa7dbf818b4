import CodeIndex.Shell.Syntax

/-! # Reading a script

A script is read character by character. A backslash at the end of a line joins it to the next one.
The text of an alias is read in its place, and the documents that a line announces are read when
the line has ended.
-/

namespace CodeIndex.Shell

inductive Token where
  /-- A word, and whether any of it was quoted. -/
  | word (w : Word) (quoted : Bool)
  | reserved (text : String)
  | operator (text : String)
  /-- What a descriptor is used for; the target is the next word. Tabs in front of the lines of a
  document may be left out. -/
  | redirection (descriptor : Nat) (direction : Direction) (untabbed : Bool)
  | lineEnd
  | textEnd

namespace Token

def text : Token → String
  | .word .. => "word"
  | .reserved text | .operator text => "\"" ++ text ++ "\""
  | .redirection .. => "redirection"
  | .lineEnd => "newline"
  | .textEnd => "end of file"

end Token

/-- Why a script cannot be read, and the line that had been reached. -/
structure Flaw where
  line : Nat
  text : String
deriving DecidableEq, Repr

/-- A document that a line announces. -/
structure AwaitedDocument where
  number : Nat
  /-- The line behind the document. -/
  mark : List Char
  /-- Whether tabs in front of lines are left out. -/
  untabbed : Bool
  /-- Whether parameters are replaced in it. -/
  isOpen : Bool

/-- A script of which a part has been read. -/
structure Reading where
  rest : List Char
  line : Nat := 1
  /-- The aliases that are being read, with the text behind each of them. -/
  interrupted : List (String × List Char) := []
  aliases : List (String × String) := []
  /-- Whether the next word may be an alias although it does not begin a command. -/
  seeksAlias : Bool := false
  /-- A token that is to be read once more. -/
  held : Option Token := none
  last : Token := .lineEnd
  awaited : List AwaitedDocument := []
  /-- The documents that have been read, by their numbers. -/
  documents : List (Nat × Word) := []
  /-- How many documents have been announced. -/
  announced : Nat := 0

abbrev Reader := StateT Reading (Except Flaw)

namespace Reader

def refuse (text : String) : Reader α := do
  throw ⟨(← get).line, "Syntax error: " ++ text⟩

/-- The first character of a text, or else of the ones that it interrupts. -/
def nextFrom (r : Reading) : List Char → List (String × List Char) → Option Char × Reading
  | c :: rest, interrupted => (some c, { r with rest, interrupted })
  | [], [] => (none, { r with rest := [], interrupted := [] })
  | [], (name, text) :: interrupted =>
    let value := (r.aliases.lookup name).getD ""
    let blank := value.toList.getLast?.any fun c => c == ' ' || c == '\t'
    nextFrom { r with seeksAlias := r.seeksAlias || blank } text interrupted

def next : Reader (Option Char) := do
  let r ← get
  let (c, r) := nextFrom r r.rest r.interrupted
  set r
  return c

def putBack (c : Option Char) : Reader Unit :=
  modify fun r => { r with rest := c.toList ++ r.rest }

def countLine : Reader Unit :=
  modify fun r => { r with line := r.line + 1 }

/-- The number of line ends behind backslashes at the front, and what follows them. -/
def joints (n : Nat) : List Char → Nat × List Char
  | '\\' :: '\n' :: cs => joints (n + 1) cs
  | cs => (n, cs)

/-- The next character behind line ends that are joined. -/
def nextJoined : Reader (Option Char) := do
  modify fun r =>
    let (n, rest) := joints 0 r.rest
    { r with rest, line := r.line + n }
  next

/-- The characters of a kind, and the one behind them. -/
def nextWhile (p : Char → Bool) : Nat → Reader (List Char × Option Char)
  | 0 => return ([], none)
  | n + 1 => do
    match ← nextJoined with
    | none => return ([], none)
    | some c =>
      if p c then
        let (cs, after) ← nextWhile p n
        return (c :: cs, after)
      else return ([], some c)

def fuel : Reader Nat := do
  let r ← get
  let waiting := r.interrupted.flatMap fun (_, text) => text
  return r.rest.length + waiting.length + 1

def hold (t : Token) : Reader Unit :=
  modify fun r => { r with held := some t, last := t }

end Reader

end CodeIndex.Shell
