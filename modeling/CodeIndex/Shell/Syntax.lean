/-! # Commands of a script

A script is made of commands, and a simple command of words. A word keeps what was written: which
characters were quoted, and the parameters, commands and calculations that it takes its text from.
-/

namespace CodeIndex.Shell

/-- What a parameter in braces stands for. -/
inductive Operation where
  | value
  | length
  /-- The word, unless there is a value. -/
  | unless
  /-- The word, if there is a value. -/
  | provided
  /-- The value; the word becomes the value if there is none. -/
  | assign
  /-- The value; it is an error if there is none. -/
  | require
  /-- The value without the end, or else the beginning, that fits the word. -/
  | trim (atEnd longest : Bool)
  /-- What is written in the braces means nothing. -/
  | bad
deriving DecidableEq, Repr

/-- What a redirection does with its descriptor. -/
inductive Direction where
  | input
  | output
  /-- The output replaces the content of a file in any case. -/
  | replace
  | append
  | both
  /-- The descriptor becomes another name of a descriptor. -/
  | duplicate
  /-- The input is the document with a number; in an open one parameters are replaced. -/
  | document (number : Nat) (isOpen : Bool)
deriving DecidableEq, Repr

mutual

/-- A part of a word. -/
inductive Piece where
  | char (c : Char)
  | quoted (c : Char)
  /-- A quotation mark, where quoting begins or ends. -/
  | mark
  /-- A parameter; an empty value counts as none where `nonempty` says so. -/
  | parameter (name : String) (operation : Operation) (nonempty : Bool) (word : List Piece)
  /-- The output of a command. -/
  | output (c : Option Command)
  | arithmetic (expression : List Piece)

inductive Redirection where
  | mk (descriptor : Nat) (direction : Direction) (target : List Piece)

/-- The commands that run for a subject that fits one of the patterns. -/
inductive Clause where
  | mk (patterns : List (List Piece)) (body : Option Command)

inductive Command where
  /-- A program, a function or a command of the shell itself with its arguments, on a line. -/
  | simple (line : Nat) (assignments words : List (List Piece)) (redirections : List Redirection)
  /-- Each command reads what the one before it writes. -/
  | pipeline (cs : List Command) (background : Bool)
  | redirected (line : Nat) (c : Command) (redirections : List Redirection)
  /-- A command that is not waited for. -/
  | background (line : Nat) (c : Command) (redirections : List Redirection)
  /-- A command in a process of its own. -/
  | subshell (line : Nat) (c : Command) (redirections : List Redirection)
  | sequence (first second : Command)
  /-- The second command runs where the first one succeeds. -/
  | both (first second : Command)
  /-- The second command runs where the first one fails. -/
  | either (first second : Command)
  | negated (c : Command)
  | conditional (test yes : Command) (no : Option Command)
  /-- The body runs again and again while the test succeeds, or else until it succeeds. -/
  | loop (untilSuccess : Bool) (test body : Command)
  /-- The body runs for each field of the words. -/
  | each (line : Nat) (name : String) (words : List (List Piece)) (body : Command)
  | select (line : Nat) (subject : List Piece) (clauses : List Clause)
  | define (name : String) (body : Command)

end

abbrev Word := List Piece

def Word.bare? (w : Word) : Option String :=
  (w.mapM fun
    | Piece.char c => some c
    | _ => none).map String.ofList

namespace Redirection

def descriptor : Redirection → Nat
  | mk n _ _ => n

def direction : Redirection → Direction
  | mk _ d _ => d

def target : Redirection → Word
  | mk _ _ w => w

end Redirection

/-! ## Names -/

def isNameStart (c : Char) : Bool :=
  c.isAlpha || c == '_'

def isNamePart (c : Char) : Bool :=
  c.isAlphanum || c == '_'

def isName (s : String) : Bool :=
  s.toList.head?.any isNameStart && s.toList.all isNamePart

/-- The characters that are names of parameters which the shell sets. -/
def isSpecial (c : Char) : Bool :=
  c.isDigit || "@*#?$!-".toList.contains c

def Word.assignedName? (w : Word) : Option String :=
  let bare := w.takeWhile fun
    | .char c => isNamePart c
    | _ => false
  match w.drop bare.length, Word.bare? bare with
  | .char '=' :: _, some name => if isName name then some name else none
  | _, _ => none

/-- The words that have a meaning of their own where a command begins. -/
def reservedWords : List String :=
  ["!", "case", "do", "done", "elif", "else", "esac", "fi", "for", "if", "in", "then", "until",
    "while", "\x7b", "\x7d"]

end CodeIndex.Shell
