import CodeIndex.Shell.Number
import CodeIndex.Shell.Variables

/-! # Conditions

A condition is made of words: operators on texts, on numbers and on the entries of the disk, joined
by other operators. Up to four words are first looked at as a whole.
-/

namespace CodeIndex.Shell.Test

/-- What an operator does. -/
inductive Operator where
  /-- It says something about one operand. -/
  | unary
  | binary
  | not
  | and
  | or
  | openParen
  | closeParen
deriving DecidableEq, Repr

def operators : List (String × Operator) :=
  (["-r", "-w", "-x", "-e", "-f", "-d", "-c", "-b", "-p", "-u", "-g", "-k", "-s", "-t", "-z", "-n",
      "-h", "-O", "-G", "-L", "-S"].map (·, .unary))
    ++ (["=", "!=", "<", ">", "-eq", "-ne", "-ge", "-gt", "-le", "-lt", "-nt", "-ot", "-ef"].map
      (·, .binary))
    ++ [("!", .not), ("-a", .and), ("-o", .or), ("(", .openParen), (")", .closeParen)]

def operator? (word : String) : Option Operator :=
  operators.lookup word

def isBinary (word : Option String) : Bool :=
  word.bind operator? == some .binary

/-- What stands at the front of words. -/
inductive Front where
  | operator (o : Operator) (word : String)
  | operand
  | ending
deriving DecidableEq, Repr

/-- Whether a word in front of others is an operand although it could be a unary operator. -/
def isOperand (rest : List String) : Bool :=
  match rest with
  | [] => true
  | [_] => false
  | next :: _ => isBinary (some next)

def front : List String → Front
  | [] => .ending
  | word :: rest =>
    match operator? word with
    | none => .operand
    | some o =>
      if (o == .unary && isOperand rest) || (o == .openParen && rest.isEmpty) then .operand
      else .operator o word

/-- A condition of which a part has been read. The first word that is left is the last one that has
been looked at. -/
abbrev Condition := StateT (List String) Action

def refuse (word : String) (reason : String) : Condition α :=
  Action.fault (if word.isEmpty then reason else word ++ ": " ++ reason)

def integer (text : String) : Condition Int :=
  match integer? true text with
  | some n => return n
  | none => Action.fault ("Illegal number: " ++ text)

def entry? (path : String) (followLast : Bool := true) : Action (Option (Location × Entry)) := do
  let m ← get
  return (Text.unpacked? path).bind fun path =>
    (m.world.disk.locate m.process.cwd path followLast).toOption

def holds (operator operand : String) : Condition Bool := do
  let entry (p : Entry → Bool) : Condition Bool := do
    return (← entry? operand).any fun (_, e) => p e
  match operator with
  | "-z" => return operand.isEmpty
  | "-n" => return !operand.isEmpty
  | "-t" =>
    let _ ← integer operand
    return false
  | "-e" | "-r" | "-w" | "-O" | "-G" => entry fun _ => true
  | "-x" => entry fun | .folder _ | .program _ => true | _ => false
  | "-d" => entry fun | .folder _ => true | _ => false
  | "-f" => entry fun | .file _ | .database _ | .program _ => true | _ => false
  | "-s" => entry fun | .file content => !content.isEmpty | .device => false | _ => true
  | "-c" => entry fun | .device => true | _ => false
  | "-h" | "-L" => return (← entry? operand false).any fun | (_, .link _) => true | _ => false
  | _ => return false

/-- Whether a binary operator holds of two operands. -/
def relates (operator a b : String) : Condition Bool := do
  let numbers (r : Int → Int → Bool) : Condition Bool := do
    let m ← integer a
    return r m (← integer b)
  match operator with
  | "=" => return a == b
  | "!=" => return a != b
  | "<" => return a < b
  | ">" => return b < a
  | "-eq" => numbers (· == ·)
  | "-ne" => numbers (· != ·)
  | "-ge" => numbers (· ≥ ·)
  | "-gt" => numbers (· > ·)
  | "-le" => numbers (· ≤ ·)
  | "-lt" => numbers (· < ·)
  | "-ef" =>
    match ← entry? a, ← entry? b with
    | some (l, _), some (l', _) => return l == l'
    | _, _ => return false
  | _ => return false

def advance (n : Nat) : Condition Unit :=
  modify (·.drop n)

/-- What stands behind the word that has been looked at. -/
def frontBehind : Condition Front := do
  return front ((← get).drop 1)

mutual

def primary : Nat → Front → Condition Bool
  | 0, _ => return false
  | n + 1, f => do
    match f with
    | .ending => return false
    | .operator .openParen _ =>
      advance 1
      let f := front (← get)
      if f matches .operator .closeParen _ then return false
      let b ← disjunction n f
      advance 1
      unless front (← get) matches .operator .closeParen _ do refuse "" "closing paren expected"
      return b
    | .operator .unary operator =>
      advance 1
      match ← get with
      | [] => refuse operator "argument expected"
      | operand :: _ => holds operator operand
    | _ =>
      let words ← get
      if isBinary (words.drop 1).head? && front (words.drop 1) matches .operator .. then
        match words with
        | a :: operator :: b :: _ =>
          advance 2
          relates operator a b
        | _ => refuse ((words.drop 1).head?.getD "") "argument expected"
      else return !(words.head?.getD "").isEmpty

def negation : Nat → Front → Condition Bool
  | 0, _ => return false
  | n + 1, f => do
    match f with
    | .operator .not _ =>
      let f ← frontBehind
      unless f matches .ending do advance 1
      return !(← negation n f)
    | _ => primary n f

def conjunction : Nat → Front → Condition Bool
  | 0, _ => return false
  | n + 1, f => do
    let b ← negation n f
    match ← frontBehind with
    | .operator .and _ =>
      advance 2
      return (← conjunction n (front (← get))) && b
    | _ => return b

def disjunction : Nat → Front → Condition Bool
  | 0, _ => return false
  | n + 1, f => do
    let b ← conjunction n f
    match ← frontBehind with
    | .operator .or _ =>
      advance 2
      return (← disjunction n (front (← get))) || b
    | _ => return b

end

/-- Whether a condition holds that begins in a given way. -/
def holdsFrom (f : Front) (words : List String) : Action Bool := do
  let (b, rest) ← (disjunction (8 * words.length + 8) f).run words
  match rest with
  | word :: _ :: _ =>
    Action.fault ((if word.isEmpty then "" else word ++ ": ") ++ "unexpected operator")
  | _ => return b

/-- Whether the condition of some words holds, or does not hold where `negated` says so. Three or
four words may be a negation as a whole, and more than one of these count as one. -/
def conditionFrom : Nat → Bool → List String → Action Bool
  | 0, negated, _ | _, negated, [] => return negated
  | n + 1, negated, words => do
    let whole (f : Front) (words : List String) : Action Bool := do
      return (← holdsFrom f words) != negated
    match words with
    | [a, b, c] =>
      if isBinary (some b) then whole .operand words
      else if a == "(" && c == ")" then whole (front [b]) [b]
      else if a == "!" then conditionFrom n true [b, c]
      else whole (front words) words
    | [a, b, c, d] =>
      if a == "(" && d == ")" then whole (front [b, c]) [b, c]
      else if a == "!" then conditionFrom n true [b, c, d]
      else whole (front words) words
    | _ => whole (front words) words

def condition (words : List String) : Action Bool :=
  conditionFrom (words.length + 1) false words

end CodeIndex.Shell.Test
