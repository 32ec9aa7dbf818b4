import CodeIndex.Shell.Number
import CodeIndex.Shell.Variables

/-! # Calculations

A calculation is worked out while it is read. It knows whole numbers of 64 bits, variables and
assignments; what a condition leaves out is read but neither looked up nor assigned.
-/

namespace CodeIndex.Shell

namespace Arithmetic

inductive Symbol where
  | number (n : Int)
  | name (s : String)
  | sign (s : String)
  | ending
  | bad
deriving DecidableEq, Repr

/-- The signs, longer ones in front of their beginnings. -/
def signs : List String :=
  ["<<=", ">>=", "<<", ">>", "<=", ">=", "==", "!=", "&&", "||", "+=", "-=", "*=", "/=", "%=", "&=",
    "|=", "^=", "<", ">", "=", "!", "&", "|", "+", "-", "*", "/", "%", "^", "~", "?", ":", "(", ")"]

def symbol (cs : List Char) : Symbol × List Char :=
  match cs.dropWhile fun c => c == ' ' || c == '\t' || c == '\n' with
  | [] => (.ending, [])
  | c :: rest =>
    if c.isDigit then
      match leadingNumber? false (c :: rest) with
      | some n => (.number n.clamped, n.rest)
      | none => (.bad, c :: rest)
    else if isNameStart c then
      let name := (c :: rest).takeWhile isNamePart
      (.name (String.ofList name), (c :: rest).drop name.length)
    else
      match signs.find? fun s => s.toList.isPrefixOf (c :: rest) with
      | some s => (.sign s, (c :: rest).drop s.length)
      | none => (.bad, c :: rest)

/-- How closely the signs between two values bind, the closest ones first. -/
def levels : List (List String) :=
  [["*", "/", "%"], ["+", "-"], ["<<", ">>"], ["<", "<=", ">", ">="], ["==", "!="], ["&"], ["^"],
    ["|"]]

def level? : Symbol → Option Nat
  | .sign s => levels.findIdx? (·.contains s)
  | _ => none

def assigned? : Symbol → Option (Option String)
  | .sign "=" => some none
  | .sign s =>
    if ["<<=", ">>=", "+=", "-=", "*=", "/=", "%=", "&=", "|=", "^="].contains s then
      some (some (String.ofList s.toList.dropLast))
    else none
  | _ => none

/-- A calculation of which a part has been read. -/
structure State where
  /-- All of the calculation, for messages. -/
  text : String
  rest : List Char
  /-- The symbol that has been read last and does not belong to what is in front of it. -/
  last : Symbol := .ending

abbrev Calculation := StateT State Action

def next : Calculation Symbol := do
  let s ← get
  let (t, rest) := symbol s.rest
  set { s with rest }
  return t

def keep (t : Symbol) : Calculation Unit :=
  modify ({ · with last := t })

def refuse (reason : String) : Calculation α := do
  Action.fault ("arithmetic expression: " ++ reason ++ ": \"" ++ (← get).text ++ "\"")

def truth (b : Bool) : Int := if b then 1 else 0

/-- Both numbers in 64 bits under an operation on bits. -/
def bitwise (f : UInt64 → UInt64 → UInt64) (a b : Int) : Int :=
  wrap (f (UInt64.ofInt a) (UInt64.ofInt b)).toNat

def apply (sign : String) (a b : Int) : Calculation Int := do
  let shift := (b % 64).toNat
  match sign with
  | "*" => return wrap (a * b)
  | "+" => return wrap (a + b)
  | "-" => return wrap (a - b)
  | "<<" => return wrap (a * (1 <<< shift : Nat))
  | ">>" => return a >>> shift
  | "<" => return truth (a < b)
  | "<=" => return truth (a ≤ b)
  | ">" => return truth (b < a)
  | ">=" => return truth (b ≤ a)
  | "==" => return truth (a = b)
  | "!=" => return truth (a ≠ b)
  | "&" => return bitwise (· &&& ·) a b
  | "^" => return bitwise (· ^^^ ·) a b
  | "|" => return bitwise (· ||| ·) a b
  | _ =>
    if b = 0 then refuse "division by zero"
    else if a = minInteger && b = -1 then
      throw (.gone (.killed 8))
    else return if sign = "/" then a.tdiv b else a.tmod b

def valueOf (name : String) : Calculation Int := do
  let text ← Action.valueOf name
  match integer? false text with
  | some n => return n
  | none => Action.fault ("Illegal number: " ++ text)

mutual

/-- A value that begins with the symbol `t`, behind which `after` has been read. -/
def primary : Nat → Symbol → Symbol → Bool → Calculation Int
  | 0, _, _, _ => refuse "expecting primary"
  | n + 1, t, after, skips => do
    match t with
    | .number k =>
      keep after
      return k
    | .name s =>
      keep after
      if skips then return 0 else valueOf s
    | .sign "(" =>
      let k ← assignment n after skips
      unless (← get).last = .sign ")" do refuse "expecting ')'"
      keep (← next)
      return k
    | .sign "+" => primary n after (← next) skips
    | .sign "-" => return wrap (-(← primary n after (← next) skips))
    | .sign "!" => return truth ((← primary n after (← next) skips) = 0)
    | .sign "~" => return -(← primary n after (← next) skips) - 1
    | _ => refuse "expecting primary"

/-- The value of `a` and what signs below a level join to it, the first of which is `sign`. -/
def joined : Nat → Int → String → Nat → Bool → Calculation Int
  | 0, _, _, _, _ => refuse "expecting primary"
  | n + 1, a, sign, bound, skips => do
    let t ← next
    let b ← primary n t (← next) skips
    let own := (level? (.sign sign)).getD 0
    let b ← match (← get).last, level? (← get).last with
      | .sign s, some l => if l < own then joined n b s own skips else pure b
      | _, _ => pure b
    let a ← if skips then pure b else apply sign a b
    match (← get).last, level? (← get).last with
    | .sign s, some l => if l < bound then joined n a s bound skips else return a
    | _, _ => return a

def binary : Nat → Symbol → Symbol → Bool → Calculation Int
  | 0, _, _, _ => refuse "expecting primary"
  | n + 1, t, after, skips => do
    let a ← primary n t after skips
    match (← get).last, level? (← get).last with
    | .sign s, some _ => joined n a s levels.length skips
    | _, _ => return a

def conjunction : Nat → Symbol → Symbol → Bool → Calculation Int
  | 0, _, _, _ => refuse "expecting primary"
  | n + 1, t, after, skips => do
    let a ← binary n t after skips
    unless (← get).last = .sign "&&" do return a
    let t ← next
    let b ← conjunction n t (← next) (skips || a = 0)
    return truth (a ≠ 0 && b ≠ 0)

def disjunction : Nat → Symbol → Symbol → Bool → Calculation Int
  | 0, _, _, _ => refuse "expecting primary"
  | n + 1, t, after, skips => do
    let a ← conjunction n t after skips
    unless (← get).last = .sign "||" do return a
    let t ← next
    let b ← disjunction n t (← next) (skips || a ≠ 0)
    return truth (a ≠ 0 || b ≠ 0)

def condition : Nat → Symbol → Symbol → Bool → Calculation Int
  | 0, _, _, _ => refuse "expecting primary"
  | n + 1, t, after, skips => do
    let a ← disjunction n t after skips
    unless (← get).last = .sign "?" do return a
    let b ← assignment n (← next) (skips || a = 0)
    unless (← get).last = .sign ":" do refuse "expecting ':'"
    let t ← next
    let c ← condition n t (← next) (skips || a ≠ 0)
    return if a ≠ 0 then b else c

def assignment : Nat → Symbol → Bool → Calculation Int
  | 0, _, _ => refuse "expecting primary"
  | n + 1, t, skips => do
    let after ← next
    match t, assigned? after with
    | .name s, some sign =>
      let b ← assignment n (← next) skips
      if skips then return b
      let value ← match sign with
        | none => pure b
        | some sign => apply sign (← valueOf s) b
      Action.assign s (toString value)
      return value
    | _, _ => condition n t after skips

end

def calculate : Calculation Int := do
  let n ← assignment (16 * ((← get).text.length + 1)) (← next) false
  unless (← get).last = .ending do refuse "expecting EOF"
  return n

end Arithmetic

/-- The result of a calculation that is written as a text. -/
def Action.calculate (text : String) : Action Int := do
  let (n, _) ← Arithmetic.calculate.run { text, rest := text.toList }
  return n

end CodeIndex.Shell
