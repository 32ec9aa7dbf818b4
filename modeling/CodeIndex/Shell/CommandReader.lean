import CodeIndex.Shell.WordReader

/-! # Reading commands

Commands are read from tokens, one line of a script at a time. A word is reserved, or stands for an
alias, only where the command around it lets it be.
-/

namespace CodeIndex.Shell

/-- The commands of the shell itself that no function may take the name of. -/
def specialCommands : List String :=
  [".", ":", "break", "continue", "eval", "exec", "exit", "export", "local", "readonly", "return",
    "set", "shift", "times", "trap", "unset"]

/-- What a list of commands is read for. -/
inductive ListGoal where
  /-- The commands up to the end of a line. -/
  | line
  /-- One command or more, up to a token that closes them. -/
  | block
  /-- Any number of commands up to a token that closes them. -/
  | group
  /-- Any number of commands and a closing parenthesis. -/
  | parenthesized
  /-- A single command. -/
  | single
deriving DecidableEq, Repr

/-- What the next token may be. -/
structure Expected where
  /-- Ends of lines do not count. -/
  lineEnds : Bool := false
  reserved : Bool := false
  aliases : Bool := false
  /-- The token is the mark behind a document. -/
  isMark : Bool := false

namespace Expected

def command : Expected := { reserved := true, aliases := true }

/-- The beginning of a command, perhaps on a later line. -/
def anyLine : Expected := { command with lineEnds := true }

end Expected

/-- Readers of the commands that are inside of what is read. -/
abbrev ListReader := ListGoal → Reader (Option Command)

namespace Reader

def isCloser : Token → Bool
  | .textEnd => true
  | .operator text => text == ")" || text == ";;"
  | .reserved text => ["do", "done", "elif", "else", "esac", "fi", "then", "\x7d"].contains text
  | _ => false

/-! ## Tokens -/

def refuseToken (expected : String) : Reader α := do
  let hint := if expected.isEmpty then "" else " (expecting " ++ expected ++ ")"
  refuse ((← get).last.text ++ " unexpected" ++ hint)

def angle (descriptor : Option Nat) (c : Char) : Reader Token := do
  let second ← nextJoined
  if c = '>' then
    let n := descriptor.getD 1
    match second with
    | some '>' => return .redirection n .append false
    | some '|' => return .redirection n .replace false
    | some '&' => return .redirection n .duplicate false
    | _ =>
      putBack second
      return .redirection n .output false
  else
    let n := descriptor.getD 0
    match second with
    | some '<' =>
      let third ← nextJoined
      if third = some '-' then return .redirection n (.document 0 false) true
      putBack third
      return .redirection n (.document 0 false) false
    | some '&' => return .redirection n .duplicate false
    | some '>' => return .redirection n .both false
    | _ =>
      putBack second
      return .redirection n .input false

/-- The descriptor that is written in front of an angle bracket, if what is written there may be
one. -/
def descriptor? (w : Word) : Option (Option Nat) :=
  match w with
  | [] => some none
  | [.char d] => if d.isDigit then some (some (d.toNat - 48)) else none
  | _ => none

/-- The word that begins with a character, or the redirection behind it. -/
def wordToken (lists : ListReader) (isMark : Bool) (c : Char) : Reader Token := do
  let (s, after) ← wordFrom { isMark } (apart (lists .parenthesized)) (lists .group) (← fuel)
    false (some c) { frame := { manner := .plain } }
  checkClosed {} s
  let w := s.pieces.reverse
  match after with
  | some c =>
    if (c = '<' || c = '>') && !s.quoted then
      match descriptor? w with
      | some d => return ← angle d c
      | none => pure ()
  | none => pure ()
  putBack after
  return .word w s.quoted

def rawToken (lists : ListReader) (isMark : Bool) : Nat → Reader Token
  | 0 => return .textEnd
  | n + 1 => do
    let doubledOr (c : Char) : Reader Token := do
      let second ← nextJoined
      if second = some c then return .operator (String.ofList [c, c])
      putBack second
      return .operator (String.singleton c)
    match ← nextJoined with
    | none => return .textEnd
    | some ' ' | some '\t' => rawToken lists isMark n
    | some '#' =>
      modify fun r => { r with rest := r.rest.dropWhile (· ≠ '\n') }
      rawToken lists isMark n
    | some '\n' =>
      countLine
      return .lineEnd
    | some '&' => doubledOr '&'
    | some '|' => doubledOr '|'
    | some ';' => doubledOr ';'
    | some '(' => return .operator "("
    | some ')' => return .operator ")"
    | some c => wordToken lists isMark c

def awaitedDocuments (lists : ListReader) : Reader Unit :=
  documents (apart (lists .parenthesized)) (lists .group)

/-- The token that is held back, or else the next one. -/
def heldOrRaw (lists : ListReader) (isMark : Bool) : Reader Token := do
  let r ← get
  match r.held with
  | some t =>
    set { r with held := none }
    return t
  | none => rawToken lists isMark (← fuel)

def tokenFrom (lists : ListReader) : Nat → Expected → Reader Token
  | 0, _ => return .textEnd
  | n + 1, e => do
    let t ← heldOrRaw lists e.isMark
    let seeksAlias := (← get).seeksAlias
    modify ({ · with last := t, seeksAlias := false })
    let e := if seeksAlias then { e with aliases := true } else e
    match t with
    | .lineEnd =>
      if e.lineEnds then
        awaitedDocuments lists
        tokenFrom lists n e
      else return t
    | .word w false =>
      match w.bare? with
      | none => return t
      | some text =>
        if e.reserved && reservedWords.contains text then
          modify ({ · with last := .reserved text })
          return .reserved text
        let r ← get
        match if e.aliases then r.aliases.lookup text else none with
        | none => return t
        | some value =>
          if (r.interrupted.lookup text).isSome then return t
          unless value.isEmpty do
            set { r with rest := value.toList, interrupted := (text, r.rest) :: r.interrupted }
          tokenFrom lists n e
    | _ => return t

def token (lists : ListReader) (e : Expected) : Reader Token := do
  let r ← get
  let waiting := r.aliases.foldl (fun n (_, value) => n + value.length + 1) 0
  tokenFrom lists ((← fuel) + waiting + 2) e

def expect (lists : ListReader) (e : Expected) (isIt : Token → Bool) (name : String) :
    Reader Unit := do
  let t ← token lists e
  unless isIt t do refuseToken name

def isReserved (text : String) : Token → Bool
  | .reserved t => t == text
  | _ => false

def isOperator (text : String) : Token → Bool
  | .operator t => t == text
  | _ => false

def quotedName (text : String) : String :=
  "\"" ++ text ++ "\""

/-! ## Redirections -/

def plainText (w : Word) : List Char :=
  w.filterMap fun
    | .char c | .quoted c => some c
    | _ => none

def redirection (lists : ListReader) (descriptor : Nat) (direction : Direction) (untabbed : Bool) :
    Reader Redirection := do
  match direction with
  | .document .. =>
    match ← token lists { isMark := true } with
    | .word mark quoted =>
      let r ← get
      let awaited : AwaitedDocument :=
        { number := r.announced, mark := plainText mark, untabbed, isOpen := !quoted }
      set { r with awaited := r.awaited ++ [awaited], announced := r.announced + 1 }
      return .mk descriptor (.document r.announced (!quoted)) []
    | _ => refuseToken ""
  | _ =>
    match ← token lists {} with
    | .word w _ => return .mk descriptor direction w
    | _ => refuseToken ""

def redirectionsFrom (lists : ListReader) : Nat → Expected → Reader (List Redirection)
  | 0, _ => return []
  | n + 1, e => do
    match ← token lists e with
    | .redirection descriptor direction untabbed =>
      let r ← redirection lists descriptor direction untabbed
      return r :: (← redirectionsFrom lists n {})
    | t =>
      hold t
      return []

/-! ## Simple commands -/

/-- The parts of a simple command, each kind in its order. -/
structure Parts where
  assignments : List Word := []
  words : List Word := []
  redirections : List Redirection := []
  /-- The name of a function that is defined instead. -/
  function : Option String := none

/-- Reads the parts of a simple command; `parts` holds what has been read. -/
def partsFrom (lists : ListReader) : Nat → Parts → Reader Parts
  | 0, parts => return parts
  | n + 1, parts => do
    let isFirst := parts.words.isEmpty
    match ← token lists { aliases := isFirst } with
    | .word w _ =>
      if isFirst && w.assignedName?.isSome then
        partsFrom lists n { parts with assignments := parts.assignments ++ [w] }
      else partsFrom lists n { parts with words := parts.words ++ [w] }
    | .redirection descriptor direction untabbed =>
      let r ← redirection lists descriptor direction untabbed
      partsFrom lists n { parts with redirections := parts.redirections ++ [r] }
    | t =>
      match t, parts with
      | .operator "(", { assignments := [], words := [w], redirections := [], .. } =>
        expect lists {} (isOperator ")") (quotedName ")")
        match w.bare? with
        | some name =>
          if isName name && !specialCommands.contains name then
            return { parts with function := some name }
          else refuse "Bad function name"
        | none => refuse "Bad function name"
      | _, _ =>
        hold t
        return parts

def simpleCommand (lists : ListReader) : Reader Command := do
  let line := (← get).line
  let parts ← partsFrom lists ((← fuel) + 1) {}
  match parts.function with
  | none => return .simple line parts.assignments parts.words parts.redirections
  | some name =>
    match ← lists .single with
    | some body => return .define name body
    | none => refuseToken ""

/-! ## Compound commands -/

/-- Reads the commands of a block, behind which a word is expected. -/
def block (lists : ListReader) (closer : String) : Reader Command := do
  match ← lists .block with
  | some c => return c
  | none => refuseToken (quotedName closer)

/-- A condition, what runs where it holds, and the branches for where it does not. -/
def branchesFrom (lists : ListReader) : Nat → Reader Command
  | 0 => refuseToken ""
  | n + 1 => do
    let test ← block lists "then"
    expect lists {} (isReserved "then") (quotedName "then")
    let yes ← block lists "fi"
    let t ← token lists {}
    if isReserved "elif" t then return .conditional test yes (some (← branchesFrom lists n))
    else if isReserved "else" t then return .conditional test yes (some (← block lists "fi"))
    else
      hold t
      return .conditional test yes none

/-- The words between `in` and the end of the line. -/
def listedWords (lists : ListReader) : Nat → Reader (List Word)
  | 0 => return []
  | n + 1 => do
    match ← token lists {} with
    | .word w _ => return w :: (← listedWords lists n)
    | .lineEnd | .operator ";" => return []
    | _ => refuseToken ""

/-- The name, the words and the body of a repetition. -/
def repetition (lists : ListReader) (line : Nat) : Reader Command := do
  let name ← match ← token lists {} with
    | .word w false =>
      match w.bare? with
      | some name => if isName name then pure name else refuse "Bad for loop variable"
      | none => refuse "Bad for loop variable"
    | _ => refuse "Bad for loop variable"
  let t ← token lists .anyLine
  let words ← do
    if isReserved "in" t then listedWords lists ((← fuel) + 1)
    else
      unless isOperator ";" t do hold t
      pure [[.mark, .parameter "@" .value false [], .mark]]
  expect lists .anyLine (isReserved "do") (quotedName "do")
  return .each line name words (← block lists "done")

/-- The patterns of a clause, the first of which is a token that has been read. A token that is no
word counts as an empty pattern. -/
def clausePatterns (lists : ListReader) : Nat → Token → Reader (List Word)
  | 0, _ => return []
  | n + 1, t => do
    let w := match t with
      | .word w _ => w
      | _ => []
    let t ← token lists {}
    if isOperator "|" t then return w :: (← clausePatterns lists n (← token lists {}))
    unless isOperator ")" t do refuseToken (quotedName ")")
    return [w]

/-- The clauses of a choice between patterns, up to its closing word. -/
def clausesFrom (lists : ListReader) : Nat → Reader (List Clause)
  | 0 => return []
  | n + 1 => do
    let e : Expected := { lineEnds := true, reserved := true }
    let t ← token lists e
    if isReserved "esac" t then return []
    let t ← if isOperator "(" t then token lists {} else pure t
    let patterns ← clausePatterns lists ((← fuel) + 1) t
    let body ← lists .group
    let clause := Clause.mk patterns body
    let t ← token lists e
    if isReserved "esac" t then return [clause]
    unless isOperator ";;" t do refuseToken (quotedName ";;")
    return clause :: (← clausesFrom lists n)

def selection (lists : ListReader) (line : Nat) : Reader Command := do
  match ← token lists {} with
  | .word subject _ =>
    expect lists .anyLine (isReserved "in") (quotedName "in")
    return .select line subject (← clausesFrom lists ((← fuel) + 1))
  | _ => refuseToken "word"

def command (lists : ListReader) (e : Expected) : Reader Command := do
  let line := (← get).line
  let finish (c : Command) : Reader Command := do
    match ← redirectionsFrom lists ((← fuel) + 1) .command with
    | [] => return c
    | rs =>
      match c with
      | .subshell line c _ => return .subshell line c rs
      | c => return .redirected line c rs
  let closed (c : Reader Command) (text : String) : Reader Command := do
    let c ← c
    expect lists {} (fun t => isReserved text t || isOperator text t) (quotedName text)
    finish c
  match ← token lists e with
  | .reserved "if" => closed (do branchesFrom lists ((← fuel) + 1)) "fi"
  | .reserved "while" => closed (loop false) "done"
  | .reserved "until" => closed (loop true) "done"
  | .reserved "for" => closed (repetition lists line) "done"
  | .reserved "case" => finish (← selection lists line)
  | .operator "(" => closed (do return .subshell line (← block lists ")") []) ")"
  | .reserved "\x7b" => closed (block lists "\x7d") "\x7d"
  | t@(.word ..) | t@(.redirection ..) =>
    hold t
    simpleCommand lists
  | _ => refuseToken ""
where
  /-- The test and the body of a loop. -/
  loop (untilSuccess : Bool) : Reader Command := do
    let test ← block lists "do"
    expect lists {} (isReserved "do") (quotedName "do")
    return .loop untilSuccess test (← block lists "done")

/-! ## Lists of commands -/

def pipedFrom (lists : ListReader) : Nat → Reader (List Command)
  | 0 => return []
  | n + 1 => do
    let t ← token lists {}
    if isOperator "|" t then
      let c ← command lists .anyLine
      return c :: (← pipedFrom lists n)
    else
      hold t
      return []

/-- Commands of which each reads what the one before it writes. -/
def pipeline (lists : ListReader) : Reader Command := do
  let t ← token lists {}
  let isNegated := isReserved "!" t
  unless isNegated do hold t
  let first ← command lists (if isNegated then .command else {})
  let c ← match ← pipedFrom lists ((← fuel) + 1) with
    | [] => pure first
    | cs => pure (.pipeline (first :: cs) false)
  return if isNegated then .negated c else c

/-- The commands that depend on the success of `c`. -/
def chainFrom (lists : ListReader) : Nat → Command → Reader Command
  | 0, c => return c
  | n + 1, c => do
    let t ← token lists {}
    let isBoth := isOperator "&&" t
    if isBoth || isOperator "||" t then
      hold (← token lists .anyLine)
      let d ← pipeline lists
      chainFrom lists n (if isBoth then .both c d else .either c d)
    else
      hold t
      return c

def inBackground (line : Nat) : Command → Command
  | .pipeline cs _ => .pipeline cs true
  | .redirected line c rs => .background line c rs
  | c => .background line c []

/-- Reads a list of commands; `before` is what has been read of it. -/
def listFrom (lists : ListReader) (goal : ListGoal) :
    Nat → Option Command → Reader (Option Command)
  | 0, before => return before
  | n + 1, before => do
    let t ← token lists { Expected.command with lineEnds := goal ≠ .line }
    match t with
    | .lineEnd =>
      awaitedDocuments lists
      return before
    | .textEnd =>
      awaitedDocuments lists
      hold .textEnd
      return before
    | _ =>
      hold t
      let mayEnd := goal = .group || (goal = .block && before.isSome)
      if mayEnd && isCloser t then return before
      let line := (← get).line
      let c ← chainFrom lists ((← fuel) + 1) (← pipeline lists)
      let t ← token lists {}
      let c := if isOperator "&" t then inBackground line c else c
      let c := match before with
        | some b => Command.sequence b c
        | none => c
      match t with
      | .textEnd =>
        awaitedDocuments lists
        hold .textEnd
        return some c
      | .operator "&" | .operator ";" => listFrom lists goal n (some c)
      | _ =>
        unless t matches .lineEnd do
          if goal = .line then refuseToken ""
        hold t
        if t matches .lineEnd then listFrom lists goal n (some c) else return some c

/-- Reads what a goal asks for, at most so deep inside of each other. -/
def list : Nat → ListReader
  | 0, _ => refuse "too deep"
  | n + 1, goal => do
    let inner : ListReader := fun goal => list n goal
    match goal with
    | .single => return some (← command inner .anyLine)
    | .parenthesized =>
      let c ← listFrom inner .group ((← fuel) + 1) none
      expect inner {} (isOperator ")") (quotedName ")")
      emptyDocuments
      return c
    | goal => listFrom inner goal ((← fuel) + 1) none

end Reader

/-! ## Lines of a script -/

/-- What the next line of a script is. -/
inductive ScriptLine where
  | ended
  /-- A line, which may hold no command. -/
  | command (c : Option Command)

namespace Reading

def ofText (text : String) : Reading :=
  { rest := text.toList }

def maxDepth : Nat := 2000

def nextLine (r : Reading) : Except Flaw (ScriptLine × Reading) := do
  let r := { r with held := none, seeksAlias := false, awaited := [] }
  let (c, r) ← (Reader.list maxDepth .line).run r
  return (if c.isNone && (r.held matches some .textEnd) then .ended else .command c, r)

end Reading

end CodeIndex.Shell
