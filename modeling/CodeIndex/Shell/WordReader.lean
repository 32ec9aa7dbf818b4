import CodeIndex.Shell.Reading

/-! # Reading words

What a character means inside a word depends on what has begun before it: quotation marks, braces
behind a dollar sign, or a calculation. Each of these has a frame of its own, and a document is
read like one long word.
-/

namespace CodeIndex.Shell

/-- The rules by which the characters of a word are read. -/
inductive Manner where
  | plain
  | single
  | double
  | arithmetic
deriving DecidableEq, Repr

/-- What a character means. -/
inductive Meaning where
  | lineEnd
  | itself
  /-- It stands for itself, but would not do so elsewhere. -/
  | kept
  | backslash
  | openSingle
  | openDouble
  | closeQuote
  | dollar
  | closeBrace
  | openParen
  | closeParen
  | backquote
  | separator
deriving DecidableEq, Repr

/-- The characters that a pattern or a home folder may give a meaning to. -/
def isPatternChar (c : Char) : Bool :=
  "!*?[=~:/-]".toList.contains c

/-- The octets that are kept apart wherever they stand. -/
def isReservedOctet (c : Char) : Bool :=
  0x81 ≤ c.toNat && c.toNat ≤ 0x88

def Manner.meaning (m : Manner) (c : Char) : Meaning :=
  if c = '\n' then .lineEnd
  else if isReservedOctet c then .kept
  else
    match m, c with
    | .single, '\'' => .closeQuote
    | .single, '\\' => .kept
    | .single, c => if isPatternChar c then .kept else .itself
    | _, '\\' => .backslash
    | _, '\x60' => .backquote
    | _, '$' => .dollar
    | _, '\x7d' => .closeBrace
    | .double, '"' => .closeQuote
    | .double, c => if isPatternChar c then .kept else .itself
    | .arithmetic, '(' => .openParen
    | .arithmetic, ')' => .closeParen
    | .plain, '\'' => .openSingle
    | .plain, '"' => .openDouble
    | .plain, c => if "<>();&| \t".toList.contains c then .separator else .itself
    | _, _ => .itself

/-- What is known about the place inside a word. -/
structure Frame where
  manner : Manner
  /-- Whether double quotation marks are around. -/
  doubled : Bool := false
  /-- Whether double quotation marks have been opened again between braces. -/
  innerDoubled : Bool := false
  /-- The number of open braces. -/
  braces : Nat := 0
  /-- The number of open braces that double quotation marks are around. -/
  doubledBraces : Nat := 0
  /-- Whether the frame ends with its last brace. -/
  endsWithBrace : Bool := false
  parens : Nat := 0

/-- A piece that has begun. -/
inductive OpenPiece where
  | parameter (name : String) (operation : Operation) (nonempty : Bool)
  | arithmetic

/-- A word of which a part has been read. -/
structure WordState where
  frame : Frame
  outer : List Frame := []
  /-- The pieces that have begun, each with the pieces in front of it, last one first. -/
  opened : List (OpenPiece × Word) := []
  /-- The pieces of what has begun last, last one first. -/
  pieces : Word := []
  quoted : Bool := false

/-- What a word is read for. -/
structure WordGoal where
  /-- The document that is read as a word. -/
  document : Option AwaitedDocument := none
  /-- Whether the word is the mark behind a document. -/
  isMark : Bool := false

namespace WordState

def push (s : WordState) (p : Piece) : WordState :=
  { s with pieces := p :: s.pieces }

def pushFrame (s : WordState) (f : Frame) : WordState :=
  { s with frame := f, outer := s.frame :: s.outer }

def popFrame (s : WordState) : WordState :=
  match s.outer with
  | f :: outer => { s with frame := f, outer }
  | [] => s

def begin (s : WordState) (o : OpenPiece) : WordState :=
  { s with opened := (o, s.pieces) :: s.opened, pieces := [] }

def finish (s : WordState) : WordState :=
  match s.opened with
  | [] => s
  | (o, before) :: opened =>
    let inside := s.pieces.reverse
    let piece := match o with
      | .parameter name operation nonempty => Piece.parameter name operation nonempty inside
      | .arithmetic => Piece.arithmetic inside
    { s with opened, pieces := piece :: before }

/-- Adds a quotation mark; in a document there are none. -/
def pushMark (s : WordState) (goal : WordGoal) : WordState :=
  if goal.document.isNone then s.push .mark else s

def toggleDouble (s : WordState) (goal : WordGoal) : WordState :=
  let s := s.pushMark goal
  if s.frame.braces = 0 then s
  else { s with frame.innerDoubled := !s.frame.innerDoubled }

/-- Begins a parameter in braces. The word of one that is trimmed is read as if no quotation marks
were around. -/
def beginBraces (s : WordState) (name : String) (op : Operation) (nonempty : Bool) : WordState :=
  let s := s.begin (.parameter name op nonempty)
  let manner := match op, s.frame.manner with
    | .trim .., _ => .plain
    | _, .arithmetic => .double
    | _, manner => manner
  let s := if manner ≠ s.frame.manner || s.frame.innerDoubled then
      s.pushFrame { manner, endsWithBrace := true, doubled := manner ≠ .plain }
    else s
  let f := s.frame
  { s with frame := { f with
      braces := f.braces + 1
      doubledBraces := if f.doubled then f.doubledBraces + 1 else f.doubledBraces } }

def endBraces (s : WordState) : WordState :=
  let f := s.frame
  let s := if f.braces = 1 && f.endsWithBrace then s.popFrame
    else { s with frame := { f with
      braces := f.braces - 1, doubledBraces := f.doubledBraces - 1 } }
  s.finish

def beginArithmetic (s : WordState) : WordState :=
  (s.begin .arithmetic).pushFrame { manner := .arithmetic, doubled := true }

end WordState

namespace Reader

/-! ## Parameters -/

/-- What stands in braces behind the name of a parameter. -/
def operation (c : Option Char) : Reader (Operation × Bool) := do
  let trim (sign : Char) (atEnd : Bool) : Reader (Operation × Bool) := do
    let c ← nextJoined
    if c = some sign then return (.trim atEnd true, false)
    putBack c
    return (.trim atEnd false, false)
  match c with
  | some '%' => trim '%' true
  | some '#' => trim '#' false
  | _ =>
    let nonempty := c = some ':'
    let c ← if nonempty then nextJoined else pure c
    let op := match c with
      | some '\x7d' => .value
      | some '-' => .unless
      | some '+' => .provided
      | some '?' => .require
      | some '=' => .assign
      | _ => .bad
    return (op, nonempty)

/-- The name that begins with a character, and the character behind it. -/
def nameFrom (braced : Bool) (c : Char) : Reader (String × Option Char) := do
  let n ← fuel
  if isNameStart c then
    let (cs, after) ← nextWhile isNamePart n
    return (String.ofList (c :: cs), after)
  else if braced then
    let (cs, after) ← nextWhile Char.isDigit n
    return (String.ofList (c :: cs), after)
  else
    return (String.singleton c, ← nextJoined)

/-- The parameter behind a dollar sign that begins with a character. -/
def parameter (s : WordState) (c : Char) : Reader WordState := do
  let braced := c == '\x7b'
  let finish (name : String) (op : Operation) (nonempty : Bool) : Reader WordState := do
    if op = .value && !nonempty then
      return s.push (.parameter name .value false [])
    else return s.beginBraces name op nonempty
  /- The name is known, and the character behind it has been read. -/
  let named (name : String) (length : Bool) (after : Option Char) : Reader WordState := do
    if length then
      putBack after
      finish name (if after = some '\x7d' then .length else .bad) false
    else if braced then
      let (op, nonempty) ← operation after
      finish name op nonempty
    else
      putBack after
      finish name .value false
  /- There is no name. -/
  let nameless (after : Option Char) : Reader WordState := do
    putBack after
    finish "" .bad false
  let first ← if braced then nextJoined else pure (some c)
  match first with
  | none => nameless none
  | some '\x7d' => nameless (some '\x7d')
  | some c =>
    if isNameStart c || c.isDigit then
      let (name, after) ← nameFrom braced c
      named name false after
    else
      let second ← nextJoined
      if braced && c = '#' then
        match second with
        | some d =>
          if isNamePart d then
            let (name, after) ← nameFrom braced d
            named name true after
          else
            let third ← nextJoined
            if d = '\x7d' || third ≠ some '\x7d' then
              putBack third
              named "#" false second
            else if isSpecial d then named (String.singleton d) true third
            else nameless third
        | none =>
          named "#" false none
      else if isSpecial c then named (String.singleton c) false second
      else nameless second

/-! ## Commands -/

/-- Reads the documents that were awaited from an empty text. -/
def emptyDocuments : Reader Unit :=
  modify fun r => { r with
    awaited := [], documents := r.awaited.map (fun d => (d.number, [])) ++ r.documents }

/-- Reads what `read` does without the documents that are awaited so far. -/
def apart (read : Reader α) : Reader α := do
  let awaited := (← get).awaited
  modify ({ · with awaited := [] })
  let a ← read
  modify ({ · with awaited, held := none })
  return a

def backquoted (doubled : Bool) : Nat → Reader (List Char)
  | 0 => refuse "EOF in backquote substitution"
  | n + 1 => do
    match ← nextJoined with
    | none => refuse "EOF in backquote substitution"
    | some '\x60' => return []
    | some '\\' =>
      match ← next with
      | none => refuse "EOF in backquote substitution"
      | some c =>
        let isKept := c ≠ '\\' && c ≠ '\x60' && c ≠ '$' && !(doubled && c = '"')
        let cs ← backquoted doubled n
        return if isKept then '\\' :: c :: cs else c :: cs
    | some '\n' =>
      countLine
      return '\n' :: (← backquoted doubled n)
    | some c => return c :: (← backquoted doubled n)

/-- The command between backquotes, of which `commands` reads a group from a text of its own. -/
def backquotedCommand (commands : Reader (Option Command)) (doubled : Bool) :
    Reader (Option Command) := do
  let text ← backquoted doubled (← fuel)
  let outer ← get
  apart do
    modify ({ · with rest := text, interrupted := [], line := 1 })
    let c ← commands
    emptyDocuments
    modify ({ · with rest := outer.rest, interrupted := outer.interrupted, line := outer.line })
    return c

/-! ## Words -/

/-- Whether a text begins with a line, and what follows that line. -/
def dropLine? : List Char → List Char → Option (List Char)
  | [], [] => some []
  | [], '\n' :: cs => some cs
  | m :: ms, c :: cs => if m = c then dropLine? ms cs else none
  | _, _ => none

/-- At the beginning of a line of a document: the next character, or none where the document has
ended. -/
def documentLine (d : AwaitedDocument) (c : Option Char) : Reader (Option Char) := do
  let r ← get
  let text := c.toList ++ r.rest
  let text := if d.untabbed then text.dropWhile (· = '\t') else text
  match dropLine? d.mark text with
  | some rest =>
    set { r with rest, line := r.line + 1 }
    return none
  | none =>
    set { r with rest := text.drop 1 }
    return text.head?

def nextIn (s : WordState) : Reader (Option Char) :=
  if s.frame.manner = .single then next else nextJoined

/-- Reads what a dollar sign begins. `command` reads the command in parentheses. -/
def dollar (goal : WordGoal) (command : Reader (Option Command)) (s : WordState) :
    Reader WordState := do
  match ← nextJoined with
  | none => return s.push (.char '$')
  | some c =>
    if goal.isMark || !(c = '(' || c = '\x7b' || isNameStart c || isSpecial c) then
      putBack (some c)
      return s.push (.char '$')
    else if c = '(' then
      match ← nextJoined with
      | some '(' => return s.beginArithmetic
      | after =>
        putBack after
        return s.push (.output (← command))
    else parameter s c

def escaped (goal : WordGoal) (s : WordState) : Reader WordState := do
  match ← next with
  | none => return s.push (.quoted '\\')
  | some c =>
    let f := s.frame
    let isKept := f.doubled && c ≠ '\\' && c ≠ '\x60' && c ≠ '$'
      && (c ≠ '"' || (goal.document.isSome && f.braces = 0))
      && (c ≠ '\x7d' || f.braces = 0)
    let s := if isKept then s.push (.quoted '\\') else s
    return { s.push (.quoted c) with quoted := true }

/-- Reads a closing parenthesis of a calculation, of which two end it. -/
def closeParen (s : WordState) : Reader WordState := do
  if 0 < s.frame.parens then
    return { s.push (.char ')') with frame.parens := s.frame.parens - 1 }
  else
    match ← nextJoined with
    | some ')' => return s.popFrame.finish
    | c =>
      putBack c
      return s.push (.char ')')

/-- Reads on from a character up to the end of a word, and gives the character behind it. At the
beginning of a line a document may end. -/
def wordFrom (goal : WordGoal) (command backquoted : Reader (Option Command)) :
    Nat → Bool → Option Char → WordState → Reader (WordState × Option Char)
  | 0, _, c, s => return (s, c)
  | n + 1, isLineStart, c, s => do
    let c ← match goal.document with
      | some d => if isLineStart then documentLine d c else pure c
      | none => pure c
    match c with
    | none => return (s, none)
    | some c =>
      let f := s.frame
      let goOn (s : WordState) : Reader (WordState × Option Char) := do
        wordFrom goal command backquoted n false (← nextIn s) s
      match f.manner.meaning c with
      | .lineEnd =>
        if f.manner = .plain && f.braces = 0 then return (s, some c)
        else
          countLine
          wordFrom goal command backquoted n true (← next) (s.push (.char c))
      | .itself => goOn (s.push (.char c))
      | .kept =>
        let isKept := goal.document.isNone || f.doubled || 0 < f.braces
        goOn (s.push (if isKept then .quoted c else .char c))
      | .backslash => goOn (← escaped goal s)
      | .openSingle => goOn ({ s with frame.manner := .single }.pushMark goal)
      | .openDouble =>
        goOn (WordState.toggleDouble
          { s with frame := { f with manner := .double, doubled := true } } goal)
      | .closeQuote =>
        if goal.document.isSome && f.braces = 0 then goOn (s.push (.char c))
        else
          let s := if f.doubledBraces = 0 then
              { s with frame := { f with manner := .plain, doubled := false } }
            else s
          let s := { s with quoted := true }
          goOn (if c = '"' then s.toggleDouble goal else s.pushMark goal)
      | .dollar => goOn (← dollar goal command s)
      | .closeBrace =>
        goOn (if !f.innerDoubled && 0 < f.braces then s.endBraces else s.push (.char c))
      | .openParen => goOn { s.push (.char c) with frame.parens := f.parens + 1 }
      | .closeParen => goOn (← closeParen s)
      | .backquote =>
        if goal.isMark then goOn (s.push (.char c))
        else goOn (s.push (.output (← backquotedCommand backquoted f.doubled)))
      | .separator =>
        if f.braces = 0 then return (s, some c) else goOn (s.push (.char c))

/-- Refuses a word in which something has not been closed. -/
def checkClosed (goal : WordGoal) (s : WordState) : Reader Unit := do
  if s.frame.manner = .arithmetic then refuse "Missing '))'"
  if s.frame.manner ≠ .plain && goal.document.isNone then refuse "Unterminated quoted string"
  if 0 < s.frame.braces then refuse "Missing '\x7d'"

/-- Reads a document in front of the line with its mark. -/
def document (command backquoted : Reader (Option Command)) (d : AwaitedDocument) :
    Reader Unit := do
  let goal : WordGoal := { document := some d }
  let frame : Frame :=
    if d.isOpen then { manner := .double, doubled := true } else { manner := .single }
  let first ← if d.isOpen then nextJoined else next
  let (s, _) ← wordFrom goal command backquoted (← fuel) true first { frame }
  checkClosed goal s
  modify fun r => { r with documents := (d.number, s.pieces.reverse) :: r.documents }

def documents (command backquoted : Reader (Option Command)) : Reader Unit := do
  let awaited := (← get).awaited
  modify ({ · with awaited := [] })
  awaited.forM (document command backquoted)

end Reader

end CodeIndex.Shell
