import CodeIndex.Yaml.Problem

/-! # Tokens of YAML texts

Blocks are told apart by indentation: a token that stands farther to the right than its block opens
a new one, and one that stands farther to the left closes blocks. Whether a token begins a key is
known only at the colon behind it, so the places at which a key may have begun are remembered, one
for each level of brackets, and the key's token is inserted there afterwards. Such a key stays on
one line and below a limit of characters.
-/

namespace CodeIndex.Yaml

inductive Token where
  | version (major minor : Nat)
  /-- What a handle stands for. -/
  | handle (name expansion : String)
  | documentStart
  | documentEnd
  | blockSequenceStart
  | blockMappingStart
  | blockEnd
  | flowSequenceStart
  | flowSequenceEnd
  | flowMappingStart
  | flowMappingEnd
  | blockEntry
  | flowEntry
  | key
  | value
  | alias (name : String)
  | anchor (name : String)
  | tag (handle suffix : String)
  | scalar (plain : Bool) (text : String)
deriving DecidableEq, Repr

/-! ## Characters -/

def isAllowed (c : Char) : Bool :=
  let n := c.toNat
  n == 0x09 || n == 0x0A || n == 0x0D || (0x20 ≤ n && n ≤ 0x7E) || n == 0x85
    || (0xA0 ≤ n && n ≤ 0xFFFD) || 0x10000 ≤ n

/-- The mark of the order of octets, which may begin a line and takes a column there. -/
def orderMark : Char := '\ufeff'

/-- Writes all ends of lines as line feeds, apart from the separators of lines and paragraphs. -/
def normalizeBreaks : List Char → List Char
  | [] => []
  | '\r' :: '\n' :: cs => '\n' :: normalizeBreaks cs
  | c :: cs => (if c == '\r' || c == '\u0085' then '\n' else c) :: normalizeBreaks cs

def isBreak (c : Char) : Bool := c == '\n' || c == '\u2028' || c == '\u2029'

def isBlank (c : Char) : Bool := c == ' ' || c == '\t'

/-- Whether a blank, the end of a line or the end of the text comes next. -/
def atGap : List Char → Bool
  | [] => true
  | c :: _ => isBlank c || isBreak c

/-- Characters of the names of anchors, handles and directives. -/
def isNameChar (c : Char) : Bool :=
  c.isAlphanum || c == '_' || c == '-'

/-- Characters that take part in the structure of collections in brackets. -/
def isFlowIndicator (c : Char) : Bool :=
  [',', '[', ']', '{', '}'].contains c

/-- The token of a line that begins or ends a document. -/
def documentMark? : List Char → Option (Token × List Char)
  | '-' :: '-' :: '-' :: rest => if atGap rest then some (.documentStart, rest) else none
  | '.' :: '.' :: '.' :: rest => if atGap rest then some (.documentEnd, rest) else none
  | _ => none

/-! ## Folded text -/

/-- Text that is being read, with the blanks and the ends of lines behind it that count only if
more text follows. -/
structure Folding where
  /-- The text, in reverse. -/
  text : List Char := []
  /-- Blanks on the line of the text, in reverse. -/
  blanks : List Char := []
  /-- Whether a line has ended. -/
  broken : Bool := false
  /-- How the first line ended. -/
  firstBreak : Option Char := none
  /-- How the lines after the first one ended, in reverse. -/
  moreBreaks : List Char := []
  column : Nat

namespace Folding

/-- Adds a blank; those that begin a line do not count. -/
def blank (f : Folding) (c : Char) : Folding :=
  { f with blanks := if f.broken then f.blanks else c :: f.blanks, column := f.column + 1 }

/-- Adds the end of a line, before which blanks do not count. -/
def lineBreak (f : Folding) (c : Char) : Folding :=
  if f.broken then { f with moreBreaks := c :: f.moreBreaks, column := 0 }
  else { f with blanks := [], broken := true, firstBreak := some c, column := 0 }

/-- What stands between two pieces of text, in reverse: a single line feed becomes a blank, and
further ones are kept. -/
def gap (f : Folding) : List Char :=
  if f.broken then
    match f.firstBreak, f.moreBreaks with
    | some '\n', [] => [' ']
    | some '\n', more => more
    | first, more => more ++ first.toList
  else f.blanks

/-- The text with all that came before taken into it. -/
def join (f : Folding) : Folding :=
  { text := f.gap ++ f.text, column := f.column }

/-- Adds characters, given in reverse, that take `width` columns. -/
def push (f : Folding) (cs : List Char) (width : Nat) : Folding :=
  { f with text := cs ++ f.text, column := f.column + width }

def result (f : Folding) : String :=
  String.ofList f.text.reverse

end Folding

/-! ## Quoted scalars -/

def hexDigit? (c : Char) : Option Nat :=
  if '0' ≤ c ∧ c ≤ '9' then some (c.toNat - 48)
  else if 'a' ≤ c ∧ c ≤ 'f' then some (c.toNat - 87)
  else if 'A' ≤ c ∧ c ≤ 'F' then some (c.toNat - 55)
  else none

/-- The character with a number in hexadecimal digits. -/
def charOfHex? (cs : List Char) : Option Char := do
  let n := (← cs.mapM hexDigit?).foldl (fun n d => 16 * n + d) 0
  if n.isValidChar then some (Char.ofNat n) else none

/-- The letters of escapes in double quotes, and what each stands for. -/
def escape? : Char → Option Char
  | '0' => some '\x00'
  | 'a' => some '\x07'
  | 'b' => some '\x08'
  | 't' | '\t' => some '\t'
  | 'n' => some '\n'
  | 'v' => some '\x0b'
  | 'f' => some '\x0c'
  | 'r' => some '\r'
  | 'e' => some '\x1b'
  | ' ' => some ' '
  | '"' => some '"'
  | '/' => some '/'
  | '\\' => some '\\'
  | 'N' => some '\u0085'
  | '_' => some '\u00a0'
  | 'L' => some '\u2028'
  | 'P' => some '\u2029'
  | _ => none

def singleQuoted (f : Folding) : List Char → Except Problem (String × List Char)
  | [] => .error .badToken
  | '\'' :: '\'' :: rest => singleQuoted (f.join.push ['\''] 2) rest
  | '\'' :: rest => .ok (f.join.result, rest)
  | c :: rest =>
    if isBreak c then singleQuoted (f.lineBreak c) rest
    else if isBlank c then singleQuoted (f.blank c) rest
    else if f.column == 0 && (documentMark? (c :: rest)).isSome then .error .badToken
    else singleQuoted (f.join.push [c] 1) rest

def doubleQuoted (f : Folding) : List Char → Except Problem (String × List Char)
  | [] => .error .badToken
  | '"' :: rest => .ok (f.join.result, rest)
  | '\\' :: 'x' :: a :: b :: rest =>
    match charOfHex? [a, b] with
    | none => .error .badToken
    | some c => doubleQuoted (f.join.push [c] 4) rest
  | '\\' :: 'u' :: a :: b :: c :: d :: rest =>
    match charOfHex? [a, b, c, d] with
    | none => .error .badToken
    | some x => doubleQuoted (f.join.push [x] 6) rest
  | '\\' :: 'U' :: a :: b :: c :: d :: e :: g :: h :: i :: rest =>
    match charOfHex? [a, b, c, d, e, g, h, i] with
    | none => .error .badToken
    | some x => doubleQuoted (f.join.push [x] 10) rest
  | '\\' :: c :: rest =>
    if isBreak c then doubleQuoted { f.join with broken := true, column := 0 } rest
    else
      match escape? c with
      | none => .error .badToken
      | some x => doubleQuoted (f.join.push [x] 2) rest
  | c :: rest =>
    if isBreak c then doubleQuoted (f.lineBreak c) rest
    else if isBlank c then doubleQuoted (f.blank c) rest
    else if f.column == 0 && (documentMark? (c :: rest)).isSome then .error .badToken
    else doubleQuoted (f.join.push [c] 1) rest

/-! ## Plain scalars -/

/-- Whether a colon comes next that something in brackets may not follow. -/
def isStrayColon (c : Char) (rest : List Char) : Bool :=
  match c, rest with
  | ':', d :: _ => isFlowIndicator d || d == '?'
  | _, _ => false

def endsPlain (flow : Bool) (c : Char) (rest : List Char) : Bool :=
  (c == ':' && atGap rest) || (flow && isFlowIndicator c)

/-- Reads a plain scalar up to the text that does not belong to it; lines that go on with it are
indented by at least `indent`. -/
def plainScalar (flow : Bool) (indent : Int) (f : Folding) :
    List Char → Except Problem (Folding × List Char)
  | [] => .ok (f, [])
  | c :: rest =>
    if isBreak c then plainScalar flow indent (f.lineBreak c) rest
    else if isBlank c then
      if f.broken && f.column < indent && c == '\t' then .error .badToken
      else plainScalar flow indent (f.blank c) rest
    else if (f.column == 0 && (documentMark? (c :: rest)).isSome)
        || (c == '#' && (f.broken || !f.blanks.isEmpty))
        || (!flow && f.broken && f.column < indent) then .ok (f, c :: rest)
    else if flow && isStrayColon c rest then .error .badToken
    else if endsPlain flow c rest then .ok (f, c :: rest)
    else plainScalar flow indent (f.join.push [c] 1) rest

/-! ## Block scalars -/

/-- What becomes of the ends of lines behind the last line of text. -/
inductive Chomping where
  | strip
  | clip
  | keep
deriving DecidableEq, Repr

def chomping? : Char → Option Chomping
  | '-' => some .strip
  | '+' => some .keep
  | _ => none

/-- The number of columns that a digit asks for; zero is not allowed. -/
def increment (c : Char) : Except Problem Nat :=
  if c == '0' then .error .badToken else .ok (c.toNat - 48)

/-- Reads the indicators behind the one that opens a block scalar. -/
def blockHeader : List Char → Except Problem (Chomping × Option Nat × List Char)
  | [] => .ok (.clip, none, [])
  | c :: rest =>
    match chomping? c with
    | some chomp =>
      match rest with
      | d :: rest' =>
        if d.isDigit then do return (chomp, some (← increment d), rest')
        else .ok (chomp, none, rest)
      | [] => .ok (chomp, none, [])
    | none =>
      if c.isDigit then do
        let n ← increment c
        match rest with
        | d :: rest' =>
          match chomping? d with
          | some chomp => return (chomp, some n, rest')
          | none => return (.clip, some n, rest)
        | [] => return (.clip, some n, [])
      else .ok (.clip, none, c :: rest)

/-- Drops blanks and a comment up to the end of the line. -/
def dropComment (cs : List Char) : List Char :=
  match cs.dropWhile isBlank with
  | '#' :: rest => rest.dropWhile (! isBreak ·)
  | rest => rest

/-- The greatest indentation of the blank lines at the front and of the first line after them. -/
def leadingIndent (greatest column : Nat) : List Char → Nat
  | ' ' :: rest => leadingIndent greatest (column + 1) rest
  | c :: rest =>
    if isBreak c then leadingIndent (max greatest column) 0 rest else max greatest column
  | [] => max greatest column

/-- Text of a block scalar that is being read. -/
structure BlockText where
  literal : Bool
  indent : Nat
  /-- The text, in reverse. -/
  text : List Char := []
  /-- How the line before ended. -/
  lastBreak : Option Char := none
  /-- Whether the line before began with a blank. -/
  lastBlank : Bool := false
  /-- How the blank lines since then ended, in reverse. -/
  blankBreaks : List Char := []

namespace BlockText

/-- Begins a line with character `c`: two lines that begin with text are folded into one. -/
def beginLine (b : BlockText) (c : Char) : BlockText :=
  let folds := !b.literal && b.lastBreak == some '\n' && !b.lastBlank && !isBlank c
  let joined :=
    if folds then if b.blankBreaks.isEmpty then [' '] else b.blankBreaks
    else b.blankBreaks ++ b.lastBreak.toList
  { b with text := c :: (joined ++ b.text), lastBreak := none, lastBlank := isBlank c
           blankBreaks := [] }

def result (b : BlockText) (chomp : Chomping) : String :=
  let tail := match chomp with
    | .strip => []
    | .clip => b.lastBreak.toList
    | .keep => b.blankBreaks ++ b.lastBreak.toList
  String.ofList (tail ++ b.text).reverse

/-- Reads lines; `column` is the number of columns before the text of the line, `none` inside that
text. -/
def read (b : BlockText) (column : Option Nat) :
    List Char → Except Problem (BlockText × List Char)
  | [] => .ok (b, [])
  | c :: rest =>
    match column with
    | none =>
      if isBreak c then { b with lastBreak := some c }.read (some 0) rest
      else { b with text := c :: b.text }.read none rest
    | some k =>
      if c == ' ' && k < b.indent then b.read (some (k + 1)) rest
      else if c == '\t' && k < b.indent then .error .badToken
      else if isBreak c then { b with blankBreaks := c :: b.blankBreaks }.read (some 0) rest
      else if k < b.indent then .ok (b, c :: rest)
      else (b.beginLine c).read none rest

end BlockText

/-- Whether a tab stands in the indentation of the lines at the front. -/
def hasTabIndent : List Char → Bool
  | '\t' :: _ => true
  | c :: rest => (c == ' ' || isBreak c) && hasTabIndent rest
  | [] => false

/-- Reads a block scalar behind its first indicator, inside a block of indentation `outer`. -/
def blockScalar (literal : Bool) (outer : Int) (cs : List Char) :
    Except Problem (String × List Char) := do
  let (chomp, step, cs) ← blockHeader cs
  let cs ← match dropComment cs with
    | [] => pure []
    | c :: rest => if isBreak c then pure rest else .error .badToken
  let indent ← match step with
    | some n => pure ((max outer 0).toNat + n)
    | none =>
      if hasTabIndent cs then .error .badToken
      else pure (max (max (leadingIndent 0 0 cs) (outer + 1).toNat) 1)
  let (b, rest) ← BlockText.read { literal, indent } (some 0) cs
  return (b.result chomp, rest)

/-! ## Tags -/

def isTagChar (verbatim : Bool) (c : Char) : Bool :=
  isNameChar c || ";/?:@&=+$.!~*'()".toList.contains c || (verbatim && ",[]".toList.contains c)

/-- The octets of a run of numbered octets, and what follows them. -/
def numberedOctets : List Char → List UInt8 × List Char
  | '%' :: a :: b :: rest =>
    match hexDigit? a, hexDigit? b with
    | some m, some n =>
      let (octets, rest') := numberedOctets rest
      (UInt8.ofNat (16 * m + n) :: octets, rest')
    | _, _ => ([], '%' :: a :: b :: rest)
  | rest => ([], rest)

/-- The characters of a tag at the front, with those given by number still to be decoded. -/
def tagChars (verbatim : Bool) (cs : List Char) : List Char × List Char :=
  (cs.takeWhile fun c => isTagChar verbatim c || c == '%',
    cs.dropWhile fun c => isTagChar verbatim c || c == '%')

/-- Decodes the characters of a tag that are given by the numbers of their octets. -/
def decodeTag (fuel : Nat) (cs : List Char) : Except Problem (List Char) :=
  match fuel with
  | 0 => .ok []
  | fuel + 1 =>
    match cs with
    | [] => .ok []
    | '%' :: rest =>
      match numberedOctets ('%' :: rest) with
      | ([], _) => .error .badToken
      | (octets, rest') =>
        match String.fromUTF8? ⟨octets.toArray⟩ with
        | none => .error .badToken
        | some s => do return s.toList ++ (← decodeTag fuel rest')
    | c :: rest => do return c :: (← decodeTag fuel rest)

def tagText (verbatim : Bool) (cs : List Char) : Except Problem (String × List Char) := do
  let (chars, rest) := tagChars verbatim cs
  return (String.ofList (← decodeTag (chars.length + 1) chars), rest)

/-- The handle at the front, which begins with an exclamation mark and may end with another. -/
def tagHandle : List Char → Except Problem (String × List Char)
  | '!' :: cs =>
    let name := cs.takeWhile isNameChar
    match cs.dropWhile isNameChar with
    | '!' :: rest => .ok (String.ofList ('!' :: (name ++ ['!'])), rest)
    | rest => .ok (String.ofList ('!' :: name), rest)
  | _ => .error .badToken

def isWholeHandle (handle : String) : Bool :=
  handle.length ≥ 2 && handle.endsWith "!"

/-- Reads a tag. The tag that is a single exclamation mark has no handle. -/
def scanTag (flow : Bool) (cs : List Char) : Except Problem (Token × List Char) := do
  let (handle, suffix, rest) ← match cs with
    | '!' :: '<' :: cs => do
      let (uri, rest) ← tagText true cs
      match uri.isEmpty, rest with
      | false, '>' :: rest => pure ("", uri, rest)
      | _, _ => .error .badToken
    | cs => do
      let (handle, rest) ← tagHandle cs
      let (suffix, rest) ← tagText false rest
      if isWholeHandle handle then
        if suffix.isEmpty then .error .badToken else pure (handle, suffix, rest)
      else
        let whole := String.ofList (handle.toList.drop 1) ++ suffix
        pure (if whole.isEmpty then ("", "!", rest) else ("!", whole, rest))
  if atGap rest || (flow && rest.head? == some ',') then return (.tag handle suffix, rest)
  else .error .badToken

def anchorName (cs : List Char) : Except Problem (String × List Char) :=
  let name := cs.takeWhile isNameChar
  let rest := cs.dropWhile isNameChar
  let ends := atGap rest ||
    (rest.head?.any fun c => ['?', ':', ',', ']', '}', '%', '@', '\u0060'].contains c)
  if name.isEmpty || !ends then .error .badToken else .ok (String.ofList name, rest)

/-! ## Directives -/

/-- Reads a number of a version, which has at most nine digits. -/
def versionNumber (cs : List Char) : Except Problem (Nat × List Char) :=
  let digits := cs.takeWhile Char.isDigit
  if digits.isEmpty || 9 < digits.length then .error .badToken
  else .ok (digits.foldl (fun n d => 10 * n + (d.toNat - 48)) 0, cs.dropWhile Char.isDigit)

/-- Reads a directive behind its percent sign, to the end of its line. -/
def scanDirective (cs : List Char) : Except Problem (Token × List Char) := do
  let name := String.ofList (cs.takeWhile isNameChar)
  let cs := cs.dropWhile isNameChar
  if !atGap cs then .error .badToken
  let cs := cs.dropWhile isBlank
  let (token, rest) ←
    if name = "YAML" then do
      let (major, cs) ← versionNumber cs
      match cs with
      | '.' :: cs => do
        let (minor, cs) ← versionNumber cs
        pure (Token.version major minor, cs)
      | _ => .error .badToken
    else if name = "TAG" then do
      let (handle, cs) ← tagHandle cs
      if handle ≠ "!" ∧ ¬ isWholeHandle handle then .error .badToken
      if !(cs.head?.any isBlank) then .error .badToken
      let (expansion, cs) ← tagText true (cs.dropWhile isBlank)
      if expansion.isEmpty || !atGap cs then .error .badToken
      pure (Token.handle handle expansion, cs)
    else .error .badToken
  match dropComment rest with
  | [] => return (token, [])
  | c :: rest => if isBreak c then return (token, c :: rest) else .error .badToken

/-! ## The scanner -/

/-- A place at which a key may have begun. -/
structure KeyPlace where
  /-- The number of tokens before it. -/
  tokens : Nat
  line : Nat
  column : Nat
  index : Nat
  /-- Whether only a key can stand there. -/
  required : Bool

structure Scanner where
  rest : List Char
  line : Nat := 0
  column : Nat := 0
  /-- The number of characters before `rest`. -/
  index : Nat := 0
  /-- The tokens so far, in reverse. -/
  tokens : List Token := []
  /-- The column of the innermost block, -1 outside all blocks. -/
  indent : Int := -1
  /-- The columns of the blocks around it. -/
  outerIndents : List Int := []
  /-- The place of a possible key outside all brackets and at each level of them, the innermost
  level first. -/
  keyPlaces : List (Option KeyPlace) := [none]
  /-- Whether a key may begin here. -/
  keyAllowed : Bool := true

namespace Scanner

/-- The number of characters that a possible key may take. -/
def keyLimit : Nat := 1024

def inFlow (s : Scanner) : Bool := 1 < s.keyPlaces.length

def advance (s : Scanner) : Scanner :=
  match s.rest with
  | [] => s
  | c :: rest =>
    if isBreak c then { s with rest, line := s.line + 1, column := 0, index := s.index + 1 }
    else { s with rest, column := s.column + 1, index := s.index + 1 }

def advanceBy (s : Scanner) : Nat → Scanner
  | 0 => s
  | n + 1 => s.advance.advanceBy n

def moveTo (s : Scanner) (rest : List Char) : Scanner :=
  s.advanceBy (s.rest.length - rest.length)

def emit (s : Scanner) (t : Token) : Scanner :=
  { s with tokens := t :: s.tokens }

def insertAt (s : Scanner) (n : Nat) (t : Token) : Scanner :=
  let behind := s.tokens.length - n
  { s with tokens := s.tokens.take behind ++ t :: s.tokens.drop behind }

/-- Drops the blanks, comments, ends of lines and marks at the front of lines before the next
token. -/
def skipGap (fuel : Nat) (s : Scanner) : Scanner :=
  match fuel with
  | 0 => s
  | fuel + 1 =>
    match s.rest with
    | [] => s
    | c :: rest =>
      if c == ' ' || (c == '\t' && (s.inFlow || !s.keyAllowed)) ||
          (c == orderMark && s.column == 0) then
        s.advance.skipGap fuel
      else if c == '#' then (s.moveTo (rest.dropWhile (! isBreak ·))).skipGap fuel
      else if isBreak c then
        let s := s.advance
        { s with keyAllowed := s.keyAllowed || !s.inFlow }.skipGap fuel
      else s

/-- Closes the blocks that begin to the right of a column. -/
def closeBlocks (s : Scanner) (column : Int) : Scanner :=
  if s.inFlow then s
  else
    let closed := (s.indent :: s.outerIndents).takeWhile (column < ·)
    match (s.indent :: s.outerIndents).dropWhile (column < ·) with
    | [] => s
    | indent :: outerIndents =>
      { s with indent, outerIndents
               tokens := List.replicate closed.length .blockEnd ++ s.tokens }

/-- Opens a block with token `t` behind the first `n` tokens if `column` lies to the right of the
innermost block. -/
def openBlock (s : Scanner) (column n : Nat) (t : Token) : Scanner :=
  if s.inFlow || column ≤ s.indent then s
  else { s with indent := column, outerIndents := s.indent :: s.outerIndents }.insertAt n t

def forgetKey (s : Scanner) : Except Problem Scanner :=
  match s.keyPlaces with
  | some place :: places =>
    if place.required then .error .badToken else .ok { s with keyPlaces := none :: places }
  | _ => .ok s

def rememberKey (s : Scanner) : Except Problem Scanner :=
  if s.keyAllowed then do
    let s ← s.forgetKey
    let place : KeyPlace :=
      { tokens := s.tokens.length, line := s.line, column := s.column, index := s.index
        required := !s.inFlow && s.indent == s.column }
    return { s with keyPlaces := some place :: s.keyPlaces.drop 1 }
  else .ok s

/-- Whether no colon can follow any more that would make a key of what began at a place. -/
def isStale (s : Scanner) (place : KeyPlace) : Bool :=
  place.line < s.line || place.index + keyLimit < s.index

/-- Forgets the possible keys that are too far back. -/
def dropStaleKeys (s : Scanner) : Except Problem Scanner :=
  if s.keyPlaces.any fun place => place.any fun p => s.isStale p && p.required then
    .error .badToken
  else
    .ok { s with keyPlaces := s.keyPlaces.map fun place => place.filter fun p => !s.isStale p }

/-- Reads a single character as a token. -/
def single (s : Scanner) (t : Token) : Scanner :=
  s.advance.emit t

def openFlow (s : Scanner) (t : Token) : Except Problem Scanner := do
  let s ← s.rememberKey
  return { s with keyPlaces := none :: s.keyPlaces, keyAllowed := true }.single t

def closeFlow (s : Scanner) (t : Token) : Except Problem Scanner := do
  let s ← s.forgetKey
  let keyPlaces := if s.inFlow then s.keyPlaces.drop 1 else s.keyPlaces
  return { s with keyPlaces, keyAllowed := false }.single t

def flowEntry (s : Scanner) : Except Problem Scanner := do
  let s ← s.forgetKey
  return { s with keyAllowed := true }.single .flowEntry

def blockEntry (s : Scanner) : Except Problem Scanner := do
  if !s.inFlow && !s.keyAllowed then .error .badToken
  let s ← (s.openBlock s.column s.tokens.length .blockSequenceStart).forgetKey
  return { s with keyAllowed := true }.single .blockEntry

def explicitKey (s : Scanner) : Except Problem Scanner := do
  if !s.inFlow && !s.keyAllowed then .error .badToken
  let s ← (s.openBlock s.column s.tokens.length .blockMappingStart).forgetKey
  return { s with keyAllowed := !s.inFlow }.single .key

/-- Reads a colon, which may make a key of what stands before it. -/
def mappingValue (s : Scanner) : Except Problem Scanner :=
  match s.keyPlaces with
  | some place :: places =>
    let s := { s.insertAt place.tokens .key with keyPlaces := none :: places, keyAllowed := false }
    .ok ((s.openBlock place.column place.tokens .blockMappingStart).single .value)
  | _ =>
    if s.inFlow then .ok ({ s with keyAllowed := false }.single .value)
    else if s.keyAllowed then
      .ok ((s.openBlock s.column s.tokens.length .blockMappingStart).single .value)
    else .error .badToken

/-- Takes a token that a key may begin with. -/
def content (s : Scanner) (read : List Char → Except Problem (Token × List Char)) :
    Except Problem Scanner := do
  let s ← s.rememberKey
  let (t, rest) ← read s.rest
  return ({ s with keyAllowed := false }.moveTo rest).emit t

/-- Takes a token that stands outside all blocks. -/
def outermost (s : Scanner) (read : List Char → Except Problem (Token × List Char)) :
    Except Problem Scanner := do
  let s ← (s.closeBlocks (-1)).forgetKey
  let (t, rest) ← read s.rest
  return ({ s with keyAllowed := false }.moveTo rest).emit t

def block (s : Scanner) (literal : Bool) : Except Problem Scanner := do
  let s ← s.forgetKey
  let (text, rest) ← blockScalar literal s.indent (s.rest.drop 1)
  return ({ s with keyAllowed := true }.moveTo rest).emit (.scalar false text)

/-- Reads a plain scalar; after one that has run over the end of a line a key may begin. -/
def plain (s : Scanner) : Except Problem Scanner := do
  let s ← s.rememberKey
  let (f, rest) ← plainScalar s.inFlow (s.indent + 1) { column := s.column } s.rest
  return ({ s with keyAllowed := f.broken }.moveTo rest).emit (.scalar true f.result)

def startsPlain (s : Scanner) (c : Char) (rest : List Char) : Bool :=
  (!isBlank c && !"-?:,[]\x7b\x7d#&*!|>'\"%@\x60".toList.contains c)
    || (c == '-' && !(rest.head?.any isBlank))
    || (!s.inFlow && (c == '?' || c == ':') && !atGap rest)

def token (s : Scanner) (c : Char) (rest : List Char) : Except Problem Scanner :=
  let mark := if s.column == 0 then documentMark? s.rest else none
  let gap := s.inFlow || atGap rest
  if s.column == 0 && c == '%' then s.outermost fun cs => scanDirective (cs.drop 1)
  else
    match mark with
    | some found => s.outermost fun _ => .ok found
    | none =>
      match c with
      | '[' => s.openFlow .flowSequenceStart
      | '{' => s.openFlow .flowMappingStart
      | ']' => s.closeFlow .flowSequenceEnd
      | '}' => s.closeFlow .flowMappingEnd
      | ',' => s.flowEntry
      | '*' => s.content fun cs => do
          let (name, rest) ← anchorName (cs.drop 1)
          return (.alias name, rest)
      | '&' => s.content fun cs => do
          let (name, rest) ← anchorName (cs.drop 1)
          return (.anchor name, rest)
      | '!' => s.content (scanTag s.inFlow)
      | '\'' => s.content fun cs => do
          let (text, rest) ← singleQuoted { column := s.column + 1 } (cs.drop 1)
          return (.scalar false text, rest)
      | '"' => s.content fun cs => do
          let (text, rest) ← doubleQuoted { column := s.column + 1 } (cs.drop 1)
          return (.scalar false text, rest)
      | c =>
        if c == '-' && atGap rest then s.blockEntry
        else if c == '?' && gap then s.explicitKey
        else if c == ':' && gap then s.mappingValue
        else if c == '|' && !s.inFlow then s.block true
        else if c == '>' && !s.inFlow then s.block false
        else if s.startsPlain c rest then s.plain
        else .error .badToken

/-- Reads tokens to the end of the text. Every token takes at least one character, and so `fuel`
need only exceed the number of characters. -/
def run (fuel : Nat) (s : Scanner) : Except Problem (List Token) :=
  match fuel with
  | 0 => .error .badToken
  | fuel + 1 => do
    let s ← (s.skipGap (s.rest.length + 1)).dropStaleKeys
    let s := s.closeBlocks s.column
    match s.rest with
    | [] => do
      let s ← (s.closeBlocks (-1)).forgetKey
      return s.tokens.reverse
    | c :: rest => do
      let s ← s.token c rest
      s.run fuel

end Scanner

/-- The tokens of a text. -/
def tokens (text : String) : Except Problem (List Token) :=
  if text.toList.all isAllowed then
    let cs := normalizeBreaks text.toList
    Scanner.run (cs.length + 1) { rest := cs }
  else .error .badCharacter

end CodeIndex.Yaml
