import CodeIndex.Shell.Arithmetic
import CodeIndex.Shell.Pattern

/-! # Expansion of words

When a command is run its words become fields. Parameters, commands and calculations are replaced
by what they stand for; what comes from an unquoted one is cut at separators; and patterns are
replaced by the paths that fit them.
-/

namespace CodeIndex.Shell

/-- A part of a word that is being expanded. -/
inductive Sign where
  | char (c : Char) (quoted : Bool)
  /-- A place where quoting begins or ends. -/
  | mark
  /-- A place between arguments that stay apart. -/
  | gap
deriving DecidableEq, Repr

/-- A run of signs that may be cut: at separators, or only at gaps. -/
structure Region where
  start : Nat
  stop : Nat
  gapsOnly : Bool

/-- What has been made of a word so far. -/
structure Expanded where
  signs : Array Sign := #[]
  regions : List Region := []

namespace Sign

def char? : Sign → Option Char
  | char c _ => some c
  | _ => none

end Sign

def textOf (signs : List Sign) : String :=
  String.ofList (signs.filterMap Sign.char?)

/-- The signs as a text with a backslash in front of what is quoted. A backslash that is not quoted
quotes what follows it. -/
def patternText : Bool → List Sign → List Char
  | _, [] => []
  | _, .mark :: rest => patternText true rest
  | _, .gap :: rest => patternText true rest
  | _, .char '\\' false :: rest => '\\' :: patternText false rest
  | bare, .char c true :: rest =>
    (if bare then ['\\', c] else [c]) ++ patternText true rest
  | _, .char c false :: rest => c :: patternText true rest

def patternOf (signs : List Sign) : Pattern :=
  Pattern.ofText (patternText true signs)

/-! ## Fields -/

/-- Fields while they are cut. -/
structure Cutting where
  fields : List (List Sign) := []
  /-- The signs of the field that has begun, last one first. -/
  current : List Sign := []
  /-- Whether blanks have just ended a field. -/
  afterBlank : Bool := false
  /-- How many fields there may be, if there is a limit. -/
  limit : Option Nat := none
  /-- The field that has begun without the separators at its end. -/
  kept : Option (List Sign) := none

/-- Whether a character is a separator that may stand any number of times. -/
def isBlankSeparator (separators : List Char) (c : Char) : Bool :=
  separators.contains c && (c == ' ' || c == '\t' || c == '\n')

/-- Whether a sign stands between fields, where some characters do. -/
def Sign.separates (isSeparator : Char → Bool) : Sign → Bool
  | .gap => true
  | .char c _ => isSeparator c
  | .mark => false

namespace Cutting

def endField (cut : Cutting) : Cutting :=
  { cut with fields := cut.current.reverse :: cut.fields, current := [] }

/-- Adds a sign to the last field that there may be. -/
def addToLast (cut : Cutting) (s : Sign) (isSeparator isBlank : Bool) : Cutting :=
  let current := s :: cut.current
  if isBlank then { cut with current, kept := cut.kept <|> some cut.current }
  else if isSeparator && cut.afterBlank then { cut with current, afterBlank := false }
  else { cut with current, kept := none, afterBlank := false }

/-- Ends a field at a separator, unless it is the last one that there may be. -/
def separate (cut : Cutting) (s : Sign) (afterBlank : Bool) : Cutting :=
  match cut.limit with
  | some 1 =>
    { cut with limit := some 0, kept := some cut.current, current := s :: cut.current, afterBlank }
  | limit => { cut.endField with limit := limit.map (· - 1), afterBlank }

def addIn (separators : List Char) (gapsOnly afterGaps : Bool) (cut : Cutting) (s : Sign) :
    Cutting :=
  let isSeparator := s.separates (if gapsOnly then fun _ => false else separators.contains)
  let isBlank := s.separates (if gapsOnly then fun _ => false else isBlankSeparator separators)
  let kept := { cut with current := s :: cut.current, afterBlank := false }
  if cut.limit == some 0 then cut.addToLast s isSeparator isBlank
  else if cut.afterBlank then
    if isBlank then cut
    else if isSeparator then { cut with afterBlank := false }
    else kept
  else if isSeparator then
    let afterBlank := !(afterGaps || gapsOnly) && isBlank
    if cut.current.isEmpty && afterBlank then cut else cut.separate s afterBlank
  else kept

end Cutting

/-- Cuts the signs from number `i` on, of which the regions are in order. -/
def cutRegions (separators : List Char) (signs : List Sign) :
    Nat → Bool → List Region → Cutting → Cutting
  | i, gapsOnly, [], cut =>
    let cut := { cut with current := cut.kept.getD ((signs.drop i).reverse ++ cut.current) }
    if gapsOnly || !cut.current.isEmpty then cut.endField else cut
  | i, afterGaps, r :: rs, cut =>
    let before := (signs.drop i).take (r.start - i)
    let inside := (signs.drop r.start).take (r.stop - r.start)
    let cut := { cut with current := before.reverse ++ cut.current, afterBlank := false }
    let cut := inside.foldl (·.addIn separators r.gapsOnly afterGaps) cut
    cutRegions separators signs r.stop r.gapsOnly rs { cut with afterBlank := false }

namespace Expanded

/-- The fields of what has been expanded, at most so many if there is a limit. -/
def fieldsWithin (e : Expanded) (separators : List Char) (limit : Option Nat) : List (List Sign) :=
  (cutRegions separators e.signs.toList 0 false e.regions.reverse { limit }).fields.reverse

def fields (e : Expanded) (separators : List Char) : List (List Sign) :=
  e.fieldsWithin separators none

def size (e : Expanded) : Nat := e.signs.size

end Expanded

/-! ## Ways of expanding -/

/-- How a word is expanded. -/
structure Manners where
  /-- The word becomes any number of fields. -/
  splits : Bool := false
  /-- The word may begin with the name of a home folder. -/
  tilde : Bool := false
  /-- The word is an assignment. -/
  assigns : Bool := false
  /-- The equals sign of the assignment has been passed. -/
  inValue : Bool := false
  /-- The word stands between braces. -/
  inBraces : Bool := false
  /-- Quotation marks are around. -/
  quoted : Bool := false
  /-- Nothing is kept of the word. -/
  discards : Bool := false

/-- What gives the output of a command. -/
abbrev Substitution := Option Command → Action String

abbrev Expansion := StateT Expanded Action

namespace Expansion

def push (s : Sign) : Expansion Unit :=
  modify fun e => { e with signs := e.signs.push s }

def pushText (quoted : Bool) (text : String) : Expansion Unit :=
  modify fun e => { e with
    signs := text.toList.foldl (fun signs c =>
      if c = '\x00' then signs else signs.push (.char c quoted)) e.signs }

/-- Records that the signs from a place on may be cut. -/
def addRegion (start : Nat) (gapsOnly : Bool := false) : Expansion Unit :=
  modify fun e => { e with regions := ⟨start, e.size, gapsOnly⟩ :: e.regions }

/-- Drops the signs from a place on, and gives them. -/
def takeBack (start : Nat) : Expansion (List Sign) := do
  let e ← get
  set { e with
    signs := e.signs.take start
    regions := e.regions.filter fun r => r.start < start }
  return (e.signs.toList).drop start

/-- The home folder at the beginning of a word, and what follows it. -/
def tilde? (m : Manners) (w : Word) : Action (Option (String × Word)) := do
  let endsName (c : Char) : Bool := c == '/' || (m.assigns && c == ':')
  let name := (w.drop 1).takeWhile fun
    | .char c => !endsName c
    | _ => false
  let rest := w.drop (name.length + 1)
  let isName := match w.head?, rest.head? with
    | some (.char '~'), some (.char _) | some (.char '~'), none => true
    | _, _ => false
  unless isName do return none
  let home ← match Word.bare? name with
    | some "" => Action.valueOf? "HOME"
    | some "root" => pure (some "/root")
    | _ => pure none
  return home.map (·, rest)

def pushArguments (m : Manners) (star : Bool) : Expansion Unit := do
  let args := (← Action.process).args
  let ifs ← Action.valueOf? "IFS"
  let between : Option Sign :=
    if m.splits && (m.quoted && !star) then some .gap
    else if m.splits && !m.quoted then
      if ifs.isSome then some .gap else some (.char ' ' false)
    else
      match ifs with
      | some s => s.toList.head?.map (.char · m.quoted)
      | none => some (.char ' ' m.quoted)
  let rec go : List String → Expansion Unit
    | [] => return ()
    | [a] => pushText m.quoted a
    | a :: rest => do
      pushText m.quoted a
      match between with
      | some s => push s
      | none => pure ()
      go rest
  go args

/-- Puts the value of a parameter, and tells whether it has one. -/
def pushParameter (m : Manners) (name : String) : Expansion Bool := do
  if name = "@" || name = "*" then
    pushArguments m (name = "*")
    return true
  match ← Action.parameter? name with
  | none => return false
  | some value =>
    pushText m.quoted value
    return true

def refuseUnset (name : String) (nonempty : Bool) (message : Option String) : Action α :=
  Action.fault (name ++ ": " ++ match message with
    | some text => text
    | none => "parameter not set" ++ if nonempty then " or null" else "")

/-- What is left of a value without the part at one end that fits a pattern. -/
def trimmed (p : Pattern) (atEnd longest : Bool) (value : List Sign) : List Sign :=
  let text (signs : List Sign) : List Char := signs.filterMap Sign.char?
  let sizes := List.range (value.length + 1)
  let sizes := if longest then sizes.reverse else sizes
  let fits (n : Nat) : Bool :=
    p.isMatch (text (if atEnd then value.drop (value.length - n) else value.take n))
  match sizes.find? fits with
  | none => value
  | some n => if atEnd then value.take (value.length - n) else value.drop n

/-- Records the region of a parameter that has been put from a place on. -/
def recordParameter (m : Manners) (name : String) (start : Nat) : Expansion Unit := do
  if m.discards then return ()
  if m.quoted then
    if name = "@" && !(← Action.process).args.isEmpty then addRegion start true
  else addRegion start

/-- Puts what a parameter in braces stands for. `word` expands the word in the braces. -/
def parameter (word : Manners → Word → Expansion Unit) (m : Manners) (name : String)
    (op : Operation) (nonempty : Bool) (w : Word) : Expansion Unit := do
  if op = .bad then
    unless m.discards do Action.fault "Bad substitution"
    return ()
  let start := (← get).size
  let isSet ← pushParameter m name
  let isEmpty := (← get).size = start
  let has := isSet && !(nonempty && isEmpty)
  let requireSet : Expansion Unit := do
    if !isSet && !m.discards && (← Action.hasOption 'u') then refuseUnset name false none
  let drop : Expansion Unit := do
    let _ ← takeBack start
  let braced : Manners := { m with tilde := true, inBraces := true }
  /- The value is kept, or else taken back. -/
  match op with
  | .value =>
    requireSet
    if m.discards then drop else recordParameter m name start
  | .length =>
    drop
    requireSet
    unless m.discards do
      /- The number of characters of the value, and not of its quotation. -/
      let _ ← pushParameter { m with splits := false } name
      let n := (← takeBack start).length
      pushText m.quoted (toString n)
      recordParameter m name start
  | .unless =>
    if has then
      word { braced with discards := true } w
      if m.discards then drop else recordParameter m name start
    else
      drop
      word braced w
  | .provided =>
    drop
    if has then word braced w
    else word { braced with discards := true } w
  | .assign | .require =>
    if has || m.discards then
      if m.discards then drop else recordParameter m name start
    else
      drop
      word { tilde := true } w
      let text := textOf (← takeBack start)
      if op = .require then
        refuseUnset name nonempty (if w.isEmpty then none else some text)
      Action.checkName name
      Action.assign name text
      let _ ← pushParameter m name
      recordParameter m name start
  | .trim atEnd longest =>
    requireSet
    if m.discards || !isSet then drop
    else
      let place := (← get).size
      word { tilde := true } w
      let p := patternOf (← takeBack place)
      let value ← takeBack start
      for s in trimmed p atEnd longest value do push s
      recordParameter m name start
  | .bad => return ()

/-- Puts the output of a command without the ends of its last lines. -/
def command (substitute : Substitution) (m : Manners) (c : Option Command) : Expansion Unit := do
  if m.discards then return ()
  let start := (← get).size
  let output ← substitute c
  let kept := (output.toList.filter (· ≠ '\x00')).reverse.dropWhile (· = '\n')
  pushText m.quoted (String.ofList kept.reverse)
  unless m.quoted do addRegion start

def arithmetic (word : Manners → Word → Expansion Unit) (m : Manners) (w : Word) :
    Expansion Unit := do
  let start := (← get).size
  word { discards := m.discards } w
  let text := textOf (← takeBack start)
  unless m.discards do
    pushText m.quoted (toString (← Action.calculate text))
    unless m.quoted do addRegion start

/-- The characters at the front that are not quoted, up to a place where a home folder may be
named, and whether there is such a place. -/
def plainRun (m : Manners) : Word → List Char × Bool × Word
  | .char c :: rest =>
    if m.assigns && (c = ':' || (c = '=' && !m.inValue)) then ([c], true, rest)
    else
      let (cs, mayBeTilde, rest) := plainRun m rest
      (c :: cs, mayBeTilde, rest)
  | rest => ([], false, rest)

/-- Expands the pieces of a word; `word` expands the words inside of them. -/
def pieces (substitute : Substitution) (word : Manners → Word → Expansion Unit) :
    Nat → Manners → Bool → Word → Expansion Unit
  | 0, _, _, _ | _, _, _, [] => return ()
  | n + 1, m, inQuotes, p :: rest => do
    let own : Manners := { m with quoted := m.quoted || inQuotes }
    let home ← if m.tilde then tilde? m (p :: rest) else pure none
    let m := { m with tilde := false }
    let goOn (rest : Word) : Expansion Unit := pieces substitute word n m inQuotes rest
    match home with
    | some (home, rest) =>
      unless m.discards do pushText true home
      goOn rest
    | none =>
      match p, rest with
      | .char _, _ =>
        let (cs, tilde, rest) := plainRun m (p :: rest)
        unless m.discards do
          let start := (← get).size
          pushText false (String.ofList cs)
          if m.inBraces && !own.quoted then addRegion start
        let inValue := m.inValue || cs.getLast? = some '='
        pieces substitute word n { m with tilde, inValue } inQuotes rest
      | .quoted c, _ =>
        unless m.discards do push (.char c true)
        goOn rest
      | .mark, .parameter "@" .value false [] :: .mark :: rest' =>
        if inQuotes then
          unless m.discards do push .mark
          pieces substitute word n m false rest
        else
          parameter word { m with quoted := true } "@" .value false []
          goOn rest'
      | .mark, _ =>
        unless m.discards do push .mark
        pieces substitute word n m (!inQuotes) rest
      | .parameter name op nonempty w, _ =>
        parameter word own name op nonempty w
        goOn rest
      | .output c, _ =>
        command substitute own c
        goOn rest
      | .arithmetic w, _ =>
        arithmetic word own w
        goOn rest

/-- Expands a word, at most so deep inside of each other. -/
def word (substitute : Substitution) : Nat → Manners → Word → Expansion Unit
  | 0, _, _ => return ()
  | n + 1, m, w =>
    pieces substitute (fun m w => word substitute n m w) (w.length + 1) m false w

end Expansion

namespace Action

def maxWordDepth : Nat := 1000

def expanded (substitute : Substitution) (m : Manners) (w : Word) : Action Expanded := do
  let (_, e) ← (Expansion.word substitute maxWordDepth m w).run {}
  return e

def textOfWord (substitute : Substitution) (w : Word) (m : Manners := { tilde := true }) :
    Action String := do
  return textOf (← expanded substitute m w).signs.toList

def patternOfWord (substitute : Substitution) (w : Word) : Action Pattern := do
  return patternOf (← expanded substitute { tilde := true } w).signs.toList

/-- The paths that a field stands for, or its text where it stands for none. -/
def pathsOf (field : List Sign) : Action (List String) := do
  let m ← get
  let found := if m.process.options.contains 'f' then []
    else (patternOf field).paths m.world.disk m.process.cwd
  return if found.isEmpty then [textOf field] else found

def fieldsOf (substitute : Substitution) (w : Word) : Action (List String) := do
  let e ← expanded substitute { splits := true, tilde := true } w
  let fields := e.fields (← separators).toList
  return (← fields.mapM pathsOf).flatten

end Action

end CodeIndex.Shell
