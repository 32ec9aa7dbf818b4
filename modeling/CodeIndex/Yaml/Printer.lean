import CodeIndex.Json.Value
import CodeIndex.Yaml.Scalar
import CodeIndex.Yaml.Token

/-! # Writing YAML

A JSON value is written in block style. The items of a list that is the value of a field begin in
the column of the field's name, and everything else inside a collection stands two columns farther
to the right. A string is written plainly where it would be read as that string, and otherwise in
the first of these forms that can hold it: as a literal block if it has several lines, in single
quotes, in double quotes.
-/

namespace CodeIndex.Yaml

/-- The form in which a string is written. -/
inductive Style where
  | plain
  | singleQuoted
  | doubleQuoted
  | literal
deriving DecidableEq, Repr

namespace Style

/-- Whether a plain scalar could be taken for something else than a string. -/
def isAmbiguous (s : String) : Bool :=
  Scalar.hasLeadingZero s.toList
    || match Scalar.plainValue s with
      | .ok (.string _) => false
      | _ => true

/-- Characters that are written as they are. -/
def isPrintable (c : Char) : Bool :=
  let n := c.toNat
  n == 0x0A || (0x20 ≤ n && n ≤ 0x7E) || (0xA0 ≤ n && n ≤ 0xFFFD && c != orderMark) || 0x10000 ≤ n

/-- Whether `second` comes directly after `first` somewhere. -/
def hasPair (first second : Char → Bool) : List Char → Bool
  | a :: b :: rest => (first a && second b) || hasPair first second (b :: rest)
  | _ => false

def isSpace (c : Char) : Bool := c == ' '

/-- Whether what stands inside a text would be taken for the structure of a block; `gapBefore`
tells whether a gap comes before the text. -/
def hasBlockIndicator (gapBefore : Bool) : List Char → Bool
  | [] => false
  | c :: rest =>
    (c == ':' && atGap rest) || (c == '#' && gapBefore)
      || hasBlockIndicator (isBlank c || isBreak c) rest

/-- Whether the beginning of a text would be taken for the structure of a block. -/
def beginsLikeBlock (cs : List Char) : Bool :=
  match cs with
  | [] => false
  | c :: rest =>
    "#,[]\x7b\x7d&*!|>'\"%@\x60".toList.contains c || ((c == '?' || c == '-') && atGap rest)
      || ['-', '-', '-'].isPrefixOf cs || ['.', '.', '.'].isPrefixOf cs

/-- Whether blanks or breaks stand where no quotes can keep them. -/
def needsEscapes (cs : List Char) : Bool :=
  !cs.all isPrintable || hasPair isSpace isBreak cs

/-- Whether a text that is not ambiguous can be written plainly. -/
def isPlain (cs : List Char) : Bool :=
  !needsEscapes cs && !cs.any isBreak && !(cs.head?.any isSpace) && !(cs.getLast?.any isSpace)
    && !beginsLikeBlock cs && !hasBlockIndicator true cs

def ofString (s : String) : Style :=
  let cs := s.toList
  let quoted :=
    if needsEscapes cs || hasPair isBreak isSpace cs then .doubleQuoted else .singleQuoted
  if cs.contains '\n' then
    if needsEscapes cs || cs.getLast?.any isSpace then .doubleQuoted else .literal
  else if isAmbiguous s then quoted
  else if isPlain cs then .plain
  else quoted

end Style

/-! ## Scalars -/

def indentation (indent : Nat) : List Char :=
  List.replicate indent ' '

/-- A character in single quotes. A line that is broken goes on at the indentation; `broken` tells
whether a line has just ended. -/
def singleQuotedText (indent : Nat) (broken : Bool) : List Char → List Char
  | [] => if broken then indentation indent else []
  | c :: cs =>
    if isBreak c then c :: singleQuotedText indent true cs
    else
      (if broken then indentation indent else []) ++ (if c == '\'' then ['\'', '\''] else [c])
        ++ singleQuotedText indent false cs

def upperHexDigit (n : Nat) : Char :=
  if n < 10 then Char.ofNat (48 + n) else Char.ofNat (55 + n)

/-- The last `width` digits of a number in base sixteen. -/
def upperHex : Nat → Nat → List Char
  | 0, _ => []
  | width + 1, n => upperHex width (n / 16) ++ [upperHexDigit (n % 16)]

/-- A character in double quotes. -/
def escaped (c : Char) : List Char :=
  match c with
  | '\x00' => ['\\', '0']
  | '\x07' => ['\\', 'a']
  | '\x08' => ['\\', 'b']
  | '\t' => ['\\', 't']
  | '\n' => ['\\', 'n']
  | '\x0b' => ['\\', 'v']
  | '\x0c' => ['\\', 'f']
  | '\r' => ['\\', 'r']
  | '\x1b' => ['\\', 'e']
  | '"' => ['\\', '"']
  | '\\' => ['\\', '\\']
  | '\u0085' => ['\\', 'N']
  | '\u2028' => ['\\', 'L']
  | '\u2029' => ['\\', 'P']
  | c =>
    let n := c.toNat
    if Style.isPrintable c then [c]
    else if n ≤ 0xFF then '\\' :: 'x' :: upperHex 2 n
    else if n ≤ 0xFFFF then '\\' :: 'u' :: upperHex 4 n
    else '\\' :: 'U' :: upperHex 8 n

/-- The lines of a literal block; an empty line is not indented. -/
def literalText (indent : Nat) (lineStart : Bool) : List Char → List Char
  | [] => []
  | c :: cs =>
    if isBreak c then c :: literalText indent true cs
    else (if lineStart then indentation indent else []) ++ c :: literalText indent false cs

/-- The indicators of a literal block: the width of the indentation where the text does not show
it, and what becomes of the breaks at the end. -/
def literalHeader (cs : List Char) : List Char :=
  let width := if cs.head?.any fun c => c == ' ' || isBreak c then ['2'] else []
  let chomp := match cs.reverse with
    | [] => ['-']
    | c :: rest =>
      if !isBreak c then ['-']
      else
        match rest with
        | [] => ['+']
        | d :: _ => if isBreak d then ['+'] else []
  '|' :: (width ++ chomp)

/-- The text of a literal block up to the end of its last line. -/
def literalBlock (indent : Nat) (cs : List Char) : String :=
  let body := literalText indent true cs
  let ending := if body.getLast?.any isBreak then [] else ['\n']
  String.ofList (literalHeader cs ++ '\n' :: (body ++ ending))

/-- The text of a string on one line, or between quotation marks. -/
def inlineText (indent : Nat) (s : String) : String :=
  let cs := s.toList
  match Style.ofString s with
  | .singleQuoted => String.ofList ('\'' :: (singleQuotedText indent false cs ++ ['\'']))
  | .doubleQuoted => String.ofList ('"' :: (cs.flatMap escaped ++ ['"']))
  | .plain | .literal => s

/-- The text of a string, whose further lines are indented by `indent`, up to the end of its last
line. -/
def stringLines (indent : Nat) (s : String) : String :=
  match Style.ofString s with
  | .literal => literalBlock indent s.toList
  | _ => inlineText indent s ++ "\n"

/-! ## Collections -/

def indented (indent : Nat) (text : String) : String :=
  String.ofList (indentation indent) ++ text

open Json in
mutual

/-- The text of a value inside a collection of indentation `indent`, up to the end of its last line.
It stands behind a dash where `dash` is set and else behind the name of a field. -/
def valueText (indent : Nat) (dash : Bool) : Json.Value → String
  | .null => " null\n"
  | .bool b => if b then " true\n" else " false\n"
  | .number n => " " ++ n.text ++ "\n"
  | .string s => " " ++ stringLines (indent + 2) s
  | .array [] => " []\n"
  | .object [] => " \x7b\x7d\n"
  | .array (x :: xs) =>
    if dash then " -" ++ valueText (indent + 2) true x ++ itemsText (indent + 2) xs
    else "\n" ++ indented indent "-" ++ valueText indent true x ++ itemsText indent xs
  | .object ((name, x) :: fields) =>
    (if dash then " " else "\n" ++ indented (indent + 2) "") ++ inlineText (indent + 4) name ++ ":"
      ++ valueText (indent + 2) false x ++ fieldsText (indent + 2) fields

def itemsText (indent : Nat) : List Json.Value → String
  | [] => ""
  | x :: xs => indented indent "-" ++ valueText indent true x ++ itemsText indent xs

def fieldsText (indent : Nat) : List (String × Json.Value) → String
  | [] => ""
  | (name, x) :: fields =>
    indented indent (inlineText (indent + 2) name) ++ ":" ++ valueText indent false x
      ++ fieldsText indent fields

end

def print : Json.Value → String
  | .object (field :: fields) => fieldsText 0 (field :: fields)
  | .array (x :: xs) => itemsText 0 (x :: xs)
  | v => String.ofList ((valueText 0 true v).toList.drop 1)

end CodeIndex.Yaml
