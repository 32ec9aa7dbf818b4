import CodeIndex.Text.Packed

/-! # Names in messages

A name stands in a message as it could be typed: as it is where every character is plain, and
between quotation marks otherwise. What cannot be printed is escaped.
-/

namespace CodeIndex.Shell

def isPrintable (c : Char) : Bool :=
  ' ' ≤ c && c ≤ '~'

/-- Whether a name with this character cannot be typed as it is. -/
def needsQuotes (isFirst isOnly : Bool) (c : Char) : Bool :=
  if c = '\x7b' || c = '\x7d' then isOnly
  else if c = '#' || c = '~' then isFirst
  else !isPrintable c || " !\"$&'()*:;<=>?[\\^\x60|".toList.contains c

def isPlainName : List Char → Bool
  | [] => false
  | c :: cs => !needsQuotes true cs.isEmpty c && !cs.any (needsQuotes false false)

/-- Whether a character means nothing between double quotation marks. -/
def isPlainInDoubleQuotes (isFirst : Bool) (c : Char) : Bool :=
  isPrintable c && !"!\"$&()*;<=>?[\\^\x60\x7b|\x7d".toList.contains c
    && (isFirst || (c != '#' && c != '~'))

/-- Whether a name fits between double quotation marks as it is. -/
def isPlainInside : List Char → Bool
  | [] => true
  | c :: cs => isPlainInDoubleQuotes true c && cs.all (isPlainInDoubleQuotes false)

/-- What stands behind a backslash for a character that cannot be printed. -/
def escapeOf (c : Char) : List Char :=
  match c with
  | '\x07' => ['a']
  | '\x08' => ['b']
  | '\t' => ['t']
  | '\n' => ['n']
  | '\x0b' => ['v']
  | '\x0c' => ['f']
  | '\r' => ['r']
  | c => [c.toNat / 64, c.toNat / 8 % 8, c.toNat % 8].map Nat.digitChar

/-- The characters of a name between single quotation marks; `escaped` says that the last one was
escaped, which is done between marks of another kind. -/
def quotedFrom (escaped : Bool) : List Char → List Char
  | [] => ['\'']
  | c :: cs =>
    if c = '\'' then ['\'', '\\', '\'', '\''] ++ quotedFrom false cs
    else if isPrintable c then (if escaped then ['\'', '\''] else []) ++ c :: quotedFrom false cs
    else (if escaped then ['\\'] else ['\'', '$', '\'', '\\']) ++ escapeOf c ++ quotedFrom true cs

/-- A packed name as it stands in a message. Where it holds a single quotation mark, the end of an
escape is written in front of it if it ends with one. -/
def quoted (name : String) : String :=
  let cs := name.toList
  if isPlainName cs then name
  else if cs.contains '\'' && isPlainInside cs then "\"" ++ name ++ "\""
  else
    let escaped := cs.contains '\'' && cs.getLast?.any (!isPrintable ·)
    String.ofList ('\'' :: quotedFrom escaped cs)

end CodeIndex.Shell
