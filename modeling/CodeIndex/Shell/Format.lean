import CodeIndex.Shell.FloatText

/-! # Formats of output

Backslashes in a format stand for control characters and for octets given by octal digits; percent
signs stand for arguments. A format is used again and again as long as it uses up arguments and
some are left.
-/

namespace CodeIndex.Shell.Format

def isOctal (c : Char) : Bool := '0' ≤ c && c ≤ '7'

/-- The control character that a letter behind a backslash stands for. -/
def control? : Char → Option Char
  | 'a' => some '\x07'
  | 'b' => some '\x08'
  | 'e' => some '\x1b'
  | 't' => some '\t'
  | 'n' => some '\n'
  | 'v' => some '\x0b'
  | 'f' => some '\x0c'
  | 'r' => some '\r'
  | '\\' => some '\\'
  | _ => none

/-- The character with the number that at most three octal digits at the front spell, and what
follows them. -/
def octal (cs : List Char) : Char × List Char :=
  let ds := (cs.takeWhile isOctal).take 3
  (Char.ofNat ((natural 8 0 ds).1 % 256), cs.drop ds.length)

/-- The character that the characters behind a backslash stand for, and what follows them. -/
def escape : List Char → Char × List Char
  | [] => ('\\', [])
  | c :: cs =>
    match control? c with
    | some d => (d, cs)
    | none => if isOctal c then octal (c :: cs) else ('\\', c :: cs)

/-- The characters that a text with backslashes stands for, and whether it ends all output. A zero
may stand before three octal digits. -/
def unescapedFrom : Nat → List Char → List Char × Bool
  | 0, _ | _, [] => ([], false)
  | n + 1, '\\' :: cs =>
    match cs with
    | 'c' :: _ => ([], true)
    | _ =>
      let (c, rest) := match cs with
        | '0' :: ds => octal ds
        | _ => escape cs
      let (text, ends) := unescapedFrom n rest
      (c :: text, ends)
  | n + 1, c :: cs =>
    let (text, ends) := unescapedFrom n cs
    (c :: text, ends)

def unescaped (s : String) : List Char × Bool :=
  unescapedFrom (s.length + 1) s.toList

/-! ## Layouts -/

/-- How an argument is laid out. -/
structure Layout where
  left : Bool := false
  zeros : Bool := false
  plus : Bool := false
  space : Bool := false
  /-- Whether the form shows more than it has to. -/
  full : Bool := false
  width : Nat := 0
  precision : Option Nat := none

namespace Layout

/-- Puts a text between blanks, or behind zeros that follow its sign. -/
def pad (l : Layout) (zeros : Bool) (sign text : List Char) : List Char :=
  let gap := l.width - sign.length - text.length
  if l.left then sign ++ text ++ List.replicate gap ' '
  else if zeros then sign ++ List.replicate gap '0' ++ text
  else List.replicate gap ' ' ++ sign ++ text

def text (l : Layout) (cs : List Char) : List Char :=
  l.pad false [] (match l.precision with
    | some n => cs.take n
    | none => cs)

def atLeast (l : Layout) (digits : List Char) : List Char :=
  List.replicate (l.precision.getD 1 - digits.length) '0' ++ digits

def sign (l : Layout) (isNegative : Bool) : List Char :=
  if isNegative then ['-'] else if l.plus then ['+'] else if l.space then [' '] else []

/-- The digits of a number; zero has none where no digits are wanted. -/
def digits (base n : Nat) : List Char :=
  if n = 0 then [] else Nat.toDigits base n

def integer (l : Layout) (n : Int) : List Char :=
  l.pad (l.zeros && l.precision.isNone) (l.sign (n < 0)) (l.atLeast (digits 10 n.natAbs))

def natural (l : Layout) (letter : Char) (n : Nat) : List Char :=
  let zeros := l.zeros && l.precision.isNone
  match letter with
  | 'o' =>
    let ds := l.atLeast (digits 8 n)
    l.pad zeros [] (if l.full && ds.head? ≠ some '0' then '0' :: ds else ds)
  | 'x' => l.pad zeros (if l.full && n ≠ 0 then ['0', 'x'] else []) (l.atLeast (digits 16 n))
  | 'X' =>
    l.pad zeros (if l.full && n ≠ 0 then ['0', 'X'] else [])
      (l.atLeast ((digits 16 n).map Char.toUpper))
  | _ => l.pad zeros [] (l.atLeast (digits 10 n))

def float (l : Layout) (letter : Char) (x : FloatText.Leading) : List Char :=
  let form : FloatText.Form := match letter.toLower with
    | 'f' => .fixed
    | 'e' => .exponent
    | 'g' => .general
    | _ => .hexadecimal
  let ds := FloatText.digits form l.full l.precision x.value
  let isFinite := x.value.isFinite
  let (mark, ds) := if form = .hexadecimal && isFinite then (ds.take 2, ds.drop 2) else ([], ds)
  let capital (cs : List Char) := if letter.isUpper then cs.map Char.toUpper else cs
  l.pad (l.zeros && isFinite) (l.sign x.isNegative ++ capital mark) (capital ds)

end Layout

/-! ## Use of arguments -/

/-- What a format has given so far. -/
structure State where
  args : List String
  /-- The output, last character first. -/
  output : List Char := []
  /-- What was wrong with arguments. -/
  complaints : List String := []

/-- Why a format is not used any further. -/
inductive Stop where
  /-- An argument ends all output. -/
  | ended
  | refused (message : String)

abbrev Use := ExceptT Stop (StateM State)

namespace Use

def put (cs : List Char) : Use Unit :=
  modify fun s => { s with output := cs.reverse ++ s.output }

def takeArg : Use (Option String) := do
  let s ← get
  set { s with args := s.args.drop 1 }
  return s.args.head?

def complain (arg reason : String) : Use Unit :=
  modify fun s => { s with complaints := s.complaints ++ [arg ++ ": " ++ reason] }

/-- Complains about an argument of which `rest` could not be read. -/
def check (arg : String) (rest : List Char) (isOutOfRange : Bool) : Use Unit := do
  unless rest.isEmpty do
    complain arg
      (if rest = arg.toList then "expected numeric value" else "not completely converted")
    return ()
  if isOutOfRange then complain arg "Numerical result out of range"

/-- The number of the character behind a quotation mark. -/
def characterNumber? (arg : String) : Option Nat :=
  match arg.toList with
  | '"' :: rest | '\'' :: rest => some ((rest.head?.map Char.toNat).getD 0)
  | _ => none

/-- The next argument as a number, or zero if there is none. -/
def takeNumber (least greatest : Int) : Use Int := do
  match ← takeArg with
  | none => return 0
  | some arg =>
    match characterNumber? arg with
    | some n => return n
    | none =>
      match leadingNumber? false arg.toList with
      | none =>
        check arg arg.toList false
        return 0
      | some n =>
        let isOutOfRange := n.value < least || greatest < n.value
        check arg n.rest isOutOfRange
        let bound := if n.value < least && least ≠ -greatest then least else greatest
        return if isOutOfRange then bound else n.value

/-- The next argument as a number of 64 bits with a sign. -/
def takeInteger : Use Int :=
  takeNumber minInteger maxInteger

/-- The next argument as a number of 64 bits without a sign; a negative one is counted from the
greatest downwards. -/
def takeNatural : Use Nat := do
  let n ← takeNumber (-(UInt64.size - 1)) (UInt64.size - 1)
  return (n % UInt64.size).toNat

def takeFloat : Use FloatText.Leading := do
  match ← takeArg with
  | none => return { value := 0, rest := [] }
  | some arg =>
    match characterNumber? arg with
    | some n => return { value := Float.ofNat n, rest := [] }
    | none =>
      match FloatText.leading? arg.toList with
      | none =>
        check arg arg.toList false
        return { value := 0, rest := [] }
      | some x =>
        check arg x.rest x.isOutOfRange
        return x

/-- The number at the front, or an argument for a star, and what follows it. -/
def count (cs : List Char) : Use (Option Int × List Char) := do
  match cs with
  | '*' :: rest => return (some (← takeInteger), rest)
  | _ =>
    let ds := cs.takeWhile Char.isDigit
    let rest := cs.dropWhile fun c => c.isDigit || c == '*'
    return ((Text.natOfDigits? ds).map Int.ofNat, rest)

/-- The layout behind a percent sign, and what follows it. -/
def layout (cs : List Char) : Use (Layout × List Char) := do
  let flags := cs.takeWhile ("#-+ 0".toList.contains ·)
  let (width, rest) ← count (cs.drop flags.length)
  let width := width.getD 0
  let l : Layout := {
    left := flags.contains '-' || width < 0, zeros := flags.contains '0'
    plus := flags.contains '+', space := flags.contains ' ', full := flags.contains '#'
    width := width.natAbs }
  match rest with
  | '.' :: rest =>
    let (precision, rest) ← count rest
    let n := precision.getD 0
    return (if n < 0 then l else { l with precision := some n.toNat }, rest)
  | _ => return (l, rest)

/-- Puts the next argument as the letter of a directive says. -/
def convert (l : Layout) (letter : Char) (directive : List Char) : Use Unit := do
  match letter with
  | 's' => put (l.text ((← takeArg).getD "").toList)
  | 'b' =>
    let (cs, ends) := unescaped ((← takeArg).getD "")
    put (l.text cs)
    if ends then throw .ended
  | 'c' => put (l.pad false [] [(((← takeArg).getD "").toList.head?).getD '\x00'])
  | 'd' | 'i' => put (l.integer (← takeInteger))
  | 'o' | 'u' | 'x' | 'X' => put (l.natural letter (← takeNatural))
  | 'a' | 'A' | 'e' | 'E' | 'f' | 'F' | 'g' | 'G' => put (l.float letter (← takeFloat))
  | _ => throw (.refused (String.ofList directive ++ ": invalid directive"))

def once : Nat → List Char → Use Unit
  | 0, _ | _, [] => return ()
  | n + 1, '\\' :: cs => do
    let (c, rest) := escape cs
    put [c]
    once n rest
  | n + 1, '%' :: '%' :: cs => do
    put ['%']
    once n cs
  | n + 1, '%' :: cs => do
    let (l, rest) ← layout cs
    match rest with
    | [] => throw (.refused "missing format character")
    | letter :: after =>
      convert l letter ('%' :: cs.take (cs.length - after.length))
      once n after
  | n + 1, c :: cs => do
    put [c]
    once n cs

/-- Goes through a format as long as it uses up arguments and some are left. -/
def repeated (format : List Char) : Nat → Use Unit
  | 0 => return ()
  | n + 1 => do
    let before := (← get).args.length
    once (format.length + 1) format
    let after := (← get).args.length
    if after ≠ before && after ≠ 0 then repeated format n

end Use

/-- What a format gives: the output, what was wrong with arguments, and why it is refused. -/
structure Result where
  output : String
  complaints : List String
  refusal : Option String

def result (format : String) (args : List String) : Result :=
  let (ending, s) := Id.run ((Use.repeated format.toList (args.length + 1)).run.run { args })
  { output := String.ofList s.output.reverse
    complaints := s.complaints
    refusal := match ending with
      | .error (.refused message) => some message
      | _ => none }

end CodeIndex.Shell.Format
