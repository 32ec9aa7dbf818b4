import CodeIndex.Shell.Descriptors
import CodeIndex.Shell.Quoted

/-! # Copying files

The program writes the content of files to its output one after another, and the content of its
input where there is none or where a hyphen stands for one. It may number the lines, leave out
repeated empty ones, and show characters that cannot be seen.
-/

namespace CodeIndex.Shell.Cat

open Shell.Action
open Text (Octets)

/-! ## Options -/

/-- How content is shown. -/
structure Style where
  numbers : Bool := false
  /-- Only lines that are not empty have numbers. -/
  skipsEmpty : Bool := false
  squeezes : Bool := false
  showsEnds : Bool := false
  showsTabs : Bool := false
  showsControls : Bool := false
deriving DecidableEq, Repr

namespace Style

def add (s : Style) : Char → Style
  | 'b' => { s with numbers := true, skipsEmpty := true }
  | 'e' => { s with showsEnds := true, showsControls := true }
  | 'n' => { s with numbers := true }
  | 's' => { s with squeezes := true }
  | 't' => { s with showsTabs := true, showsControls := true }
  | 'v' => { s with showsControls := true }
  | 'A' => { s with showsEnds := true, showsTabs := true, showsControls := true }
  | 'E' => { s with showsEnds := true }
  | 'T' => { s with showsTabs := true }
  | _ => s

end Style

def letters : String := "benstuvAET"

/-- The names of the options, and the letter that each stands for if it has one. -/
def names : List (String × Option Char) :=
  [("number-nonblank", some 'b'), ("number", some 'n'), ("squeeze-blank", some 's'),
    ("show-nonprinting", some 'v'), ("show-ends", some 'E'), ("show-tabs", some 'T'),
    ("show-all", some 'A'), ("help", none), ("version", none)]

/-- Why nothing is copied. -/
inductive Refusal where
  | helpWanted
  | versionWanted
  | misused (message : String)
deriving DecidableEq, Repr

/-- The option with a name, of which only the beginning need be written. -/
def optionNamed (text : String) : Except Refusal (Option Char) :=
  let (name, value) := text.toList.span (· ≠ '=')
  let known : Option (String × Option Char) → Except Refusal (Option Char)
    | none => .error (.misused ("unrecognized option '--" ++ text ++ "'"))
    | some (full, letter) =>
      if !value.isEmpty then
        .error (.misused ("option '--" ++ full ++ "' doesn't allow an argument"))
      else if full = "help" then .error .helpWanted
      else if full = "version" then .error .versionWanted
      else .ok letter
  match names.filter fun (full, _) => name.isPrefixOf full.toList with
  | [] => known none
  | [one] => known (some one)
  | several =>
    match several.find? fun (full, _) => full.toList = name with
    | some exact => known (some exact)
    | none =>
      let list := " ".intercalate (several.map fun (full, _) => "'--" ++ full ++ "'")
      .error (.misused ("option '--" ++ text ++ "' is ambiguous; possibilities: " ++ list))

def ofArguments : List String → Except Refusal (List Char × List String)
  | [] => .ok ([], [])
  | arg :: rest =>
    match arg.toList with
    | ['-', '-'] => .ok ([], rest)
    | '-' :: '-' :: text => do
      let option ← optionNamed (String.ofList text)
      let (options, files) ← ofArguments rest
      return (option.toList ++ options, files)
    | '-' :: c :: cs => do
      match (c :: cs).find? fun c => !letters.toList.contains c with
      | some c => throw (.misused ("invalid option -- '" ++ String.singleton c ++ "'"))
      | none =>
        let (options, files) ← ofArguments rest
        return (c :: cs ++ options, files)
    | _ => do
      let (options, files) ← ofArguments rest
      return (options, arg :: files)

/-! ## Content -/

/-- What has been copied so far. -/
structure Progress where
  /-- How many ends of lines there were last, up to two; none in the middle of a line. -/
  ends : Option Nat := some 0
  /-- The number of the last line that has one. -/
  line : Nat := 0
  /-- A carriage return is kept back. -/
  hasReturn : Bool := false
deriving Repr

/-- An octet that is written for what cannot be seen. -/
def visible (s : Style) (b : UInt8) : Octets :=
  let caret (b : UInt8) : Octets :=
    if b = 0x7F then [0x5E, 0x3F] else if b < 0x20 then [0x5E, b + 0x40] else [b]
  if b = 0x09 then if s.showsTabs then [0x5E, 0x49] else [b]
  else if !s.showsControls then [b]
  else if b < 0x80 then caret b
  else [0x4D, 0x2D] ++ caret (b - 0x80)

def lineNumber (n : Nat) : Octets :=
  let digits := toString n
  Text.octets (String.ofList (List.replicate (6 - digits.length) ' ') ++ digits ++ "\t")

def lineEnd (s : Style) (p : Progress) : Octets × Progress :=
  let ends := match p.ends with
    | none => 0
    | some n => min (n + 1) 2
  if s.squeezes && ends = 2 then ([], { p with ends := some 2 })
  else
    let isNumbered := 0 < ends && s.numbers && !s.skipsEmpty
    let line := if isNumbered then p.line + 1 else p.line
    ((if isNumbered then lineNumber line else [])
      ++ (if s.showsEnds then (if p.hasReturn then [0x5E, 0x4D] else []) ++ [0x24] else [])
      ++ [0x0A], { ends := some ends, line })

def octet (s : Style) (p : Progress) (b : UInt8) : Octets × Progress :=
  if b = 0x0A then lineEnd s p
  else
    let isNumbered := p.ends.isSome && s.numbers
    let line := if isNumbered then p.line + 1 else p.line
    let returned := if p.hasReturn then [0x0D] else []
    let before := returned ++ (if isNumbered then lineNumber line else [])
    if b = 0x0D && s.showsEnds && !s.showsControls then
      (before, { ends := none, line, hasReturn := true })
    else (before ++ visible s b, { ends := none, line })

/-- What is written for content, the latest part first. -/
def contentFrom (s : Style) : Progress → List Octets → Octets → List Octets × Progress
  | p, parts, [] => (parts, p)
  | p, parts, b :: bs =>
    let (part, p) := octet s p b
    contentFrom s p (part :: parts) bs

def content (s : Style) (p : Progress) (bs : Octets) : Octets × Progress :=
  if s = {} then (bs, p)
  else
    let (parts, p) := contentFrom s p [] bs
    (parts.reverse.flatten, p)

/-! ## The program -/

def usage (program : String) : String :=
  "Usage: " ++ program ++ " [OPTION]... [FILE]...\nConcatenate FILE(s) to standard output.\n"

/-- Whether an open file is the one on the disk that the output goes to, and there is something in
it still to be read. -/
def isOwnOutput (input output : Stream) : Action Bool := do
  match input, output with
  | .file location offset _, .file target .. =>
    return location = target && offset < (← contentAt location).length
  | _, _ => return false

def copy (program : String) (s : Style) (p : Progress) (descriptor : Nat) :
    Action (Except String Progress) := do
  match ← fileOf? descriptor, ← fileOf? 1 with
  | some (_, input), some (_, output) =>
    if ← isOwnOutput input.stream output.stream then
      return .error "input file is output file"
    else
      match ← read descriptor none with
      | .error fault => return .error fault.reason
      | .ok bs =>
        let (written, p) := content s p bs
        unless written.isEmpty || (← write 1 written) do
          report (program ++ ": write error: " ++ Fault.badDescriptor.reason ++ "\n")
          throw (.gone (.exited 1))
        return .ok p
  | _, _ => return .error Fault.badDescriptor.reason

def copyAll (program : String) (s : Style) : Nat → Progress → List String → Action Nat
  | status, p, [] => do
    if p.hasReturn then
      let _ ← write 1 [0x0D]
    return status
  | status, p, name :: rest => do
    let result ← do
      if name = "-" then copy program s p 0
      else
        match ← withFile name (copy program s p) with
        | .error fault => pure (.error fault.reason)
        | .ok result => pure result
    match result with
    | .ok p => copyAll program s status p rest
    | .error reason =>
      report (program ++ ": " ++ quoted name ++ ": " ++ reason ++ "\n")
      copyAll program s 1 p rest

def run (program : String) (args : List String) : Action Nat := do
  match ofArguments args with
  | .error .helpWanted =>
    let _ ← write 1 (Text.unpack (usage program))
    return 0
  | .error .versionWanted =>
    let _ ← write 1 (Text.octets "cat\n")
    return 0
  | .error (.misused message) =>
    report (program ++ ": " ++ message ++ "\nTry '" ++ program
      ++ " --help' for more information.\n")
    return 1
  | .ok (options, files) =>
    if (← fileOf? 1).isNone then
      report (program ++ ": standard output: " ++ Fault.badDescriptor.reason ++ "\n")
      return 1
    let files := if files.isEmpty then ["-"] else files
    let status ← copyAll program (options.foldl Style.add {}) 0 {} files
    if files.contains "-" && (← fileOf? 0).isNone then
      report (program ++ ": closing standard input: " ++ Fault.badDescriptor.reason ++ "\n")
      return 1
    return status

end CodeIndex.Shell.Cat
