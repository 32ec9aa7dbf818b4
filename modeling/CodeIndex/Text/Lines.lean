/-! # Lines of a text

A line ends at a line feed, and a carriage return directly before that line feed belongs to the
ending. Nothing follows the last line feed unless there are characters after it.
-/

namespace CodeIndex.Text

/-- Drops the carriage return that ends a line, if there is one. -/
def dropReturn : List Char → List Char
  | [] => []
  | ['\r'] => []
  | c :: cs => c :: dropReturn cs

/-- The lines of a text, without their endings. `line` holds, in reverse, what has been read of
the current line. -/
def linesFrom (line : List Char) : List Char → List (List Char)
  | [] => if line.isEmpty then [] else [line.reverse]
  | '\n' :: cs => dropReturn line.reverse :: linesFrom [] cs
  | c :: cs => linesFrom (c :: line) cs

def lines (text : String) : List String :=
  (linesFrom [] text.toList).map String.ofList

/-- At most `count` lines behind the first `skipped` ones, joined by line feeds; `none` when there
are none. -/
def slice? (text : String) (skipped count : Nat) : Option String :=
  match ((lines text).drop skipped).take count with
  | [] => none
  | covered => some ("\n".intercalate covered)

end CodeIndex.Text
