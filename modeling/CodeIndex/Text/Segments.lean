/-! # Segments of a text

A text is cut at every occurrence of a separating character; a text without one is a single
segment.
-/

namespace CodeIndex.Text

def segments (c : Char) : List Char → List (List Char)
  | [] => [[]]
  | x :: xs =>
    if x = c then [] :: segments c xs
    else
      match segments c xs with
      | [] => [[x]]
      | s :: ss => (x :: s) :: ss

def digitValue? (c : Char) : Option Nat :=
  if c.isDigit then some (c.toNat - 48) else none

/-- The number that digits spell, of which there has to be one. -/
def natOfDigits? : List Char → Option Nat
  | [] => none
  | cs => (cs.mapM digitValue?).map fun ds => ds.foldl (fun n d => 10 * n + d) 0

end CodeIndex.Text
