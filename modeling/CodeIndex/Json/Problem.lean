/-! # What can be wrong with a JSON text -/

namespace CodeIndex.Json

/-- The first thing that keeps a text from being read. -/
inductive Problem where
  /-- The text ends inside a value, or holds none. -/
  | unfinished
  /-- What stands at this place is not JSON. -/
  | malformed
  /-- The text is JSON so far, but a value of another type is wanted here. -/
  | mismatched
deriving DecidableEq, Repr

def Problem.message : Problem → String
  | .unfinished => "the text ends inside a value"
  | .malformed => "the text is not JSON"
  | .mismatched => "a value has the wrong type"

end CodeIndex.Json
