/-! # YAML values -/

namespace CodeIndex.Yaml

inductive Number where
  /-- An integer from `-2^63` to `2^64 - 1`. -/
  | int (n : Int)
  | float (x : Float)
deriving Repr

namespace Number

/-- Whether two numbers are the same key: an integer is no float, and what is not a number is the
same as itself. -/
def same : Number → Number → Bool
  | .int m, .int n => m == n
  | .float x, .float y => x == y || (x.isNaN && y.isNaN)
  | _, _ => false

end Number

inductive Value where
  | null
  | bool (b : Bool)
  | number (n : Number)
  | string (s : String)
  | sequence (items : List Value)
  /-- Entries in their order; no two of their keys are the same. -/
  | mapping (entries : List (Value × Value))
  | tagged (tag : String) (value : Value)
deriving Repr, Inhabited

namespace Value

mutual

/-- Whether two values are the same key. The order of the entries of a mapping does not count. -/
def same : Value → Value → Bool
  | .null, .null => true
  | .bool a, .bool b => a == b
  | .number m, .number n => m.same n
  | .string s, .string t => s == t
  | .sequence xs, .sequence ys => sameItems xs ys
  | .mapping xs, .mapping ys => xs.length == ys.length && sameEntries xs ys
  | .tagged s v, .tagged t w => s == t && v.same w
  | _, _ => false

def sameItems : List Value → List Value → Bool
  | [], [] => true
  | x :: xs, y :: ys => x.same y && sameItems xs ys
  | _, _ => false

def sameEntries : List (Value × Value) → List (Value × Value) → Bool
  | [], _ => true
  | (k, v) :: xs, ys => ys.any (fun (k', v') => k.same k' && v.same v') && sameEntries xs ys

end

def untagged : Value → Value
  | .tagged _ v => v.untagged
  | v => v

end Value

end CodeIndex.Yaml
