import CodeIndex.Json.Token

/-! # Escapes in JSON strings

Decoding of the octets between the quotes. A character outside the basic plane may be written as
two numbered escapes, the halves of a surrogate pair, and a half alone stands for nothing.
-/

namespace CodeIndex.Json

open Text

/-- What comes of decoding the octets of a string. -/
inductive Unescaped where
  | text (bs : Octets)
  | bad
  /-- The octets end inside an escape, or between the halves of a surrogate pair. -/
  | unfinished
deriving DecidableEq, Repr

def isHighHalf (n : Nat) : Bool :=
  0xD800 ≤ n && n ≤ 0xDBFF

def isLowHalf (n : Nat) : Bool :=
  0xDC00 ≤ n && n ≤ 0xDFFF

/-- The character that the two halves of a surrogate pair stand for. -/
def joinHalves (high low : Nat) : Char :=
  Char.ofNat ((high - 0xD800) * 0x400 + (low - 0xDC00) + 0x10000)

/-- Decodes octets behind those in `done`, which are in reverse. -/
def unescapeFrom (done : Octets) : Octets → Unescaped
  | [] => .text done.reverse
  | Octet.backslash :: Octet.letterU :: a :: b :: c :: d :: rest =>
    match unit? a b c d with
    | none => .bad
    | some n =>
      if isLowHalf n then .bad
      else if isHighHalf n then
        match rest with
        | [] | [Octet.backslash] => .unfinished
        | Octet.backslash :: Octet.letterU :: a :: b :: c :: d :: rest =>
          match unit? a b c d with
          | none => .bad
          | some m =>
            if isLowHalf m then
              unescapeFrom ((String.utf8EncodeChar (joinHalves n m)).reverse ++ done) rest
            else .bad
        | Octet.backslash :: Octet.letterU :: _ => .unfinished
        | _ => .bad
      else unescapeFrom ((String.utf8EncodeChar (Char.ofNat n)).reverse ++ done) rest
  | Octet.backslash :: Octet.letterU :: _ => .unfinished
  | [Octet.backslash] => .unfinished
  | Octet.backslash :: e :: rest =>
    match escape? e with
    | none => .bad
    | some b => unescapeFrom (b :: done) rest
  | b :: rest => unescapeFrom (b :: done) rest

def unescape (raw : Octets) : Unescaped :=
  unescapeFrom [] raw

/-- The string that the octets between two quotes stand for. -/
def decodeString? (raw : Octets) : Option String :=
  match unescape raw with
  | .text bs => ofOctets? bs
  | .bad | .unfinished => none

end CodeIndex.Json
