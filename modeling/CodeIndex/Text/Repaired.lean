import CodeIndex.Text.Octet

/-! # Repaired texts

Octets that are meant to be a text in UTF-8 are read as one whatever they hold: each longest run of
octets that begins a character without completing it, and each octet that begins none, counts as
one replacement character.
-/

namespace CodeIndex.Text

/-- What stands for octets that spell no character. -/
def replacement : Char := '\ufffd'

/-- The shape of a character whose first octet is `b`: the number of octets that follow, the bounds
of the second octet, and the bits of the first one. -/
def leadShape? (b : UInt8) : Option (Nat × UInt8 × UInt8 × Nat) :=
  if b < 0x80 then some (0, 0x80, 0xBF, b.toNat)
  else if b < 0xC2 then none
  else if b < 0xE0 then some (1, 0x80, 0xBF, b.toNat - 0xC0)
  else if b < 0xF0 then
    some (2, if b = 0xE0 then 0xA0 else 0x80, if b = 0xED then 0x9F else 0xBF, b.toNat - 0xE0)
  else if b < 0xF5 then
    some (3, if b = 0xF0 then 0x90 else 0x80, if b = 0xF4 then 0x8F else 0xBF, b.toNat - 0xF0)
  else none

/-- The characters that octets spell. `pending` tells of a character that has begun how many octets
it lacks, the bounds of the next one, and the bits so far. -/
def repairedFrom (pending : Option (Nat × UInt8 × UInt8 × Nat)) : Octets → List Char
  | [] => if pending.isSome then [replacement] else []
  | b :: bs =>
    let start (before : List Char) : List Char :=
      before ++
        match leadShape? b with
        | none => replacement :: repairedFrom none bs
        | some (0, _, _, n) => Char.ofNat n :: repairedFrom none bs
        | some shape => repairedFrom (some shape) bs
    match pending with
    | none => start []
    | some (lacking, low, high, bits) =>
      if low ≤ b ∧ b ≤ high then
        let bits := 64 * bits + (b.toNat - 0x80)
        if lacking ≤ 1 then Char.ofNat bits :: repairedFrom none bs
        else repairedFrom (some (lacking - 1, 0x80, 0xBF, bits)) bs
      else start [replacement]

/-- The text that octets spell, with replacement characters for what spells nothing. -/
def repaired (bs : Octets) : String :=
  match ofOctets? bs with
  | some text => text
  | none => String.ofList (repairedFrom none bs)

end CodeIndex.Text
