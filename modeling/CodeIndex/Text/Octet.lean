/-! # Octets of ASCII characters

Names for the octets that give a text its structure, usable as patterns.
-/

namespace CodeIndex.Text

/-- A text as it is stored, before any decoding. -/
abbrev Octets := List UInt8

namespace Octet

@[match_pattern] abbrev tab : UInt8 := 0x09
@[match_pattern] abbrev lineFeed : UInt8 := 0x0A
@[match_pattern] abbrev carriageReturn : UInt8 := 0x0D
@[match_pattern] abbrev space : UInt8 := 0x20
@[match_pattern] abbrev quote : UInt8 := 0x22
@[match_pattern] abbrev plus : UInt8 := 0x2B
@[match_pattern] abbrev comma : UInt8 := 0x2C
@[match_pattern] abbrev minus : UInt8 := 0x2D
@[match_pattern] abbrev point : UInt8 := 0x2E
@[match_pattern] abbrev slash : UInt8 := 0x2F
@[match_pattern] abbrev zero : UInt8 := 0x30
@[match_pattern] abbrev colon : UInt8 := 0x3A
@[match_pattern] abbrev upperE : UInt8 := 0x45
@[match_pattern] abbrev openBracket : UInt8 := 0x5B
@[match_pattern] abbrev backslash : UInt8 := 0x5C
@[match_pattern] abbrev closeBracket : UInt8 := 0x5D
@[match_pattern] abbrev letterA : UInt8 := 0x61
@[match_pattern] abbrev letterB : UInt8 := 0x62
@[match_pattern] abbrev letterE : UInt8 := 0x65
@[match_pattern] abbrev letterF : UInt8 := 0x66
@[match_pattern] abbrev letterL : UInt8 := 0x6C
@[match_pattern] abbrev letterN : UInt8 := 0x6E
@[match_pattern] abbrev letterR : UInt8 := 0x72
@[match_pattern] abbrev letterS : UInt8 := 0x73
@[match_pattern] abbrev letterT : UInt8 := 0x74
@[match_pattern] abbrev letterU : UInt8 := 0x75
@[match_pattern] abbrev openBrace : UInt8 := 0x7B
@[match_pattern] abbrev closeBrace : UInt8 := 0x7D

def digit? (b : UInt8) : Option Nat :=
  if 0x30 ≤ b ∧ b ≤ 0x39 then some (b.toNat - 0x30) else none

/-- The value of a hexadecimal digit in either case. -/
def hexDigit? (b : UInt8) : Option Nat :=
  if 0x30 ≤ b ∧ b ≤ 0x39 then some (b.toNat - 0x30)
  else if 0x41 ≤ b ∧ b ≤ 0x46 then some (b.toNat - 0x37)
  else if 0x61 ≤ b ∧ b ≤ 0x66 then some (b.toNat - 0x57)
  else none

end Octet

def octets (s : String) : Octets :=
  s.toUTF8.data.toList

/-- The string that octets spell in UTF-8, if they spell one. -/
def ofOctets? (bs : Octets) : Option String :=
  String.fromUTF8? ⟨bs.toArray⟩

/-- Reading the octets of a string gives the string. -/
@[simp] theorem ofOctets?_octets (s : String) : ofOctets? (octets s) = some s := by
  have h : (⟨(octets s).toArray⟩ : ByteArray) = s.toByteArray := by
    simp [octets, String.toUTF8]
  rw [ofOctets?, h, String.fromUTF8?, dif_pos s.isValidUTF8]
  rfl

@[simp] theorem octets_append (s t : String) : octets (s ++ t) = octets s ++ octets t := by
  simp [octets, String.toUTF8]

end CodeIndex.Text
