import CodeIndex.Text.Octet

/-! # Packed texts

A packed text has one character for each octet, the one with its number. Octets that spell no
character can be handled as a text in this form.
-/

namespace CodeIndex.Text

def pack (bs : Octets) : String :=
  String.ofList (bs.map fun b => Char.ofNat b.toNat)

def unpack (s : String) : Octets :=
  s.toList.map fun c => UInt8.ofNat c.toNat

def packed (s : String) : String :=
  pack (octets s)

/-- The string that a packed text stands for, if it stands for one. -/
def unpacked? (s : String) : Option String :=
  ofOctets? (unpack s)

end CodeIndex.Text
