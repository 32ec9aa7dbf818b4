import CodeIndex.Text.Octet

/-! # Octets of texts

The octets of a text are those of its characters in turn. A character of ASCII is one octet, and
all octets of any other character lie above those of ASCII.
-/

namespace CodeIndex.Text

def octetsOf (cs : List Char) : Octets :=
  cs.flatMap String.utf8EncodeChar

@[simp] theorem octetsOf_nil : octetsOf [] = [] := rfl

@[simp] theorem octetsOf_cons (c : Char) (cs : List Char) :
    octetsOf (c :: cs) = String.utf8EncodeChar c ++ octetsOf cs := rfl

@[simp] theorem octetsOf_append (cs ds : List Char) :
    octetsOf (cs ++ ds) = octetsOf cs ++ octetsOf ds :=
  List.flatMap_append

theorem octetsOf_flatMap (f : α → List Char) (xs : List α) :
    octetsOf (xs.flatMap f) = xs.flatMap fun x => octetsOf (f x) :=
  List.flatMap_assoc

theorem octets_ofList (cs : List Char) : octets (String.ofList cs) = octetsOf cs := by
  simp [octets, String.toUTF8, List.utf8Encode, octetsOf]

theorem octets_eq (s : String) : octets s = octetsOf s.toList := by
  rw [← octets_ofList, String.ofList_toList]

theorem utf8EncodeChar_of_lt {c : Char} (h : c.toNat < 0x80) :
    String.utf8EncodeChar c = [UInt8.ofNat c.toNat] := by
  have hv : c.val.toNat ≤ 0x7f := Nat.le_of_lt_succ h
  simp only [String.utf8EncodeChar, if_pos hv]
  rfl

theorem le_of_mem_utf8EncodeChar {c : Char} (h : 0x80 ≤ c.toNat) {b : UInt8}
    (hb : b ∈ String.utf8EncodeChar c) : 0x80 ≤ b := by
  have hv : ¬ c.val.toNat ≤ 0x7f := Nat.not_le.mpr h
  have hn : ∀ n, 0x80 ≤ n → n < 0x100 → (0x80 : UInt8) ≤ UInt8.ofNat n := by
    intro n hl hu
    rw [UInt8.le_iff_toNat_le, UInt8.toNat_ofNat_of_lt' hu]
    exact hl
  simp only [String.utf8EncodeChar, if_neg hv] at hb
  split at hb
  · simp only [List.mem_cons, List.not_mem_nil, or_false] at hb
    rcases hb with rfl | rfl <;> exact hn _ (by omega) (by omega)
  · split at hb
    · simp only [List.mem_cons, List.not_mem_nil, or_false] at hb
      rcases hb with rfl | rfl | rfl <;> exact hn _ (by omega) (by omega)
    · simp only [List.mem_cons, List.not_mem_nil, or_false] at hb
      rcases hb with rfl | rfl | rfl | rfl <;> exact hn _ (by omega) (by omega)

end CodeIndex.Text
