import CodeIndex.Proofs.Text.Octets
import Mathlib.Data.String.Basic

/-! # The order of texts

Texts are in the order of their characters, and this is the order of their octets: octets of a
character are digits of its number to the base 64, with the number of digits in the first of them.
-/

namespace CodeIndex.Text

theorem ofNat_cons_lt_iff {m n : Nat} (hm : m < 256) (hn : n < 256) {xs ys : Octets} :
    UInt8.ofNat m :: xs < UInt8.ofNat n :: ys ↔ m < n ∨ m = n ∧ xs < ys := by
  rw [List.cons_lt_cons_iff, UInt8.lt_iff_toNat_lt, ← UInt8.toNat_inj,
    UInt8.toNat_ofNat_of_lt' hm, UInt8.toNat_ofNat_of_lt' hn]

/-- Octets of different characters are in the order of the characters, whatever follows them. -/
theorem utf8EncodeChar_append_lt {c d : Char} (h : c < d) (xs ys : Octets) :
    String.utf8EncodeChar c ++ xs < String.utf8EncodeChar d ++ ys := by
  have hlt : c.val.toNat < d.val.toNat := h
  have hvalid : d.val.toNat.isValidChar := d.valid
  have hmax : d.val.toNat < 0x110000 := by
    simp only [Nat.isValidChar] at hvalid
    omega
  have hdigits : ∀ k, k / 4096 = k / 64 / 64 ∧ k / 262144 = k / 64 / 64 / 64 := fun k =>
    ⟨by rw [Nat.div_div_eq_div_mul], by rw [Nat.div_div_eq_div_mul, Nat.div_div_eq_div_mul]⟩
  simp only [String.utf8EncodeChar, hdigits]
  generalize c.val.toNat = m at hlt ⊢
  generalize d.val.toNat = n at hlt hmax ⊢
  -- one case for each two numbers of octets
  split_ifs <;> simp (disch := omega) only [List.cons_append, ofNat_cons_lt_iff] <;> omega

theorem octetsOf_lt {cs ds : List Char} (h : cs < ds) : octetsOf cs < octetsOf ds := by
  induction cs generalizing ds with
  | nil =>
    cases ds with
    | nil => cases h
    | cons d ds =>
      obtain ⟨b, bs, hb⟩ := List.exists_cons_of_ne_nil (String.utf8EncodeChar_ne_nil (c := d))
      rw [octetsOf_cons, hb]
      exact List.nil_lt_cons b _
  | cons c cs ih =>
    cases ds with
    | nil => cases h
    | cons d ds =>
      rw [octetsOf_cons, octetsOf_cons]
      rcases List.cons_lt_cons_iff.mp h with hlt | ⟨rfl, hlt⟩
      · exact utf8EncodeChar_append_lt hlt _ _
      · exact List.append_left_lt (ih hlt)

/-- The order of texts is that of their octets. -/
theorem octets_lt {s t : String} (h : s < t) : octets s < octets t := by
  rw [octets_eq, octets_eq]
  exact octetsOf_lt (String.lt_iff_toList_lt.mp h)

end CodeIndex.Text
