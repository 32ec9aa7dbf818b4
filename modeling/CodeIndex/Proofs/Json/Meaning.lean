import CodeIndex.Proofs.Json.Integer
import CodeIndex.Proofs.Json.Quoted

/-! # What numerals and strings stand for

A string stands for the text whose octets are left when each escape in it is replaced by those of
the character that it names. A numeral stands for an integer where it is a plain one of at most 64
bits, and otherwise for a float.
-/

namespace CodeIndex.Json

open Text

/-! ## Strings -/

/-- The octets of a string with every escape replaced by the octets of its character. -/
inductive Unfolds : Octets → Octets → Prop where
  | nil : Unfolds [] []
  | plain {b : UInt8} {raw bs : Octets} (hb : b ≠ Octet.backslash) (h : Unfolds raw bs) :
    Unfolds (b :: raw) (b :: bs)
  | letter {e b : UInt8} {raw bs : Octets} (he : escape? e = some b) (h : Unfolds raw bs) :
    Unfolds (Octet.backslash :: e :: raw) (b :: bs)
  /-- A numbered character is none of the halves of a surrogate pair. -/
  | number {p q r s : UInt8} {n : Nat} {raw bs : Octets} (hn : unit? p q r s = some n)
      (hlow : isLowHalf n = false) (hhigh : isHighHalf n = false) (h : Unfolds raw bs) :
    Unfolds (Octet.backslash :: Octet.letterU :: p :: q :: r :: s :: raw)
      (String.utf8EncodeChar (Char.ofNat n) ++ bs)
  | pair {p q r s p' q' r' s' : UInt8} {n m : Nat} {raw bs : Octets}
      (hn : unit? p q r s = some n) (hhigh : isHighHalf n = true)
      (hm : unit? p' q' r' s' = some m) (hlow : isLowHalf m = true) (h : Unfolds raw bs) :
    Unfolds (Octet.backslash :: Octet.letterU :: p :: q :: r :: s ::
        Octet.backslash :: Octet.letterU :: p' :: q' :: r' :: s' :: raw)
      (String.utf8EncodeChar (joinHalves n m) ++ bs)

/-- Whether the octets between two quotes stand for a text. -/
def Spells (raw : Octets) (s : String) : Prop :=
  Unfolds raw (octets s)

theorem isLowHalf_of_isHighHalf {n : Nat} (h : isHighHalf n = true) : isLowHalf n = false := by
  simp only [isHighHalf, isLowHalf, Bool.and_eq_true, Bool.and_eq_false_iff, decide_eq_true_eq,
    decide_eq_false_iff_not] at h ⊢
  omega

theorem unescapeFrom_pair (done : Octets) {p q r s p' q' r' s' : UInt8} {n m : Nat}
    (hn : unit? p q r s = some n) (hhigh : isHighHalf n = true) (hm : unit? p' q' r' s' = some m)
    (hlow : isLowHalf m = true) (rest : Octets) :
    unescapeFrom done (Octet.backslash :: Octet.letterU :: p :: q :: r :: s ::
        Octet.backslash :: Octet.letterU :: p' :: q' :: r' :: s' :: rest) =
      unescapeFrom ((String.utf8EncodeChar (joinHalves n m)).reverse ++ done) rest := by
  refine (unescapeFrom.eq_2 done p q r s _).trans ?_
  simp only [hn, hhigh, isLowHalf_of_isHighHalf hhigh, Bool.false_eq_true, if_false, if_true]
  split
  case h_3 heq =>
    cases heq
    simp only [hm, hlow, if_true]
  case h_4 hfour heq =>
    cases heq
    exact absurd rfl (hfour _ _ _ _ _)
  case h_5 hnumber => exact absurd rfl (hnumber _)
  case h_1 heq => cases heq
  case h_2 heq => cases heq

theorem unescapeFrom_of_unfolds {raw bs : Octets} (h : Unfolds raw bs) (done : Octets) :
    unescapeFrom done raw = .text (done.reverse ++ bs) := by
  induction h generalizing done with
  | nil => simp [unescapeFrom]
  | plain hb h ih =>
    rw [unescapeFrom_plain done hb, ih]
    simp
  | letter he h ih =>
    rw [unescapeFrom_letter done he, ih]
    simp
  | number hn hlow hhigh h ih =>
    rw [unescapeFrom_number done hn hlow hhigh, ih]
    simp
  | pair hn hhigh hm hlow h ih =>
    rw [unescapeFrom_pair done hn hhigh hm hlow, ih]
    simp

theorem unfolds_of_unescapeFrom {done raw bs : Octets} (h : unescapeFrom done raw = .text bs) :
    ∃ out, Unfolds raw out ∧ bs = done.reverse ++ out := by
  fun_induction unescapeFrom done raw with
  | case1 done =>
    cases h
    exact ⟨[], .nil, by simp⟩
  | case7 done p q r s n hn hlow hhigh p' q' r' s' rest m hm hlow' ih =>
    rcases ih h with ⟨out, hout, hbs⟩
    exact ⟨_, .pair hn hhigh hm hlow' hout, by rw [hbs]; simp⟩
  | case11 done p q r s rest n hn hlow hhigh ih =>
    rcases ih h with ⟨out, hout, rfl⟩
    rw [Bool.not_eq_true] at hlow hhigh
    exact ⟨_, .number hn hlow hhigh hout, by simp⟩
  | case15 done e rest _ _ b he ih =>
    rcases ih h with ⟨out, hout, rfl⟩
    exact ⟨_, .letter he hout, by simp⟩
  | case16 done b rest _ _ hlast hletter ih =>
    have hb : b ≠ Octet.backslash := by
      intro hb
      cases rest with
      | nil => exact hlast hb rfl
      | cons e rest => exact hletter e rest hb rfl
    rcases ih h with ⟨out, hout, rfl⟩
    exact ⟨_, .plain hb hout, by simp⟩
  | _ => cases h

theorem unescape_eq_text {raw bs : Octets} : unescape raw = .text bs ↔ Unfolds raw bs := by
  constructor
  · intro h
    rcases unfolds_of_unescapeFrom h with ⟨out, hout, rfl⟩
    exact hout
  · intro h
    exact unescapeFrom_of_unfolds h []

theorem ofOctets?_eq_some {bs : Octets} {s : String} : ofOctets? bs = some s ↔ bs = octets s := by
  constructor
  · intro h
    rw [ofOctets?, String.fromUTF8?] at h
    split at h
    · cases h
      simp [octets, String.toUTF8, String.fromUTF8]
    · cases h
  · rintro rfl
    exact ofOctets?_octets s

/-- Decoding gives the text that a string stands for. -/
theorem readString_eq_ok {raw : Octets} {s : String} : readString raw = .ok s ↔ Spells raw s := by
  have hdecode : decodeString? raw = some s ↔ Spells raw s := by
    rw [Spells, ← unescape_eq_text, decodeString?]
    cases unescape raw with
    | text bs => rw [ofOctets?_eq_some, Unescaped.text.injEq]
    | bad | unfinished => simp
  rw [← hdecode, readString]
  cases decodeString? raw <;> simp

theorem Spells.unique {raw : Octets} {s t : String} (hs : Spells raw s) (ht : Spells raw t) :
    s = t := by
  rw [← readString_eq_ok] at hs ht
  exact Except.ok.inj (hs.symm.trans ht)

/-! ## Numerals -/

namespace Numeral

/-- Whether a numeral is a plain integer of at most 64 bits, which a negative zero is not. -/
structure IsInt (n : Numeral) (i : Int) : Prop where
  fraction : n.fraction = []
  exponent : n.exponent = none
  value : i = if n.negative then -(natOfDigits n.whole : Int) else natOfDigits n.whole
  sign : n.negative = true → i ≠ 0
  range : -2 ^ 63 ≤ i ∧ i < 2 ^ 64

/-- What a numeral stands for. -/
inductive Denotes (n : Numeral) : Number → Prop where
  | int {i : Int} (h : n.IsInt i) : Denotes n (.int i)
  | float {x : Float} (h : ∀ i, ¬ n.IsInt i) (hx : n.magnitude? = some x) :
    Denotes n (.float (if n.negative then -x else x))

theorem int?_eq_some {n : Numeral} {i : Int} : n.int? = some i ↔ n.IsInt i := by
  have hsize : UInt64.size = 2 ^ 64 := rfl
  rcases n with ⟨negative, whole, fraction, exponent⟩
  simp only [int?, hsize]
  constructor
  · intro h
    split at h
    · next hplain =>
      simp only [Bool.and_eq_true, List.isEmpty_iff, Option.isNone_iff_eq_none] at hplain
      cases negative with
      | true =>
        rw [if_pos rfl] at h
        split at h
        · cases h
          exact ⟨hplain.1, hplain.2, rfl, fun _ => by omega, by omega⟩
        · cases h
      | false =>
        rw [if_neg Bool.false_ne_true] at h
        split at h
        · cases h
          have hsign : ¬ false = true := Bool.false_ne_true
          exact ⟨hplain.1, hplain.2, rfl, fun hneg => absurd hneg hsign, by omega⟩
        · cases h
    · cases h
  · rintro ⟨rfl, rfl, rfl, hsign, hrange⟩
    cases negative with
    | true =>
      have hne := hsign rfl
      simp at hne hrange ⊢
      omega
    | false =>
      simp at hrange ⊢
      omega

/-- Reading gives the number that a numeral stands for. -/
theorem readNumber_eq_ok {n : Numeral} {x : Number} : readNumber n = .ok x ↔ n.Denotes x := by
  have hvalue : n.value? = some x ↔ n.Denotes x := by
    unfold value?
    cases hi : n.int? with
    | some i =>
      have hint := int?_eq_some.mp hi
      constructor
      · rintro ⟨⟩
        exact .int hint
      · rintro (h | ⟨h, -⟩)
        · rw [← hi, int?_eq_some.mpr h]
        · exact absurd hint (h i)
    | none =>
      have hnone : ∀ i, ¬ n.IsInt i := by
        intro i h
        rw [int?_eq_some.mpr h] at hi
        cases hi
      rw [Option.map_eq_some_iff]
      constructor
      · rintro ⟨y, hy, rfl⟩
        exact .float hnone hy
      · rintro (h | ⟨-, hy⟩)
        · exact absurd h (hnone _)
        · exact ⟨_, hy, rfl⟩
  rw [← hvalue, readNumber]
  cases n.value? <;> simp

end Numeral

end CodeIndex.Json
