import CodeIndex.Json.Event
import CodeIndex.Json.Value
import CodeIndex.Proofs.Text.Octets

/-! # Quoted strings

Each character of a quoted string is spelled by itself, by a backslash and a letter, or by a
backslash and its number. Reading passes over any of these spellings, and decoding what was passed
over gives the character back, so a string that has been quoted is read and decoded as it was.
-/

namespace CodeIndex.Json

open Text

/-- Octets that stand for themselves in a string. -/
def IsPlain (b : UInt8) : Prop :=
  0x20 ≤ b ∧ b ≠ Octet.quote ∧ b ≠ Octet.backslash

/-- The octets that may spell a character in a string, apart from surrogate pairs. -/
inductive Spelling (c : Char) : Octets → Prop where
  | plain (h : ∀ b ∈ String.utf8EncodeChar c, IsPlain b) : Spelling c (String.utf8EncodeChar c)
  | letter {e b : UInt8} (he : escape? e = some b) (hc : String.utf8EncodeChar c = [b]) :
    Spelling c [Octet.backslash, e]
  | number {p q r s : UInt8} (hn : unit? p q r s = some c.toNat) :
    Spelling c [Octet.backslash, Octet.letterU, p, q, r, s]

theorem ne_letterU_of_escape? {e b : UInt8} (h : escape? e = some b) : e ≠ Octet.letterU := by
  rintro rfl
  have hu : escape? Octet.letterU = none := rfl
  rw [hu] at h
  cases h

/-! ## Reading -/

theorem stringBody_quote (read rest : Octets) :
    stringBody read (Octet.quote :: rest) = (.string read.reverse, rest) :=
  stringBody.eq_2 read rest

theorem stringBody_letter (read : Octets) {e b : UInt8} (h : escape? e = some b)
    (rest : Octets) :
    stringBody read (Octet.backslash :: e :: rest) =
      stringBody (e :: Octet.backslash :: read) rest := by
  have hu := ne_letterU_of_escape? h
  refine (stringBody.eq_6 read e rest (fun _ _ _ _ _ he _ => hu he) hu).trans ?_
  rw [h]

theorem stringBody_number (read : Octets) {p q r s : UInt8} {n : Nat}
    (h : unit? p q r s = some n) (rest : Octets) :
    stringBody read (Octet.backslash :: Octet.letterU :: p :: q :: r :: s :: rest) =
      stringBody (s :: r :: q :: p :: Octet.letterU :: Octet.backslash :: read) rest := by
  refine (stringBody.eq_4 read p q r s rest).trans ?_
  rw [h]

theorem stringBody_plain (read : Octets) {b : UInt8} (h : IsPlain b) (rest : Octets) :
    stringBody read (b :: rest) = stringBody (b :: read) rest := by
  obtain ⟨hs, hq, hb⟩ := h
  refine (stringBody.eq_7 read b rest hq (fun h _ => hb h) (fun _ _ _ _ _ h _ => hb h)
    (fun _ h _ => hb h) (fun _ _ h _ => hb h)).trans ?_
  rw [if_neg (UInt8.not_lt.mpr hs)]

theorem stringBody_allPlain (read : Octets) {bs : Octets} (h : ∀ b ∈ bs, IsPlain b)
    (rest : Octets) : stringBody read (bs ++ rest) = stringBody (bs.reverse ++ read) rest := by
  induction bs generalizing read with
  | nil => rfl
  | cons b bs ih =>
    rw [List.cons_append, stringBody_plain read (h b List.mem_cons_self),
      ih _ fun d hd => h d (List.mem_cons_of_mem _ hd)]
    simp

theorem stringBody_spelling (read : Octets) {c : Char} {bs : Octets} (h : Spelling c bs)
    (rest : Octets) : stringBody read (bs ++ rest) = stringBody (bs.reverse ++ read) rest := by
  cases h with
  | plain h => exact stringBody_allPlain read h rest
  | letter he hc => exact stringBody_letter read he rest
  | number hn => exact stringBody_number read hn rest

/-! ## Decoding -/

theorem unescapeFrom_plain (done : Octets) {b : UInt8} (h : b ≠ Octet.backslash)
    (rest : Octets) : unescapeFrom done (b :: rest) = unescapeFrom (b :: done) rest :=
  unescapeFrom.eq_6 done b rest (fun _ _ _ _ _ hb _ => h hb) (fun _ hb _ => h hb)
    (fun hb _ => h hb) (fun _ _ hb _ => h hb)

theorem unescapeFrom_letter (done : Octets) {e b : UInt8} (h : escape? e = some b)
    (rest : Octets) :
    unescapeFrom done (Octet.backslash :: e :: rest) = unescapeFrom (b :: done) rest := by
  have hu := ne_letterU_of_escape? h
  refine (unescapeFrom.eq_5 done e rest (fun _ _ _ _ _ he _ => hu he) hu).trans ?_
  rw [h]

theorem unescapeFrom_number (done : Octets) {p q r s : UInt8} {n : Nat}
    (h : unit? p q r s = some n) (hl : isLowHalf n = false) (hh : isHighHalf n = false)
    (rest : Octets) :
    unescapeFrom done (Octet.backslash :: Octet.letterU :: p :: q :: r :: s :: rest) =
      unescapeFrom ((String.utf8EncodeChar (Char.ofNat n)).reverse ++ done) rest := by
  refine (unescapeFrom.eq_2 done p q r s rest).trans ?_
  simp only [h, hl, hh, Bool.false_eq_true, if_false]

theorem unescapeFrom_allPlain (done : Octets) {bs : Octets} (h : ∀ b ∈ bs, IsPlain b)
    (rest : Octets) : unescapeFrom done (bs ++ rest) = unescapeFrom (bs.reverse ++ done) rest := by
  induction bs generalizing done with
  | nil => rfl
  | cons b bs ih =>
    rw [List.cons_append, unescapeFrom_plain done (h b List.mem_cons_self).2.2,
      ih _ fun d hd => h d (List.mem_cons_of_mem _ hd)]
    simp

theorem not_isHalf (c : Char) : isLowHalf c.toNat = false ∧ isHighHalf c.toNat = false := by
  have hv : c.toNat.isValidChar := c.valid
  simp only [Nat.isValidChar] at hv
  simp only [isLowHalf, isHighHalf, Bool.and_eq_false_iff, decide_eq_false_iff_not]
  omega

theorem unescapeFrom_spelling (done : Octets) {c : Char} {bs : Octets} (h : Spelling c bs)
    (rest : Octets) :
    unescapeFrom done (bs ++ rest) =
      unescapeFrom ((String.utf8EncodeChar c).reverse ++ done) rest := by
  cases h with
  | plain h => exact unescapeFrom_allPlain done h rest
  | letter he hc =>
    rw [hc]
    exact unescapeFrom_letter done he rest
  | number hn =>
    obtain ⟨hl, hh⟩ := not_isHalf c
    rw [← Char.ofNat_toNat c]
    exact unescapeFrom_number done hn hl hh rest

/-! ## Writing -/

theorem unit?_hexDigit (n : Nat) (h : n < 0x20) :
    unit? 0x30 0x30 (UInt8.ofNat (hexDigit (n / 16)).toNat) (UInt8.ofNat (hexDigit (n % 16)).toNat)
      = some n := by
  revert n
  decide

theorem hexDigit_lt (n : Nat) (h : n < 16) : (hexDigit n).toNat < 0x80 := by
  revert n
  decide

theorem isPlain_of_mem {c : Char} (hs : ¬ c.toNat < 0x20) (hq : c ≠ '"') (hb : c ≠ '\\')
    {b : UInt8} (hmem : b ∈ String.utf8EncodeChar c) : IsPlain b := by
  by_cases ha : c.toNat < 0x80
  · rw [utf8EncodeChar_of_lt ha, List.mem_singleton] at hmem
    have hn : b.toNat = c.toNat := by
      rw [hmem, UInt8.toNat_ofNat_of_lt' (Nat.lt_trans ha (by decide))]
    have hne : ∀ d : Char, c ≠ d → b.toNat ≠ d.toNat := fun d hd he =>
      hd (Char.toNat_inj.mp (hn.symm.trans he))
    refine ⟨?_, fun h => hne '"' hq (congrArg UInt8.toNat h),
      fun h => hne '\\' hb (congrArg UInt8.toNat h)⟩
    rw [UInt8.le_iff_toNat_le, hn]
    exact Nat.le_of_not_lt hs
  · have hle := le_of_mem_utf8EncodeChar (Nat.le_of_not_lt ha) hmem
    refine ⟨UInt8.le_trans (by decide) hle, ?_, ?_⟩
    · rintro rfl
      exact absurd hle (by decide)
    · rintro rfl
      exact absurd hle (by decide)

theorem spelling_escapeChar (c : Char) : Spelling c (octetsOf (escapeChar c)) := by
  unfold escapeChar
  split
  case h_8 hq hb _ _ _ _ _ =>
    split
    · next hc =>
      have h₁ := hexDigit_lt (c.toNat / 16) (by omega)
      have h₂ := hexDigit_lt (c.toNat % 16) (by omega)
      simp only [octetsOf_cons, octetsOf_nil, utf8EncodeChar_of_lt h₁, utf8EncodeChar_of_lt h₂]
      exact Spelling.number (unit?_hexDigit c.toNat hc)
    · next hc =>
      simp only [octetsOf_cons, octetsOf_nil, List.append_nil]
      exact Spelling.plain fun b hmem => isPlain_of_mem hc hq hb hmem
  all_goals exact Spelling.letter rfl rfl

def escaped (s : String) : Octets :=
  s.toList.flatMap fun c => octetsOf (escapeChar c)

theorem octets_quote (s : String) :
    octets (quote s) = Octet.quote :: (escaped s ++ [Octet.quote]) := by
  have hq : String.utf8EncodeChar '"' = [Octet.quote] := rfl
  rw [quote, octets_ofList]
  simp only [octetsOf_cons, octetsOf_append, octetsOf_flatMap, octetsOf_nil, hq, escaped]
  rfl

theorem stringBody_escaped (s : String) (rest : Octets) :
    stringBody [] (escaped s ++ Octet.quote :: rest) = (.string (escaped s), rest) := by
  have h : ∀ (cs : List Char) (read : Octets),
      stringBody read (cs.flatMap (fun c => octetsOf (escapeChar c)) ++ Octet.quote :: rest) =
        (.string (read.reverse ++ cs.flatMap fun c => octetsOf (escapeChar c)), rest) := by
    intro cs
    induction cs with
    | nil => simp [stringBody_quote]
    | cons c cs ih =>
      intro read
      rw [List.flatMap_cons, List.append_assoc, stringBody_spelling read (spelling_escapeChar c),
        ih]
      simp
  exact h s.toList []

theorem unescape_escaped (s : String) : unescape (escaped s) = .text (octets s) := by
  have h : ∀ (cs : List Char) (done : Octets),
      unescapeFrom done (cs.flatMap fun c => octetsOf (escapeChar c)) =
        .text (done.reverse ++ octetsOf cs) := by
    intro cs
    induction cs with
    | nil => simp [unescapeFrom]
    | cons c cs ih =>
      intro done
      rw [List.flatMap_cons, unescapeFrom_spelling done (spelling_escapeChar c), ih]
      simp
  rw [unescape, escaped, h, octets_eq]
  rfl

theorem decodeString?_escaped (s : String) : decodeString? (escaped s) = some s := by
  rw [decodeString?, unescape_escaped]
  exact ofOctets?_octets s

theorem readString_escaped (s : String) : readString (escaped s) = .ok s := by
  rw [readString, decodeString?_escaped]

end CodeIndex.Json
