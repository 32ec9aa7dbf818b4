import CodeIndex.Proofs.Json.Compact
import CodeIndex.Proofs.Json.Phrase

/-! # Lexemes of JSON texts

The octets of a token are its lexeme: a sign of punctuation, a word, a numeral, or a string between
quotes. A text is a row of lexemes with any number of blanks around each, and it is cut into the
tokens of these lexemes as long as no number stands right before something that may go on with it,
which never happens in a phrase.
-/

namespace CodeIndex.Json

open Text Numeral

instance (b : UInt8) : Decidable (IsPlain b) :=
  inferInstanceAs (Decidable (0x20 ≤ b ∧ b ≠ Octet.quote ∧ b ≠ Octet.backslash))

/-- Octets that may stand between the quotes of a string. -/
inductive IsRaw : Octets → Prop where
  | nil : IsRaw []
  | plain {b : UInt8} {raw : Octets} (hb : IsPlain b) (h : IsRaw raw) : IsRaw (b :: raw)
  | letter {e b : UInt8} {raw : Octets} (he : escape? e = some b) (h : IsRaw raw) :
    IsRaw (Octet.backslash :: e :: raw)
  | number {p q r s : UInt8} {n : Nat} {raw : Octets} (hn : unit? p q r s = some n)
      (h : IsRaw raw) : IsRaw (Octet.backslash :: Octet.letterU :: p :: q :: r :: s :: raw)

/-- The octets that may spell a token. -/
inductive Lexeme : Octets → Token → Prop where
  | openObject : Lexeme [Octet.openBrace] .openObject
  | closeObject : Lexeme [Octet.closeBrace] .closeObject
  | openArray : Lexeme [Octet.openBracket] .openArray
  | closeArray : Lexeme [Octet.closeBracket] .closeArray
  | comma : Lexeme [Octet.comma] .comma
  | colon : Lexeme [Octet.colon] .colon
  | null : Lexeme (octets "null") .null
  | true : Lexeme (octets "true") (.bool true)
  | false : Lexeme (octets "false") (.bool false)
  | number {n : Numeral} {bs : Octets} (h : n.SpelledBy bs) : Lexeme bs (.number n)
  | string {raw : Octets} (h : IsRaw raw) :
    Lexeme (Octet.quote :: (raw ++ [Octet.quote])) (.string raw)

/-- Whether octets are nothing but blanks. -/
def Blank (s : Octets) : Prop := ∀ b ∈ s, isBlank b = true

instance (s : Octets) : Decidable (Blank s) :=
  List.decidableBAll (isBlank · = true) s

/-- Whether octets are a row of lexemes with blanks around them. -/
inductive Spaced : Octets → List Token → Prop where
  | nil {w : Octets} (hw : Blank w) : Spaced w []
  | cons {w l rest : Octets} {t : Token} {ts : List Token} (hw : Blank w) (hl : Lexeme l t)
      (h : Spaced rest ts) : Spaced (w ++ (l ++ rest)) (t :: ts)

/-! ## Lexemes are read as their tokens -/

theorem stringBody_raw {raw : Octets} (h : IsRaw raw) (read rest : Octets) :
    stringBody read (raw ++ Octet.quote :: rest) = (.string (read.reverse ++ raw), rest) := by
  induction h generalizing read with
  | nil => simp [stringBody_quote]
  | plain hb h ih =>
    rw [List.cons_append, stringBody_plain read hb, ih]
    simp
  | letter he h ih =>
    rw [List.cons_append, List.cons_append, stringBody_letter read he, ih]
    simp
  | number hn h ih =>
    simp only [List.cons_append]
    rw [stringBody_number read hn, ih]
    simp

def Token.isNumber : Token → Bool
  | .number _ => true
  | _ => false

/-- A lexeme is read as its token, before whatever does not go on with it if it is a number. -/
theorem tokens_lexeme {l : Octets} {t : Token} (h : Lexeme l t) {rest : Octets}
    (hrest : t.isNumber = true → EndsNumber rest) : tokens (l ++ rest) = t :: tokens rest := by
  cases h with
  | number h =>
    rcases scanToken_numeral h with ⟨b, bs, rfl, hb, hs⟩
    exact tokens_cons hb (hs rest (hrest rfl))
  | @string raw h =>
    have hs := stringBody_raw h [] rest
    rw [List.cons_append, List.append_assoc]
    exact tokens_cons rfl hs
  | _ => exact tokens_cons rfl rfl

theorem tokens_blank {w : Octets} (hw : Blank w) (s : Octets) : tokens (w ++ s) = tokens s := by
  induction w with
  | nil => rfl
  | cons b w ih =>
    rw [List.cons_append, tokens, tokensFrom_cons, if_pos (hw b List.mem_cons_self)]
    exact ih fun c hc => hw c (List.mem_cons_of_mem b hc)

def Token.isDelimiter : Token → Bool
  | .comma | .closeArray | .closeObject => true
  | _ => false

/-- Whether nothing but a delimiter comes next. -/
def DelimiterNext (ts : List Token) : Prop := ∀ t ∈ ts.head?, t.isDelimiter = true

def NumbersApart : List Token → Prop
  | [] => True
  | t :: ts => (t.isNumber = true → DelimiterNext ts) ∧ NumbersApart ts

theorem endsNumber_of_blank {b : UInt8} (h : isBlank b = true) (rest : Octets) :
    EndsNumber (b :: rest) := by
  rintro _ _ ⟨⟩
  simp only [isBlank, Bool.or_eq_true, beq_iff_eq] at h
  rcases h with ((rfl | rfl) | rfl) | rfl <;> decide

theorem Spaced.endsNumber_append {s : Octets} {t : Token} {ts : List Token}
    (h : Spaced s (t :: ts)) (ht : t.isDelimiter = true) (q : Octets) : EndsNumber (s ++ q) := by
  cases h with
  | @cons w l rest _ _ hw hl h =>
    cases w with
    | cons b w => exact endsNumber_of_blank (hw b List.mem_cons_self) _
    | nil =>
      cases hl with
      | comma => exact endsNumber_cons (.inl rfl)
      | closeArray => exact endsNumber_cons (.inr (.inl rfl))
      | closeObject => exact endsNumber_cons (.inr (.inr rfl))
      | _ => cases ht

theorem Spaced.endsNumber {s : Octets} {ts : List Token} (h : Spaced s ts)
    (hts : DelimiterNext ts) : EndsNumber s := by
  cases ts with
  | cons t ts =>
    have hs := h.endsNumber_append (hts t rfl) []
    rwa [List.append_nil] at hs
  | nil =>
    cases h with
    | nil hw =>
      cases s with
      | nil => exact endsNumber_nil
      | cons b w => exact endsNumber_of_blank (hw b List.mem_cons_self) w

theorem tokens_of_spaced {s : Octets} {ts : List Token} (h : Spaced s ts)
    (hts : NumbersApart ts) : tokens s = ts := by
  induction h with
  | @nil w hw =>
    have ht := tokens_blank hw []
    rwa [List.append_nil, tokens_nil] at ht
  | @cons w l rest t ts hw hl h ih =>
    rw [tokens_blank hw, tokens_lexeme hl fun ht => h.endsNumber (hts.1 ht), ih hts.2]

namespace Phrase

mutual

theorem numbersApart : ∀ (v : Phrase) {ts : List Token}, DelimiterNext ts → NumbersApart ts →
    NumbersApart (v.tokens ++ ts)
  | .null, _, _, h | .bool _, _, _, h | .string _, _, _, h => ⟨nofun, h⟩
  | .number _, _, hnext, h => ⟨fun _ => hnext, h⟩
  | .array [], _, _, h | .object [], _, _, h => ⟨nofun, nofun, h⟩
  | .array (x :: xs), _, _, h => by
    have hitems := numbersApart_itemTokens xs h
    rw [tokens, List.cons_append, List.append_assoc]
    exact ⟨nofun, numbersApart x hitems.1 hitems.2⟩
  | .object ((_, x) :: fields), _, _, h => by
    have hfields := numbersApart_fieldTokens fields h
    rw [tokens, List.cons_append, List.cons_append, List.cons_append, List.append_assoc]
    exact ⟨nofun, nofun, nofun, numbersApart x hfields.1 hfields.2⟩

theorem numbersApart_itemTokens : ∀ (xs : List Phrase) {ts : List Token}, NumbersApart ts →
    DelimiterNext (itemTokens xs ++ ts) ∧ NumbersApart (itemTokens xs ++ ts)
  | [], _, h => ⟨by rintro _ ⟨⟩; rfl, nofun, h⟩
  | x :: xs, _, h => by
    have hitems := numbersApart_itemTokens xs h
    rw [itemTokens, List.cons_append, List.append_assoc]
    exact ⟨by rintro _ ⟨⟩; rfl, nofun, numbersApart x hitems.1 hitems.2⟩

theorem numbersApart_fieldTokens : ∀ (fields : List (Octets × Phrase)) {ts : List Token},
    NumbersApart ts →
    DelimiterNext (fieldTokens fields ++ ts) ∧ NumbersApart (fieldTokens fields ++ ts)
  | [], _, h => ⟨by rintro _ ⟨⟩; rfl, nofun, h⟩
  | (_, x) :: fields, _, h => by
    have hfields := numbersApart_fieldTokens fields h
    rw [fieldTokens, List.cons_append, List.cons_append, List.cons_append, List.append_assoc]
    exact ⟨by rintro _ ⟨⟩; rfl, nofun, nofun, nofun, numbersApart x hfields.1 hfields.2⟩

end

theorem numbersApart_tokens (v : Phrase) : NumbersApart v.tokens := by
  have hv : NumbersApart (v.tokens ++ []) := v.numbersApart nofun trivial
  rwa [List.append_nil] at hv

end Phrase

/-! ## Tokens are read from lexemes -/

theorem eq_digitOctet_of_digit? {b : UInt8} {d : Nat} (h : Octet.digit? b = some d) :
    b = digitOctet d ∧ d < 10 := by
  unfold Octet.digit? at h
  split at h
  · next hb =>
    cases h
    rw [UInt8.le_iff_toNat_le, UInt8.le_iff_toNat_le] at hb
    change 48 ≤ b.toNat ∧ b.toNat ≤ 57 at hb
    refine ⟨?_, by omega⟩
    have hsum : 48 + (b.toNat - 48) = b.toNat := by omega
    rw [digitOctet, hsum, UInt8.ofNat_toNat]
  · cases h

theorem of_digits (s : Octets) :
    s = (digits s).1.map digitOctet ++ (digits s).2 ∧ ∀ d ∈ (digits s).1, d < 10 := by
  induction s with
  | nil => simp [digits]
  | cons b s ih =>
    rw [digits]
    cases hb : Octet.digit? b with
    | none => simp
    | some d =>
      rcases eq_digitOctet_of_digit? hb with ⟨rfl, hd⟩
      simp only [List.map_cons, List.cons_append, List.forall_mem_cons]
      exact ⟨congrArg _ ih.1, hd, ih.2⟩

theorem of_someDigits {s rest : Octets} {ds : List Nat} (h : someDigits s = .whole ds rest) :
    s = ds.map digitOctet ++ rest ∧ ds ≠ [] ∧ ∀ d ∈ ds, d < 10 := by
  have hs := of_digits s
  rw [someDigits] at h
  rcases hd : digits s with ⟨_ | ⟨d, ds'⟩, rest'⟩
  · rw [hd] at h
    cases rest' <;> cases h
  · rw [hd] at h hs
    cases h
    exact ⟨hs.1, List.cons_ne_nil d ds', hs.2⟩

theorem of_wholePart {s rest : Octets} {ds : List Nat} (h : wholePart s = .whole ds rest) :
    s = ds.map digitOctet ++ rest ∧ (∃ e es, ds = e :: es ∧ (e = 0 → es = [])) ∧
      ∀ d ∈ ds, d < 10 := by
  unfold wholePart at h
  split at h
  · cases h
  · next b r =>
    have hr := of_digits r
    split at h
    · cases h
    · next hb =>
      rcases eq_digitOctet_of_digit? hb with ⟨rfl, hd⟩
      split at h
      · cases h
        simp
      · cases h
    · next d hne hb =>
      rcases eq_digitOctet_of_digit? hb with ⟨rfl, hd⟩
      cases h
      refine ⟨congrArg _ hr.1, ⟨d, _, rfl, fun h0 => absurd h0 hne⟩, ?_⟩
      exact List.forall_mem_cons.mpr ⟨hd, hr.2⟩

theorem of_fraction {s rest : Octets} {ds : List Nat} (h : fraction s = .whole ds rest) :
    s = fractionOctets ds ++ rest ∧ ∀ d ∈ ds, d < 10 := by
  unfold fraction at h
  split at h
  · rcases of_someDigits h with ⟨rfl, hne, hd⟩
    cases ds with
    | nil => exact absurd rfl hne
    | cons d ds => exact ⟨rfl, hd⟩
  · cases h
    simp [fractionOctets]

theorem exponentSign_cases (s : Octets) :
    (∃ (negative : Bool) (rest : Octets), exponentSign s = (negative, rest) ∧
      s = (if negative then Octet.minus else Octet.plus) :: rest) ∨
    exponentSign s = (false, s) := by
  unfold exponentSign
  split
  · exact .inl ⟨false, _, rfl, rfl⟩
  · exact .inl ⟨true, _, rfl, rfl⟩
  · exact .inr rfl

theorem of_signedDigits {letter : UInt8} (hletter : letter = Octet.letterE ∨ letter = Octet.upperE)
    {s rest : Octets} {x : Option (Bool × List Nat)} (h : signedDigits s = .whole x rest) :
    ∃ e, ExponentSpelling x e ∧ letter :: s = e ++ rest ∧
      ∀ y ∈ x, y.2 ≠ [] ∧ ∀ d ∈ y.2, d < 10 := by
  simp only [signedDigits] at h
  split at h
  · next ds r hs =>
    cases h
    rcases of_someDigits hs with ⟨hr, hne, hd⟩
    rcases exponentSign_cases s with ⟨negative, rest', hsign, rfl⟩ | hsign
    · rw [hsign] at hr ⊢
      refine ⟨_, .signed hletter negative ds, congrArg (letter :: _ :: ·) hr, ?_⟩
      rintro _ ⟨⟩
      exact ⟨hne, hd⟩
    · rw [hsign] at hr ⊢
      refine ⟨_, .unsigned hletter ds, congrArg (letter :: ·) hr, ?_⟩
      rintro _ ⟨⟩
      exact ⟨hne, hd⟩
  · cases h
  · cases h

theorem of_exponent {s rest : Octets} {x : Option (Bool × List Nat)}
    (h : exponent s = .whole x rest) :
    ∃ e, ExponentSpelling x e ∧ s = e ++ rest ∧ ∀ y ∈ x, y.2 ≠ [] ∧ ∀ d ∈ y.2, d < 10 := by
  unfold exponent at h
  split at h
  · exact of_signedDigits (.inl rfl) h
  · exact of_signedDigits (.inr rfl) h
  · cases h
    exact ⟨[], .absent, rfl, nofun⟩

theorem of_numeral {negative : Bool} {s rest : Octets} {n : Numeral}
    (h : numeral negative s = .whole n rest) :
    ∃ bs, n.SpelledBy bs ∧ (if negative then [Octet.minus] else []) ++ s = bs ++ rest := by
  unfold numeral at h
  split at h
  · cases h
  · cases h
  · next hw =>
    rcases of_wholePart hw with ⟨rfl, hleading, hwhole⟩
    split at h
    · cases h
    · cases h
    · next hf =>
      rcases of_fraction hf with ⟨rfl, hfraction⟩
      split at h
      · cases h
      · cases h
      · next he =>
        rcases of_exponent he with ⟨e, hspelling, rfl, hexponent⟩
        cases h
        exact ⟨_, .intro ⟨hwhole, hleading, hfraction, hexponent⟩ hspelling, by simp⟩

theorem of_keyword {value t : Token} {expected s rest : Octets}
    (h : keyword value expected s = .whole t rest) : t = value ∧ s = expected ++ rest := by
  induction expected generalizing s with
  | nil =>
    cases h
    exact ⟨rfl, rfl⟩
  | cons e expected ih =>
    cases s with
    | nil => cases h
    | cons b s =>
      rw [keyword] at h
      split at h
      · next hb =>
        rcases ih h with ⟨rfl, rfl⟩
        exact ⟨rfl, by rw [hb, List.cons_append]⟩
      · cases h

theorem of_stringBody {read s rest : Octets} {t : Token} (h : stringBody read s = (t, rest))
    (ht : t.isWhole = true) :
    ∃ raw, IsRaw raw ∧ t = .string (read.reverse ++ raw) ∧ s = raw ++ Octet.quote :: rest := by
  fun_induction stringBody read s with
  | case1 | case3 | case4 | case6 | case7 | case9 =>
    cases h
    cases ht
  | case2 read rest' =>
    cases h
    exact ⟨[], .nil, by simp, rfl⟩
  | case5 read p q r s rest' n hn ih =>
    rcases ih h with ⟨raw, hraw, rfl, rfl⟩
    exact ⟨_, .number hn hraw, by simp, rfl⟩
  | case8 read e rest' _ _ b he ih =>
    rcases ih h with ⟨raw, hraw, rfl, rfl⟩
    exact ⟨_, .letter he hraw, by simp, rfl⟩
  | case10 read b rest' hq hlast _ _ hletter hb ih =>
    have hplain : IsPlain b := by
      refine ⟨UInt8.not_lt.mp hb, hq, ?_⟩
      intro hbackslash
      cases rest' with
      | nil => exact hlast hbackslash rfl
      | cons e rest' => exact hletter e rest' hbackslash rfl
    rcases ih h with ⟨raw, hraw, rfl, rfl⟩
    exact ⟨_, .plain hplain hraw, by simp, rfl⟩

/-- A token that is read to its end is read from one of its lexemes. -/
theorem of_scanToken {b : UInt8} {rest rest' : Octets} {t : Token}
    (h : scanToken b rest = (t, rest')) (ht : t.isWhole = true) :
    ∃ l, Lexeme l t ∧ b :: rest = l ++ rest' := by
  have hword : ∀ {value : Token} {expected : Octets},
      scanToken.word rest value expected = (t, rest') → t = value ∧ rest = expected ++ rest' := by
    intro value expected h
    unfold scanToken.word at h
    split at h
    · next hk =>
      cases h
      exact of_keyword hk
    · cases h
      cases ht
    · cases h
      cases ht
  have hnumber : ∀ {negative : Bool} {s : Octets},
      scanToken.number (numeral negative s) = (t, rest') →
      ∃ l, Lexeme l t ∧ (if negative then [Octet.minus] else []) ++ s = l ++ rest' := by
    intro negative s h
    unfold scanToken.number at h
    split at h
    · next hn =>
      cases h
      rcases of_numeral hn with ⟨bs, hbs, heq⟩
      exact ⟨bs, .number hbs, heq⟩
    · cases h
      cases ht
    · cases h
      cases ht
  unfold scanToken at h
  split at h
  · cases h
    exact ⟨_, .openObject, rfl⟩
  · cases h
    exact ⟨_, .closeObject, rfl⟩
  · cases h
    exact ⟨_, .openArray, rfl⟩
  · cases h
    exact ⟨_, .closeArray, rfl⟩
  · cases h
    exact ⟨_, .comma, rfl⟩
  · cases h
    exact ⟨_, .colon, rfl⟩
  · rcases of_stringBody h ht with ⟨raw, hraw, rfl, rfl⟩
    exact ⟨_, .string hraw, by simp⟩
  · rcases hword h with ⟨rfl, rfl⟩
    exact ⟨_, .null, rfl⟩
  · rcases hword h with ⟨rfl, rfl⟩
    exact ⟨_, .true, rfl⟩
  · rcases hword h with ⟨rfl, rfl⟩
    exact ⟨_, .false, rfl⟩
  · exact hnumber h
  · exact hnumber h

/-- A text whose tokens have all been read to their ends is a row of lexemes. -/
theorem spaced_tokens (s : Octets) (h : ∀ t ∈ tokens s, t.isWhole = true) :
    Spaced s (tokens s) := by
  have hblank : ∀ {b : UInt8} {rest : Octets} {ts : List Token}, isBlank b = true →
      Spaced rest ts → Spaced (b :: rest) ts := by
    intro b rest ts hb hs
    cases hs with
    | nil hw => exact .nil (List.forall_mem_cons.mpr ⟨hb, hw⟩)
    | cons hw hl hs => exact .cons (List.forall_mem_cons.mpr ⟨hb, hw⟩) hl hs
  induction hn : s.length using Nat.strongRecOn generalizing s with
  | ind n ih =>
    subst hn
    cases s with
    | nil =>
      rw [tokens_nil]
      exact .nil nofun
    | cons b rest =>
      by_cases hb : isBlank b = true
      · have ht : tokens (b :: rest) = tokens rest := by
          rw [tokens, tokensFrom_cons, if_pos hb, tokens]
        rw [ht] at h ⊢
        exact hblank hb (ih _ (Nat.lt_succ_self _) rest h rfl)
      · rcases hscan : scanToken b rest with ⟨t, rest'⟩
        have ht := tokens_cons (Bool.eq_false_iff.mpr hb) hscan
        rw [ht, List.forall_mem_cons] at h
        rcases of_scanToken hscan h.1 with ⟨l, hl, heq⟩
        have hlength := scanToken_length b rest
        rw [hscan] at hlength
        rw [ht, heq]
        have hrest := ih rest'.length (Nat.lt_succ_of_le hlength) rest' h.2 rfl
        exact .cons (w := []) nofun hl hrest

/-! ## Texts of phrases -/

/-- Whether octets are the text of a phrase: its tokens in turn, with blanks around them. -/
def Phrase.WrittenAs (v : Phrase) (s : Octets) : Prop :=
  Spaced s v.tokens

theorem Phrase.WrittenAs.tokens_eq {v : Phrase} {s : Octets} (h : v.WrittenAs s) :
    Json.tokens s = v.tokens :=
  tokens_of_spaced h v.numbersApart_tokens

theorem Phrase.WrittenAs.events_eq {v : Phrase} {s : Octets} (h : v.WrittenAs s) :
    Json.events s = ⟨v.events, .complete⟩ := by
  rw [Json.events, h.tokens_eq]
  exact EventStream.ofTokens_eq_complete.mpr ⟨v, rfl, rfl⟩

theorem exists_writtenAs {s : Octets} {es : List Event} (h : events s = ⟨es, .complete⟩) :
    ∃ v : Phrase, v.WrittenAs s ∧ es = v.events := by
  have hcomplete : EventStream.Completes [] [] .value (tokens s) :=
    congrArg EventStream.ending h
  rcases EventStream.ofTokens_eq_complete.mp h with ⟨v, hv, hes⟩
  have hs := spaced_tokens s (EventStream.isWhole_of_completes hcomplete)
  rw [hv] at hs
  exact ⟨v, hs, hes⟩

theorem writtenAs_compact (v : Value) : v.phrase.WrittenAs (octets v.compact) := by
  have hcomplete : EventStream.Completes [] [] .value (tokens (octets v.compact)) :=
    congrArg EventStream.ending (events_compact v)
  have hs := spaced_tokens _ (EventStream.isWhole_of_completes hcomplete)
  have ht := tokens_compact v [] endsNumber_nil
  rw [List.append_nil, tokens_nil, List.append_nil, ← v.tokens_phrase] at ht
  rw [ht] at hs
  exact hs

end CodeIndex.Json
