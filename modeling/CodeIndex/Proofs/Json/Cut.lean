import CodeIndex.Proofs.Json.Lexeme
import CodeIndex.Proofs.Json.Meaning

/-! # Texts that are cut off

A text may be cut off between two tokens or inside one. What is read of a token that is cut off is a
token that shows it, or a shorter integer. Either way the grammar follows what is left of the text
of an object up to the place of the cut and still waits for more there, and what it has read up to
that place are the first events of the whole text.
-/

namespace CodeIndex.Json

open Text Numeral

/-! ## Lexemes that are cut off -/

/-- What is read of a token where the text ends inside it. -/
inductive Remnant : Token → Token → Prop where
  | null : Remnant .null .cutWord
  | bool (b : Bool) : Remnant (.bool b) .cutWord
  /-- Nothing is left but the sign. -/
  | sign {n : Numeral} (h : n.negative = true) : Remnant (.number n) .cutNumber
  /-- The first digits of an integer are an integer, and others than zero if some are missing. -/
  | digits {negative : Bool} {d : Nat} (hd : d ≠ 0) (ds es : List Nat) :
    Remnant (.number ⟨negative, d :: ds ++ es, [], none⟩) (.number ⟨negative, d :: ds, [], none⟩)
  | string (raw rest : Octets) : Remnant (.string (raw ++ rest)) (.cutString raw)

theorem keyword_cut (value : Token) (p : Octets) {q : Octets} (hq : q ≠ []) :
    keyword value (p ++ q) p = .cut := by
  induction p with
  | nil =>
    cases q with
    | nil => exact absurd rfl hq
    | cons b q => rfl
  | cons b p ih => rw [List.cons_append, keyword, if_pos rfl, ih]

theorem tokens_cutWord {b : UInt8} {value : Token} {expected : Octets} (hb : isBlank b = false)
    (hscan : ∀ rest, scanToken b rest = scanToken.word rest value expected) {p q : Octets}
    (h : expected = p ++ q) (hq : q ≠ []) : tokens (b :: p) = [.cutWord] := by
  have hcut : scanToken b p = (.cutWord, []) := by
    rw [hscan, scanToken.word, h, keyword_cut value p hq]
  rw [tokens_cons hb hcut, tokens_nil]

/-- Where octets are cut off, the cut is behind the first of two pieces or inside it. -/
theorem cut_cases {l rest p q : Octets} (h : l ++ rest = p ++ q) :
    (∃ p', p = l ++ p' ∧ rest = p' ++ q) ∨ ∃ k, k < l.length ∧ p = l.take k := by
  rcases List.append_eq_append_iff.mp h with ⟨p', hp, hrest⟩ | ⟨c, rfl, hrest⟩
  · exact .inl ⟨p', hp, hrest⟩
  · by_cases hc : c = []
    · subst hc
      exact .inl ⟨[], by simp, hrest.symm⟩
    · have hlength := List.length_pos_iff.mpr hc
      refine .inr ⟨p.length, ?_, ?_⟩
      · rw [List.length_append]
        omega
      · rw [List.take_left]

theorem stringBody_cut {raw : Octets} (h : IsRaw raw) {p q : Octets} (hraw : raw = p ++ q)
    (read : Octets) : stringBody read p = (.cutString (read.reverse ++ p), []) := by
  induction h generalizing p read with
  | nil =>
    obtain ⟨rfl, -⟩ := List.append_eq_nil_iff.mp hraw.symm
    simp [stringBody]
  | @plain b raw hb h ih =>
    rcases cut_cases (l := [b]) hraw with ⟨p, rfl, hrest⟩ | ⟨k, hk, rfl⟩
    · rw [List.singleton_append, stringBody_plain read hb, ih hrest]
      simp
    · change k < 1 at hk
      interval_cases k
      simp [stringBody]
  | @letter e b raw he h ih =>
    rcases cut_cases (l := [Octet.backslash, e]) hraw with ⟨p, rfl, hrest⟩ | ⟨k, hk, rfl⟩
    · change stringBody read (Octet.backslash :: e :: p) = _
      rw [stringBody_letter read he, ih hrest]
      simp
    · have hlast : (Octet.backslash :: read).reverse = read.reverse ++ [Octet.backslash] :=
        List.reverse_cons
      change k < 2 at hk
      interval_cases k
      · simp [stringBody]
      · exact congrArg (fun raw => (Token.cutString raw, [])) hlast
  | @number a b c d n raw hn h ih =>
    rcases cut_cases (l := [Octet.backslash, Octet.letterU, a, b, c, d]) hraw with
      ⟨p, rfl, hrest⟩ | ⟨k, hk, rfl⟩
    · change stringBody read (Octet.backslash :: Octet.letterU :: a :: b :: c :: d :: p) = _
      rw [stringBody_number read hn, ih hrest]
      simp
    · have hlast : (Octet.backslash :: read).reverse = read.reverse ++ [Octet.backslash] :=
        List.reverse_cons
      change k < 6 at hk
      interval_cases k
      · simp [stringBody]
      · exact congrArg (fun raw => (Token.cutString raw, [])) hlast
      all_goals rfl

theorem tokens_cutDigits {negative : Bool} {ds es : List Nat}
    (h : Spellable ⟨negative, ds ++ es, [], none⟩) (hds : ds ≠ []) (hes : es ≠ []) :
    ∃ r, Remnant (.number ⟨negative, ds ++ es, [], none⟩) r ∧
      tokens ((if negative then [Octet.minus] else []) ++ ds.map digitOctet) = [r] := by
  rcases h.leading with ⟨d, rest, hwhole, hzero⟩
  cases ds with
  | nil => exact absurd rfl hds
  | cons d' ds =>
    cases hwhole
    have hd : d ≠ 0 := fun hd => hes (List.append_eq_nil_iff.mp (hzero hd)).2
    have hspellable : Spellable ⟨negative, d :: ds, [], none⟩ :=
      ⟨fun e he => h.whole e (List.mem_append_left es he), ⟨d, ds, rfl, fun h0 => absurd h0 hd⟩,
        nofun, nofun⟩
    have hends : (Token.number ⟨negative, d :: ds, [], none⟩).isNumber = true → EndsNumber [] :=
      fun _ => endsNumber_nil
    have ht := tokens_lexeme (.number (.intro hspellable .absent)) hends
    exact ⟨_, .digits hd ds es, by simpa [fractionOctets, tokens_nil] using ht⟩

theorem tokens_cutNumeral {n : Numeral} {bs : Octets} (h : n.SpelledBy bs)
    (hfraction : n.fraction = []) (hexponent : n.exponent = none) {p q : Octets}
    (hbs : bs = p ++ q) (hp : p ≠ []) (hq : q ≠ []) :
    ∃ r, Remnant (.number n) r ∧ tokens p = [r] := by
  rcases n with ⟨negative, whole, fraction, exponent⟩
  obtain rfl : fraction = [] := hfraction
  obtain rfl : exponent = none := hexponent
  rcases h with @⟨_, h, ⟨⟩⟩
  have hdigits : ∀ p', whole.map digitOctet = p' ++ q → p' ≠ [] →
      ∃ r, Remnant (.number ⟨negative, whole, [], none⟩) r ∧
        tokens ((if negative then [Octet.minus] else []) ++ p') = [r] := by
    intro p' hwhole hp'
    rcases List.map_eq_append_iff.mp hwhole with ⟨ds, es, rfl, rfl, rfl⟩
    exact tokens_cutDigits h (fun hds => hp' (hds ▸ rfl)) fun hes => hq (hes ▸ rfl)
  cases negative with
  | false => exact hdigits p (by simpa [fractionOctets] using hbs) hp
  | true =>
    cases p with
    | nil => exact absurd rfl hp
    | cons b p =>
      have hbs : Octet.minus = b ∧ whole.map digitOctet = p ++ q := by
        simpa [fractionOctets] using hbs
      rcases hbs with ⟨rfl, hwhole⟩
      by_cases hp' : p = []
      · subst hp'
        refine ⟨_, .sign rfl, ?_⟩
        rw [tokens_cons (b := Octet.minus) (t := .cutNumber) rfl rfl, tokens_nil]
      · exact hdigits p hwhole hp'

/-- What is left of a lexeme is read as a remnant of its token, if no numeral in it has a fraction
or an exponent. -/
theorem tokens_cutLexeme {l : Octets} {t : Token} (h : Lexeme l t)
    (hinteger : ∀ n, t = .number n → n.fraction = [] ∧ n.exponent = none) {p q : Octets}
    (hl : l = p ++ q) (hp : p ≠ []) (hq : q ≠ []) : ∃ r, Remnant t r ∧ tokens p = [r] := by
  cases p with
  | nil => exact absurd rfl hp
  | cons b p =>
    cases h with
    | openObject | closeObject | openArray | closeArray | comma | colon =>
      obtain ⟨-, hnil⟩ := List.cons.inj hl
      exact absurd (List.append_eq_nil_iff.mp hnil.symm).2 hq
    | null =>
      obtain ⟨rfl, hrest⟩ := List.cons.inj hl
      exact ⟨_, .null, tokens_cutWord rfl (fun _ => rfl) hrest hq⟩
    | true | false =>
      obtain ⟨rfl, hrest⟩ := List.cons.inj hl
      exact ⟨_, .bool _, tokens_cutWord rfl (fun _ => rfl) hrest hq⟩
    | number h => exact tokens_cutNumeral h (hinteger _ rfl).1 (hinteger _ rfl).2 hl hp hq
    | string h =>
      obtain ⟨rfl, hrest⟩ := List.cons.inj hl
      -- the cut is before the closing quote
      rcases List.eq_nil_or_concat q with rfl | ⟨q, c, rfl⟩
      · exact absurd rfl hq
      · rw [List.concat_eq_append, List.append_eq, ← List.append_assoc] at hrest
        obtain ⟨rfl, -⟩ := List.append_inj' hrest rfl
        refine ⟨_, .string p q, ?_⟩
        rw [tokens_cons (b := Octet.quote) rfl (stringBody_cut h rfl []), tokens_nil]
        rfl

/-! ## Values that are cut off -/

theorem le_natOfDigits_append (ds es : List Nat) : natOfDigits ds ≤ natOfDigits (ds ++ es) := by
  rw [natOfDigits, natOfDigits, List.foldl_append]
  generalize ds.foldl (fun n d => 10 * n + d) 0 = n
  induction es generalizing n with
  | nil => exact Nat.le_refl n
  | cons e es ih =>
    have hn : n ≤ 10 * n + e := by omega
    exact Nat.le_trans hn (ih _)

/-- The first digits of an integer of some bits are an integer of as many. -/
theorem Numeral.IsInt.digits {negative : Bool} {d : Nat} {ds es : List Nat} {i : Int}
    (h : IsInt ⟨negative, d :: ds ++ es, [], none⟩ i) (hd : d ≠ 0) :
    ∃ j, IsInt ⟨negative, d :: ds, [], none⟩ j ∧ (0 ≤ i → 0 ≤ j ∧ j ≤ i) := by
  have hfirst : natOfDigits [d] ≤ natOfDigits (d :: ds) := le_natOfDigits_append [d] ds
  have hone : natOfDigits [d] = d := by simp [natOfDigits]
  have hdigits := le_natOfDigits_append (d :: ds) es
  have hvalue : i = if negative then -(natOfDigits (d :: ds ++ es) : Int)
    else natOfDigits (d :: ds ++ es) := h.value
  have hrange := h.range
  generalize natOfDigits (d :: ds ++ es) = n at hdigits hvalue
  cases negative with
  | false =>
    rw [if_neg Bool.false_ne_true] at hvalue
    have hsign : ¬ false = true := Bool.false_ne_true
    exact ⟨natOfDigits (d :: ds), ⟨rfl, rfl, rfl, fun hneg => absurd hneg hsign, by omega⟩,
      fun _ => by omega⟩
  | true =>
    rw [if_pos rfl] at hvalue
    exact ⟨-natOfDigits (d :: ds), ⟨rfl, rfl, rfl, fun _ => by omega, by omega⟩, by omega⟩

theorem unescapeFrom_cutNumber (done : Octets) (a b c d : UInt8) {k : Nat} (hk : k < 6) :
    unescapeFrom done ([Octet.backslash, Octet.letterU, a, b, c, d].take k) ≠ .bad := by
  interval_cases k
  · simp [unescapeFrom]
  all_goals
    intro hbad
    cases hbad

/-- Nothing is wrong with the first octets of a string that stands for a text. -/
theorem unescapeFrom_cut {raw bs : Octets} (h : Unfolds raw bs) {p q : Octets}
    (hraw : raw = p ++ q) (done : Octets) : unescapeFrom done p ≠ .bad := by
  induction h generalizing p done with
  | nil =>
    obtain ⟨rfl, -⟩ := List.append_eq_nil_iff.mp hraw.symm
    simp [unescapeFrom]
  | plain hb h ih =>
    cases p with
    | nil => simp [unescapeFrom]
    | cons b p =>
      cases hraw
      rw [unescapeFrom_plain done hb]
      exact ih rfl _
  | @letter e b raw bs he h ih =>
    rcases cut_cases (l := [Octet.backslash, e]) hraw with ⟨p, rfl, hrest⟩ | ⟨k, hk, rfl⟩
    · change unescapeFrom done (Octet.backslash :: e :: p) ≠ _
      rw [unescapeFrom_letter done he]
      exact ih hrest _
    · change k < 2 at hk
      interval_cases k
      · simp [unescapeFrom]
      · intro hbad
        cases hbad
  | @number a b c d n raw bs hn hlow hhigh h ih =>
    rcases cut_cases (l := [Octet.backslash, Octet.letterU, a, b, c, d]) hraw with
      ⟨p, rfl, hrest⟩ | ⟨k, hk, rfl⟩
    · change unescapeFrom done (Octet.backslash :: Octet.letterU :: a :: b :: c :: d :: p) ≠ _
      rw [unescapeFrom_number done hn hlow hhigh]
      exact ih hrest _
    · exact unescapeFrom_cutNumber done a b c d hk
  | @pair a b c d a' b' c' d' n m raw bs hn hhigh hm hlow h ih =>
    rcases cut_cases (l := [Octet.backslash, Octet.letterU, a, b, c, d]) hraw with
      ⟨p, rfl, hrest⟩ | ⟨k, hk, rfl⟩
    · rcases cut_cases (l := [Octet.backslash, Octet.letterU, a', b', c', d']) hrest with
        ⟨p, rfl, hrest'⟩ | ⟨k, hk, rfl⟩
      · change unescapeFrom done (Octet.backslash :: Octet.letterU :: a :: b :: c :: d ::
          Octet.backslash :: Octet.letterU :: a' :: b' :: c' :: d' :: p) ≠ _
        rw [unescapeFrom_pair done hn hhigh hm hlow]
        exact ih hrest' _
      · refine ne_of_eq_of_ne (unescapeFrom.eq_2 done a b c d _) ?_
        simp only [hn, hhigh, isLowHalf_of_isHighHalf hhigh, Bool.false_eq_true, if_false, if_true]
        change k < 6 at hk
        interval_cases k
        all_goals
          intro hbad
          cases hbad
    · exact unescapeFrom_cutNumber done a b c d hk

/-! ## Rows that are cut off -/

def Integral (ts : List Token) : Prop := ∀ n, Token.number n ∈ ts → ∃ i, n.IsInt i

theorem Blank.append {p q : Octets} : Blank (p ++ q) ↔ Blank p ∧ Blank q :=
  List.forall_mem_append

theorem EndsNumber.left {p q : Octets} (h : EndsNumber (p ++ q)) : EndsNumber p := by
  rintro b rest rfl
  exact h b (rest ++ q) rfl

/-- A row of lexemes that is cut off is read up to the lexeme before which or in which the cut
is. -/
theorem Spaced.tokens_cut {s : Octets} {ts : List Token} (h : Spaced s ts)
    (hapart : NumbersApart ts) (hts : Integral ts) {p q : Octets} (hs : s = p ++ q)
    (hq : ¬ Blank q) :
    ∃ ts₁ t ts₂, ts = ts₁ ++ t :: ts₂ ∧
      (tokens p = ts₁ ∨ ∃ r, Remnant t r ∧ tokens p = ts₁ ++ [r]) := by
  induction h generalizing p with
  | nil hw =>
    subst hs
    exact absurd (Blank.append.mp hw).2 hq
  | @cons w l rest t ts hw hl h ih =>
    have hblank : ∀ {p}, Blank p → tokens p = [] := by
      intro p hp
      have ht := tokens_blank hp []
      rwa [List.append_nil, tokens_nil] at ht
    rcases List.append_eq_append_iff.mp hs with ⟨a, rfl, hbehind⟩ | ⟨a, rfl, -⟩
    case inr => exact ⟨[], t, ts, rfl, .inl (hblank (Blank.append.mp hw).1)⟩
    rw [tokens_blank hw]
    rcases cut_cases hbehind with ⟨p', rfl, hrest⟩ | ⟨k, hk, rfl⟩
    · have hends : t.isNumber = true → EndsNumber p' := by
        intro ht
        have hends := h.endsNumber (hapart.1 ht)
        rw [hrest] at hends
        exact hends.left
      have hts' : Integral ts := fun n hn => hts n (List.mem_cons_of_mem t hn)
      rcases ih hapart.2 hts' hrest with ⟨ts₁, u, ts₂, rfl, hp'⟩
      refine ⟨t :: ts₁, u, ts₂, rfl, ?_⟩
      rw [tokens_lexeme hl hends]
      rcases hp' with hp' | ⟨r, hr, hp'⟩
      · exact .inl (by rw [hp'])
      · exact .inr ⟨r, hr, by rw [hp', List.cons_append]⟩
    · by_cases hk0 : k = 0
      · subst hk0
        exact ⟨[], t, ts, rfl, .inl tokens_nil⟩
      · have hinteger : ∀ n, t = .number n → n.fraction = [] ∧ n.exponent = none := by
          rintro n rfl
          rcases hts n List.mem_cons_self with ⟨i, hi⟩
          exact ⟨hi.fraction, hi.exponent⟩
        have hfirst : l.take k ≠ [] := by
          intro hnil
          rcases List.take_eq_nil_iff.mp hnil with h0 | rfl
          · exact hk0 h0
          · exact Nat.not_lt_zero k hk
        have hlast : l.drop k ≠ [] := by
          rw [Ne, List.drop_eq_nil_iff]
          omega
        rcases tokens_cutLexeme hl hinteger (List.take_append_drop k l).symm hfirst hlast with
          ⟨r, hr, ht⟩
        exact ⟨[], t, ts, rfl, .inr ⟨r, hr, ht⟩⟩

/-- A row of lexemes is read to its end before whatever stands behind it, if the last one is no
number. -/
theorem Spaced.tokens_append {s : Octets} {ts us : List Token} {u : Token} (h : Spaced s ts)
    (hapart : NumbersApart ts) (hts : ts = us ++ [u]) (hu : u.isNumber = false) (q : Octets) :
    tokens (s ++ q) = ts ++ tokens q := by
  induction h generalizing us with
  | nil => simp at hts
  | @cons w l rest t ts hw hl h ih =>
    rw [List.append_assoc, List.append_assoc, tokens_blank hw]
    cases us with
    | nil =>
      cases hts
      cases h with
      | nil hw' =>
        have hends : u.isNumber = true → EndsNumber (rest ++ q) := by
          intro hnumber
          rw [hu] at hnumber
          cases hnumber
        rw [tokens_lexeme hl hends, tokens_blank hw', List.singleton_append]
    | cons t' us =>
      obtain ⟨rfl, htail⟩ := List.cons.inj hts
      have hends : t.isNumber = true → EndsNumber (rest ++ q) := by
        intro hnumber
        cases ts with
        | nil => simp at htail
        | cons t' ts => exact h.endsNumber_append (hapart.1 hnumber t' rfl) q
      rw [tokens_lexeme hl hends, ih hapart.2 htail, List.cons_append]

/-! ## Events of texts that are cut off -/

namespace Phrase

theorem fieldTokens_eq_append (fields : List (Octets × Phrase)) :
    ∃ ts, fieldTokens fields = ts ++ [.closeObject] := by
  induction fields with
  | nil => exact ⟨[], rfl⟩
  | cons f fields ih =>
    rcases ih with ⟨ts, hts⟩
    refine ⟨.comma :: .string f.1 :: .colon :: (f.2.tokens ++ ts), ?_⟩
    rw [fieldTokens, hts]
    simp

theorem tokens_object_eq_append (fields : List (Octets × Phrase)) :
    ∃ ts, (object fields).tokens = ts ++ [.closeObject] := by
  match fields with
  | [] => exact ⟨[.openObject], rfl⟩
  | (name, v) :: fields =>
    rcases fieldTokens_eq_append fields with ⟨ts, hts⟩
    refine ⟨.openObject :: .string name :: .colon :: (v.tokens ++ ts), ?_⟩
    rw [tokens, hts]
    simp

end Phrase

namespace EventStream

theorem follow_step {enclosing enclosing' : List Bracket} {expected expected' : Expected}
    {t : Token} {e : Option Event}
    (h : step enclosing expected t = .ok (e, enclosing', expected')) (read : List Event)
    (ts : List Token) :
    follow read enclosing expected (t :: ts) =
      follow (e.toList ++ read) enclosing' expected' ts := by
  rw [follow, h]
  cases e <;> rfl

/-- What the grammar follows to an end, it follows up to any place before. -/
theorem completes_append {read : List Event} {enclosing : List Bracket} {expected : Expected}
    {ts us : List Token} (h : Completes read enclosing expected (ts ++ us)) :
    ∃ read' enclosing' expected', Completes read' enclosing' expected' us ∧
      ∀ us, follow read enclosing expected (ts ++ us) = follow read' enclosing' expected' us := by
  induction ts generalizing read enclosing expected with
  | nil => exact ⟨read, enclosing, expected, h, fun _ => rfl⟩
  | cons t ts ih =>
    rcases completes_cons h with ⟨e, enclosing', expected', hstep, hts⟩
    rcases ih hts with ⟨read', enclosing'', expected'', hus, hfollow⟩
    refine ⟨read', enclosing'', expected'', hus, fun us => ?_⟩
    rw [List.cons_append, follow_step hstep, hfollow]

/-- What has been read stays in front of what is read next. -/
theorem events_follow (read : List Event) (enclosing : List Bracket) (expected : Expected)
    (ts : List Token) :
    ∃ es, (follow read enclosing expected ts).events = read.reverse ++ es := by
  induction ts generalizing read enclosing expected with
  | nil =>
    refine ⟨[], ?_⟩
    simp only [follow, List.append_nil]
    split <;> rfl
  | cons t ts ih =>
    cases hstep : step enclosing expected t with
    | error ending =>
      refine ⟨[], ?_⟩
      rw [follow, hstep, List.append_nil]
    | ok next =>
      rcases next with ⟨e, enclosing', expected'⟩
      rcases ih (e.toList ++ read) enclosing' expected' with ⟨es, hes⟩
      refine ⟨e.toList ++ es, ?_⟩
      rw [follow_step hstep, hes]
      cases e <;> simp

/-- The events of a text that is cut off, given those of the whole text. -/
inductive Interrupted (es : List Event) : EventStream → Prop where
  | between {es₁ es₂ : List Event} (h : es = es₁ ++ es₂) : Interrupted es ⟨es₁, .unfinished⟩
  | word {es₁ es₂ : List Event} (h : es = es₁ ++ es₂) : Interrupted es ⟨es₁, .cut .cutWord⟩
  | sign {es₁ es₂ : List Event} {n : Numeral} (hn : n.negative = true)
      (h : es = es₁ ++ .number n :: es₂) : Interrupted es ⟨es₁, .cut .cutNumber⟩
  | digits {es₁ es₂ : List Event} {negative : Bool} {d : Nat} {ds ds' : List Nat} {i : Int}
      (hd : d ≠ 0) (hi : IsInt ⟨negative, d :: ds ++ ds', [], none⟩ i)
      (h : es = es₁ ++ .number ⟨negative, d :: ds ++ ds', [], none⟩ :: es₂) :
      Interrupted es ⟨es₁ ++ [.number ⟨negative, d :: ds, [], none⟩], .unfinished⟩
  | string {es₁ es₂ : List Event} {e : Event} {raw rest : Octets}
      (he : e = .string (raw ++ rest) ∨ e = .key (raw ++ rest)) (h : es = es₁ ++ e :: es₂) :
      Interrupted es ⟨es₁, .cut (.cutString raw)⟩

/-- Where a token may stand, what is left of it ends the text early. -/
theorem step_remnant {enclosing : List Bracket} {expected : Expected} {t r : Token}
    {next : Option Event × List Bracket × Expected} (h : step enclosing expected t = .ok next)
    (hr : Remnant t r) (hcut : r.isWhole = false) :
    step enclosing expected r = .error (.cut r) := by
  cases hr with
  | digits => cases hcut
  | null | bool | sign | string =>
    cases expected <;> rcases enclosing with _ | ⟨_ | _, _⟩ <;> first | rfl | cases h

theorem step_number {enclosing enclosing' : List Bracket} {expected expected' : Expected}
    {n : Numeral} {e : Option Event}
    (h : step enclosing expected (.number n) = .ok (e, enclosing', expected')) (m : Numeral) :
    step enclosing expected (.number m) = .ok (some (.number m), enclosing, .separator) := by
  cases expected <;> rcases enclosing with _ | ⟨_ | _, _⟩ <;> first | rfl | cases h

theorem step_string {enclosing enclosing' : List Bracket} {expected expected' : Expected}
    {raw : Octets} {e : Option Event}
    (h : step enclosing expected (.string raw) = .ok (e, enclosing', expected')) :
    e = some (.string raw) ∨ e = some (.key raw) := by
  cases expected <;> rcases enclosing with _ | ⟨_ | _, _⟩ <;> cases h <;> simp

/-- The grammar reads what is left of a token, unless it is the last token of the text, and waits
for more. -/
theorem interrupted_remnant {read : List Event} {enclosing : List Bracket} {expected : Expected}
    {t r : Token} {us : List Token} (h : Completes read enclosing expected (t :: us))
    (hr : Remnant t r) (ht : ∀ n, t = .number n → ∃ i, n.IsInt i) (hus : us ≠ []) :
    Interrupted (follow read enclosing expected (t :: us)).events
      (follow read enclosing expected [r]) := by
  rcases completes_cons h with ⟨e, enclosing', expected', hstep, hrest⟩
  rcases events_follow (e.toList ++ read) enclosing' expected' us with ⟨es, hes⟩
  rw [← follow_step hstep, List.reverse_append, List.append_assoc] at hes
  have hcut : r.isWhole = false → follow read enclosing expected [r] = ⟨read.reverse, .cut r⟩ := by
    intro hwhole
    rw [follow, step_remnant hstep hr hwhole]
  cases hr with
  | null | bool =>
    rw [hcut rfl]
    exact .word hes
  | sign hn =>
    have hnumber := hstep.symm.trans (step_number hstep _)
    cases hnumber
    rw [hcut rfl]
    exact .sign hn hes
  | @digits negative d hd ds ds' =>
    rcases ht _ rfl with ⟨i, hi⟩
    have hnumber := hstep.symm.trans (step_number hstep _)
    cases hnumber
    have hend : follow read enclosing expected [.number ⟨negative, d :: ds, [], none⟩] =
        ⟨read.reverse ++ [.number ⟨negative, d :: ds, [], none⟩], .unfinished⟩ := by
      rw [follow_step (step_number hstep _)]
      cases enclosing with
      | nil => exact absurd (completes_separator hrest) hus
      | cons bracket enclosing => simp [follow]
    rw [hend]
    exact .digits hd hi hes
  | string raw rest =>
    rw [hcut rfl]
    rcases step_string hstep with rfl | rfl
    · exact .string (.inl rfl) hes
    · exact .string (.inr rfl) hes

end EventStream

open EventStream in
/-- The text of an object is interrupted wherever something is cut off. -/
theorem Phrase.WrittenAs.interrupted {fields : List (Octets × Phrase)} {p q : Octets}
    (h : (object fields).WrittenAs (p ++ q)) (hts : Integral (object fields).tokens)
    (hq : ¬ Blank q) : Interrupted (object fields).events (Json.events p) := by
  rcases Spaced.tokens_cut h (object fields).numbersApart_tokens hts rfl hq with ⟨ts₁, t, ts₂, heq, hp⟩
  have hevents := h.events_eq
  rw [Json.events, h.tokens_eq, heq, ofTokens] at hevents
  have hcomplete : Completes [] [] .value (ts₁ ++ t :: ts₂) := congrArg EventStream.ending hevents
  rcases completes_append hcomplete with ⟨read, enclosing, expected, hrest, hfollow⟩
  rw [hfollow] at hevents
  have hwhole : (follow read enclosing expected (t :: ts₂)).events = (object fields).events :=
    congrArg EventStream.events hevents
  rw [← hwhole, Json.events, ofTokens]
  rcases hp with hp | ⟨r, hr, hp⟩
  · have hbetween := hfollow []
    rw [List.append_nil] at hbetween
    rw [hp, hbetween]
    rcases events_follow read enclosing expected (t :: ts₂) with ⟨es, hes⟩
    have hend : follow read enclosing expected [] = ⟨read.reverse, .unfinished⟩ := by
      unfold follow
      split
      · cases completes_separator hrest
      · rfl
    rw [hend]
    exact .between hes
  · rw [hp, hfollow]
    have ht : ∀ n, t = .number n → ∃ i, n.IsInt i := by
      rintro n rfl
      exact hts n (heq ▸ List.mem_append_right ts₁ List.mem_cons_self)
    apply interrupted_remnant hrest hr ht
    rintro rfl
    -- an object ends where it is closed, and nothing is left of a bracket that is cut off
    rcases tokens_object_eq_append fields with ⟨ts, hts⟩
    obtain ⟨-, hlast⟩ := List.append_inj' (heq.symm.trans hts) rfl
    cases hlast
    cases hr

/-- What stands behind the text of an object is blank if the text is still that of a phrase. -/
theorem Phrase.WrittenAs.blank {fields : List (Octets × Phrase)} {p q : Octets}
    (hp : (object fields).WrittenAs p) {v : Phrase} (h : v.WrittenAs (p ++ q)) : Blank q := by
  rcases tokens_object_eq_append fields with ⟨ts, hts⟩
  have htokens := hp.tokens_append (object fields).numbersApart_tokens hts rfl q
  rw [h.tokens_eq] at htokens
  have hcomplete : EventStream.Completes [] [] .value v.tokens := by
    have hv := EventStream.ofTokens_eq_complete.mpr ⟨v, rfl, rfl⟩
    exact congrArg EventStream.ending hv
  rw [htokens, EventStream.completes_tokens] at hcomplete
  have hq := spaced_tokens q
  rw [EventStream.completes_separator hcomplete] at hq
  cases hq nofun with
  | nil hw => exact hw

end CodeIndex.Json
