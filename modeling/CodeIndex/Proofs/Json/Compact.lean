import CodeIndex.Proofs.Json.Numeral
import CodeIndex.Proofs.Json.Phrase
import CodeIndex.Proofs.Json.Quoted

/-! # Compact texts

The compact text of a value is cut into the tokens that were written, one after the other. They are
those of a phrase, so a text that holds nothing else is complete, and its events are those of the
value.
-/

namespace CodeIndex.Json

open Text

namespace Number

def token (x : Number) : Token :=
  match x.numeral? with
  | some n => .number n
  | none => .null

def event (x : Number) : Event :=
  match x.numeral? with
  | some n => .number n
  | none => .null

end Number

namespace Value

mutual

def tokens : Value → List Token
  | .null => [.null]
  | .bool b => [.bool b]
  | .number x => [x.token]
  | .string s => [.string (escaped s)]
  | .array [] => [.openArray, .closeArray]
  | .array (x :: xs) => .openArray :: (x.tokens ++ itemTokens xs)
  | .object [] => [.openObject, .closeObject]
  | .object ((name, x) :: fields) =>
    .openObject :: .string (escaped name) :: .colon :: (x.tokens ++ fieldTokens fields)

/-- The tokens behind an item, up to the end of the array. -/
def itemTokens : List Value → List Token
  | [] => [.closeArray]
  | x :: xs => .comma :: (x.tokens ++ itemTokens xs)

def fieldTokens : List (String × Value) → List Token
  | [] => [.closeObject]
  | (name, x) :: fields =>
    .comma :: .string (escaped name) :: .colon :: (x.tokens ++ fieldTokens fields)

end

mutual

def events : Value → List Event
  | .null => [.null]
  | .bool b => [.bool b]
  | .number x => [x.event]
  | .string s => [.string (escaped s)]
  | .array [] => [.openArray, .closeArray]
  | .array (x :: xs) => .openArray :: (x.events ++ itemEvents xs)
  | .object [] => [.openObject, .closeObject]
  | .object ((name, x) :: fields) =>
    .openObject :: .key (escaped name) :: (x.events ++ fieldEvents fields)

/-- The events behind an item, up to the end of the array. -/
def itemEvents : List Value → List Event
  | [] => [.closeArray]
  | x :: xs => .comma :: (x.events ++ itemEvents xs)

def fieldEvents : List (String × Value) → List Event
  | [] => [.closeObject]
  | (name, x) :: fields => .comma :: .key (escaped name) :: (x.events ++ fieldEvents fields)

end

end Value

/-! ## Tokens -/

theorem tokensFrom_cons (read : List Token) (b : UInt8) (rest : Octets) :
    tokensFrom read (b :: rest) =
      if isBlank b then tokensFrom read rest
      else tokensFrom ((scanToken b rest).1 :: read) (scanToken b rest).2 := by
  rw [tokensFrom]

theorem tokensFrom_eq (read : List Token) (s : Octets) :
    tokensFrom read s = read.reverse ++ tokens s := by
  induction h : s.length using Nat.strongRecOn generalizing read s with
  | ind n ih =>
    subst h
    cases s with
    | nil => simp [tokens, tokensFrom]
    | cons b rest =>
      have hl := scanToken_length b rest
      rw [tokens, tokensFrom_cons, tokensFrom_cons]
      split
      · rw [ih _ (by simp) read rest rfl, ih _ (by simp) [] rest rfl]
        simp
      · have hlt : (scanToken b rest).2.length < (b :: rest).length := by
          simp only [List.length_cons]
          omega
        rw [ih _ hlt (_ :: read) _ rfl, ih _ hlt [_] _ rfl]
        simp

theorem tokens_nil : tokens [] = [] := by
  simp [tokens, tokensFrom]

theorem tokens_cons {b : UInt8} {rest rest' : Octets} {t : Token} (hb : isBlank b = false)
    (h : scanToken b rest = (t, rest')) : tokens (b :: rest) = t :: tokens rest' := by
  rw [tokens, tokensFrom_cons, hb, h, if_neg (by decide), tokensFrom_eq]
  rfl

theorem tokens_quote (s : String) (rest : Octets) :
    tokens (octets (quote s) ++ rest) = .string (escaped s) :: tokens rest := by
  rw [octets_quote, List.cons_append, List.append_assoc]
  exact tokens_cons rfl (stringBody_escaped s rest)

/-- A number is one token, before whatever does not go on with it. -/
theorem tokens_text (x : Number) {rest : Octets} (hr : EndsNumber rest) :
    tokens (octets x.text ++ rest) = x.token :: tokens rest := by
  rw [octets_text, Number.token]
  cases hx : x.numeral? with
  | none => exact tokens_cons rfl rfl
  | some n =>
    have hspelled := Numeral.spelledBy_octets (spellable_numeral? hx)
    obtain ⟨b, bs, hn, hb, hs⟩ := scanToken_numeral hspelled
    dsimp only
    rw [hn]
    exact tokens_cons hb (hs rest hr)

theorem endsNumber_compactItems (xs : List Value) (rest : Octets) :
    EndsNumber (octets (Value.compactItems xs) ++ Octet.closeBracket :: rest) := by
  cases xs with
  | nil => exact endsNumber_cons (.inr (.inl rfl))
  | cons x xs =>
    rw [Value.compactItems, octets_append, octets_append]
    exact endsNumber_cons (.inl rfl)

theorem endsNumber_compactFields (fields : List (String × Value)) (rest : Octets) :
    EndsNumber (octets (Value.compactFields fields) ++ Octet.closeBrace :: rest) := by
  match fields with
  | [] => exact endsNumber_cons (.inr (.inr rfl))
  | (name, x) :: fields =>
    simp only [Value.compactFields, octets_append]
    exact endsNumber_cons (.inl rfl)

mutual

/-- A compact text is cut into the tokens of its value, before whatever does not go on with a
number. -/
theorem tokens_compact : ∀ (v : Value) (rest : Octets), EndsNumber rest →
    tokens (octets v.compact ++ rest) = v.tokens ++ tokens rest
  | .null, rest, _ => tokens_cons rfl rfl
  | .bool true, rest, _ => tokens_cons rfl rfl
  | .bool false, rest, _ => tokens_cons rfl rfl
  | .number x, rest, hr => tokens_text x hr
  | .string s, rest, _ => tokens_quote s rest
  | .array [], rest, _ => by
    have hc : tokens (Octet.closeBracket :: rest) = .closeArray :: tokens rest :=
      tokens_cons rfl rfl
    exact (tokens_cons rfl rfl).trans (congrArg _ hc)
  | .array (x :: xs), rest, _ => by
    have hx := tokens_compact x (octets (Value.compactItems xs) ++ Octet.closeBracket :: rest)
      (endsNumber_compactItems xs rest)
    have hxs := tokens_compactItems xs rest
    have hs : octets (Value.array (x :: xs)).compact ++ rest = Octet.openBracket ::
        (octets x.compact ++ (octets (Value.compactItems xs) ++ Octet.closeBracket :: rest)) := by
      simp only [Value.compact, octets_append, List.append_assoc]
      rfl
    rw [hs, tokens_cons (t := .openArray) rfl rfl, hx, hxs]
    simp [Value.tokens]
  | .object [], rest, _ => by
    have hc : tokens (Octet.closeBrace :: rest) = .closeObject :: tokens rest :=
      tokens_cons rfl rfl
    exact (tokens_cons rfl rfl).trans (congrArg _ hc)
  | .object ((name, x) :: fields), rest, _ => by
    have hx := tokens_compact x (octets (Value.compactFields fields) ++ Octet.closeBrace :: rest)
      (endsNumber_compactFields fields rest)
    have hfs := tokens_compactFields fields rest
    have hs : octets (Value.object ((name, x) :: fields)).compact ++ rest = Octet.openBrace ::
        (octets (quote name) ++ Octet.colon :: (octets x.compact ++
          (octets (Value.compactFields fields) ++ Octet.closeBrace :: rest))) := by
      simp only [Value.compact, octets_append, List.append_assoc]
      rfl
    rw [hs, tokens_cons (t := .openObject) rfl rfl, tokens_quote,
      tokens_cons (t := .colon) rfl rfl, hx, hfs]
    simp [Value.tokens]

theorem tokens_compactItems : ∀ (xs : List Value) (rest : Octets),
    tokens (octets (Value.compactItems xs) ++ Octet.closeBracket :: rest) =
      Value.itemTokens xs ++ tokens rest
  | [], rest => tokens_cons rfl rfl
  | x :: xs, rest => by
    have hx := tokens_compact x (octets (Value.compactItems xs) ++ Octet.closeBracket :: rest)
      (endsNumber_compactItems xs rest)
    have hxs := tokens_compactItems xs rest
    have hs : octets (Value.compactItems (x :: xs)) ++ Octet.closeBracket :: rest =
        Octet.comma :: (octets x.compact ++
          (octets (Value.compactItems xs) ++ Octet.closeBracket :: rest)) := by
      simp only [Value.compactItems, octets_append, List.append_assoc]
      rfl
    rw [hs, tokens_cons (t := .comma) rfl rfl, hx, hxs]
    simp [Value.itemTokens]

theorem tokens_compactFields : ∀ (fields : List (String × Value)) (rest : Octets),
    tokens (octets (Value.compactFields fields) ++ Octet.closeBrace :: rest) =
      Value.fieldTokens fields ++ tokens rest
  | [], rest => tokens_cons rfl rfl
  | (name, x) :: fields, rest => by
    have hx := tokens_compact x (octets (Value.compactFields fields) ++ Octet.closeBrace :: rest)
      (endsNumber_compactFields fields rest)
    have hfs := tokens_compactFields fields rest
    have hs : octets (Value.compactFields ((name, x) :: fields)) ++ Octet.closeBrace :: rest =
        Octet.comma :: (octets (quote name) ++ Octet.colon :: (octets x.compact ++
          (octets (Value.compactFields fields) ++ Octet.closeBrace :: rest))) := by
      simp only [Value.compactFields, octets_append, List.append_assoc]
      rfl
    rw [hs, tokens_cons (t := .comma) rfl rfl, tokens_quote, tokens_cons (t := .colon) rfl rfl,
      hx, hfs]
    simp [Value.fieldTokens]

end

/-! ## Events -/

namespace Value

mutual

def phrase : Value → Phrase
  | .null => .null
  | .bool b => .bool b
  | .number x =>
    match x.numeral? with
    | some n => .number n
    | none => .null
  | .string s => .string (escaped s)
  | .array items => .array (itemPhrases items)
  | .object fields => .object (fieldPhrases fields)

def itemPhrases : List Value → List Phrase
  | [] => []
  | x :: xs => x.phrase :: itemPhrases xs

def fieldPhrases : List (String × Value) → List (Octets × Phrase)
  | [] => []
  | (name, x) :: fields => (escaped name, x.phrase) :: fieldPhrases fields

end

mutual

theorem tokens_phrase : ∀ v : Value, v.phrase.tokens = v.tokens
  | .null | .bool _ | .string _ | .array [] | .object [] => rfl
  | .number x => by
    rw [phrase, tokens, Number.token]
    cases x.numeral? <;> rfl
  | .array (x :: xs) => by
    rw [phrase, itemPhrases, Phrase.tokens, tokens_phrase x, itemTokens_phrases xs, tokens]
  | .object ((name, x) :: fields) => by
    rw [phrase, fieldPhrases, Phrase.tokens, tokens_phrase x, fieldTokens_phrases fields, tokens]

theorem itemTokens_phrases : ∀ xs : List Value,
    Phrase.itemTokens (itemPhrases xs) = itemTokens xs
  | [] => rfl
  | x :: xs => by
    rw [itemPhrases, Phrase.itemTokens, tokens_phrase x, itemTokens_phrases xs, itemTokens]

theorem fieldTokens_phrases : ∀ fields : List (String × Value),
    Phrase.fieldTokens (fieldPhrases fields) = fieldTokens fields
  | [] => rfl
  | (name, x) :: fields => by
    rw [fieldPhrases, Phrase.fieldTokens, tokens_phrase x, fieldTokens_phrases fields, fieldTokens]

end

mutual

theorem events_phrase : ∀ v : Value, v.phrase.events = v.events
  | .null | .bool _ | .string _ | .array [] | .object [] => rfl
  | .number x => by
    rw [phrase, events, Number.event]
    cases x.numeral? <;> rfl
  | .array (x :: xs) => by
    rw [phrase, itemPhrases, Phrase.events, events_phrase x, itemEvents_phrases xs, events]
  | .object ((name, x) :: fields) => by
    rw [phrase, fieldPhrases, Phrase.events, events_phrase x, fieldEvents_phrases fields, events]

theorem itemEvents_phrases : ∀ xs : List Value,
    Phrase.itemEvents (itemPhrases xs) = itemEvents xs
  | [] => rfl
  | x :: xs => by
    rw [itemPhrases, Phrase.itemEvents, events_phrase x, itemEvents_phrases xs, itemEvents]

theorem fieldEvents_phrases : ∀ fields : List (String × Value),
    Phrase.fieldEvents (fieldPhrases fields) = fieldEvents fields
  | [] => rfl
  | (name, x) :: fields => by
    rw [fieldPhrases, Phrase.fieldEvents, events_phrase x, fieldEvents_phrases fields, fieldEvents]

end

end Value

/-- The text of a value is complete, and its events are those of the value. -/
theorem events_compact (v : Value) :
    events (octets v.compact) = ⟨v.events, .complete⟩ := by
  have ht := tokens_compact v [] endsNumber_nil
  rw [List.append_nil, tokens_nil, List.append_nil] at ht
  rw [events, ht]
  exact EventStream.ofTokens_eq_complete.mpr ⟨v.phrase, v.tokens_phrase.symm, v.events_phrase.symm⟩

end CodeIndex.Json
