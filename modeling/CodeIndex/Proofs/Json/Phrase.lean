import CodeIndex.Json.Event

/-! # Phrases of JSON

A phrase is a JSON value as it is written: its numbers are numerals, its strings are the octets
between their quotes, and its fields stand in the order of the text, whatever their names. The
grammar of brackets, commas and colons lets through the tokens of exactly one phrase, and turns them
into the events of that phrase.
-/

namespace CodeIndex.Json

open Text

/-- Whether a token has been read to its end. -/
def Token.isWhole : Token → Bool
  | .cutWord | .cutNumber | .cutString _ | .invalid => false
  | _ => true

inductive Phrase where
  | null
  | bool (b : Bool)
  | number (n : Numeral)
  /-- The octets between two quotes. -/
  | string (raw : Octets)
  | array (items : List Phrase)
  | object (fields : List (Octets × Phrase))

namespace Phrase

mutual

def tokens : Phrase → List Token
  | .null => [.null]
  | .bool b => [.bool b]
  | .number n => [.number n]
  | .string raw => [.string raw]
  | .array [] => [.openArray, .closeArray]
  | .array (x :: xs) => .openArray :: (x.tokens ++ itemTokens xs)
  | .object [] => [.openObject, .closeObject]
  | .object ((name, x) :: fields) =>
    .openObject :: .string name :: .colon :: (x.tokens ++ fieldTokens fields)

/-- The tokens behind an item, up to the end of the array. -/
def itemTokens : List Phrase → List Token
  | [] => [.closeArray]
  | x :: xs => .comma :: (x.tokens ++ itemTokens xs)

def fieldTokens : List (Octets × Phrase) → List Token
  | [] => [.closeObject]
  | (name, x) :: fields => .comma :: .string name :: .colon :: (x.tokens ++ fieldTokens fields)

end

mutual

def events : Phrase → List Event
  | .null => [.null]
  | .bool b => [.bool b]
  | .number n => [.number n]
  | .string raw => [.string raw]
  | .array [] => [.openArray, .closeArray]
  | .array (x :: xs) => .openArray :: (x.events ++ itemEvents xs)
  | .object [] => [.openObject, .closeObject]
  | .object ((name, x) :: fields) => .openObject :: .key name :: (x.events ++ fieldEvents fields)

def itemEvents : List Phrase → List Event
  | [] => [.closeArray]
  | x :: xs => .comma :: (x.events ++ itemEvents xs)

def fieldEvents : List (Octets × Phrase) → List Event
  | [] => [.closeObject]
  | (name, x) :: fields => .comma :: .key name :: (x.events ++ fieldEvents fields)

end

/-- What holds of a phrase if it holds of all items and all values of fields in it, holds of every
phrase. -/
theorem induction {P : Phrase → Prop} (null : P .null) (bool : ∀ b, P (.bool b))
    (number : ∀ n, P (.number n)) (string : ∀ raw, P (.string raw))
    (array : ∀ items, (∀ v ∈ items, P v) → P (.array items))
    (object : ∀ fields, (∀ f ∈ fields, P f.2) → P (.object fields)) (v : Phrase) : P v := by
  refine Phrase.rec (motive_1 := P) (motive_2 := fun vs => ∀ v ∈ vs, P v)
    (motive_3 := fun fs => ∀ f ∈ fs, P f.2) (motive_4 := fun f => P f.2)
    null bool number string array object (List.forall_mem_nil _) ?_ (List.forall_mem_nil _) ?_ ?_ v
  · exact fun v vs hv hvs => List.forall_mem_cons.mpr ⟨hv, hvs⟩
  · exact fun f fs hf hfs => List.forall_mem_cons.mpr ⟨hf, hfs⟩
  · exact fun name v hv => hv

theorem tokens_eq_cons (v : Phrase) : ∃ t ts, v.tokens = t :: ts ∧ t ≠ .closeArray := by
  match v with
  | .null | .bool _ | .number _ | .string _ | .array [] | .array (_ :: _) | .object []
  | .object (_ :: _) =>
    refine ⟨_, _, rfl, ?_⟩
    nofun

end Phrase

namespace EventStream

/-! ## What the grammar lets through -/

theorem follow_item {t : Token} (ht : t ≠ .closeArray) (read : List Event)
    (enclosing : List Bracket) (ts : List Token) :
    follow read (.array :: enclosing) .item (t :: ts) =
      follow read (.array :: enclosing) .value (t :: ts) := by
  rw [follow, follow]
  cases t with
  | closeArray => exact absurd rfl ht
  | _ => rfl

mutual

/-- The grammar follows the tokens of a phrase to its end, whatever encloses it. -/
theorem follow_tokens : ∀ (v : Phrase) (read : List Event) (enclosing : List Bracket)
    (ts : List Token),
    follow read enclosing .value (v.tokens ++ ts) =
      follow (v.events.reverse ++ read) enclosing .separator ts
  | .null, _, _, _ => rfl
  | .bool _, _, _, _ => rfl
  | .number _, _, _, _ => rfl
  | .string _, _, _, _ => rfl
  | .array [], _, _, _ => rfl
  | .array (x :: xs), read, enclosing, ts => by
    have ho : follow read enclosing .value ((Phrase.array (x :: xs)).tokens ++ ts) =
        follow (.openArray :: read) (.array :: enclosing) .item
          (x.tokens ++ (Phrase.itemTokens xs ++ ts)) := by
      rw [Phrase.tokens, List.cons_append, List.append_assoc]
      rfl
    rcases x.tokens_eq_cons with ⟨t, ts', hx, ht⟩
    have hitem := follow_item ht (.openArray :: read) enclosing
      (ts' ++ (Phrase.itemTokens xs ++ ts))
    rw [← List.cons_append, ← hx] at hitem
    rw [ho, hitem, follow_tokens x _ _ _, follow_itemTokens xs _ _ _]
    simp [Phrase.events]
  | .object [], _, _, _ => rfl
  | .object ((name, x) :: fields), read, enclosing, ts => by
    have ho : follow read enclosing .value ((Phrase.object ((name, x) :: fields)).tokens ++ ts) =
        follow (.key name :: .openObject :: read) (.object :: enclosing) .value
          (x.tokens ++ (Phrase.fieldTokens fields ++ ts)) := by
      rw [Phrase.tokens, List.cons_append, List.cons_append, List.cons_append, List.append_assoc]
      rfl
    rw [ho, follow_tokens x _ _ _, follow_fieldTokens fields _ _ _]
    simp [Phrase.events]

theorem follow_itemTokens : ∀ (xs : List Phrase) (read : List Event) (enclosing : List Bracket)
    (ts : List Token),
    follow read (.array :: enclosing) .separator (Phrase.itemTokens xs ++ ts) =
      follow ((Phrase.itemEvents xs).reverse ++ read) enclosing .separator ts
  | [], _, _, _ => rfl
  | x :: xs, read, enclosing, ts => by
    have hc : follow read (.array :: enclosing) .separator (Phrase.itemTokens (x :: xs) ++ ts) =
        follow (.comma :: read) (.array :: enclosing) .value
          (x.tokens ++ (Phrase.itemTokens xs ++ ts)) := by
      rw [Phrase.itemTokens, List.cons_append, List.append_assoc]
      rfl
    rw [hc, follow_tokens x _ _ _, follow_itemTokens xs _ _ _]
    simp [Phrase.itemEvents]

theorem follow_fieldTokens : ∀ (fields : List (Octets × Phrase)) (read : List Event)
    (enclosing : List Bracket) (ts : List Token),
    follow read (.object :: enclosing) .separator (Phrase.fieldTokens fields ++ ts) =
      follow ((Phrase.fieldEvents fields).reverse ++ read) enclosing .separator ts
  | [], _, _, _ => rfl
  | (name, x) :: fields, read, enclosing, ts => by
    have hc : follow read (.object :: enclosing) .separator
          (Phrase.fieldTokens ((name, x) :: fields) ++ ts) =
        follow (.key name :: .comma :: read) (.object :: enclosing) .value
          (x.tokens ++ (Phrase.fieldTokens fields ++ ts)) := by
      rw [Phrase.fieldTokens, List.cons_append, List.cons_append, List.cons_append,
        List.append_assoc]
      rfl
    rw [hc, follow_tokens x _ _ _, follow_fieldTokens fields _ _ _]
    simp [Phrase.fieldEvents]

end

/-! ## Complete texts -/

/-- Whether the grammar can follow tokens to the end of a value that nothing encloses. -/
abbrev Completes (read : List Event) (enclosing : List Bracket) (expected : Expected)
    (ts : List Token) : Prop :=
  (follow read enclosing expected ts).ending = .complete

theorem completes_cons {read : List Event} {enclosing : List Bracket} {expected : Expected}
    {t : Token} {ts : List Token} (h : Completes read enclosing expected (t :: ts)) :
    ∃ e enclosing' expected', step enclosing expected t = .ok (e, enclosing', expected') ∧
      Completes (e.toList ++ read) enclosing' expected' ts := by
  rw [Completes, follow] at h
  split at h
  · next hstep => exact ⟨_, _, _, hstep, h⟩
  · next hstep => exact ⟨_, _, _, hstep, h⟩
  · next ending hstep =>
    obtain rfl : ending = .complete := h
    -- no step ends a text
    unfold step at hstep
    split at hstep <;> first | cases hstep | (split at hstep <;> cases hstep)

theorem completes_separator {read : List Event} {ts : List Token}
    (h : Completes read [] .separator ts) : ts = [] := by
  cases ts with
  | nil => rfl
  | cons t ts =>
    rcases completes_cons h with ⟨e, enclosing', expected', hstep, -⟩
    cases t <;> cases hstep

theorem isWhole_of_step {enclosing : List Bracket} {expected : Expected} {t : Token}
    {next : Option Event × List Bracket × Expected}
    (h : step enclosing expected t = .ok next) : t.isWhole = true := by
  cases t with
  | cutWord | cutNumber | cutString | invalid =>
    unfold step at h
    split at h <;> contradiction
  | _ => rfl

/-- The grammar follows no token that has not been read to its end. -/
theorem isWhole_of_completes {read : List Event} {enclosing : List Bracket} {expected : Expected}
    {ts : List Token} (h : Completes read enclosing expected ts) :
    ∀ t ∈ ts, t.isWhole = true := by
  induction ts generalizing read enclosing expected with
  | nil => nofun
  | cons t ts ih =>
    rcases completes_cons h with ⟨e, enclosing', expected', hstep, hts⟩
    exact List.forall_mem_cons.mpr ⟨isWhole_of_step hstep, ih hts⟩

/-- The value of a field stands behind a name and a colon. -/
theorem completes_name {read : List Event} {enclosing : List Bracket} {ts : List Token}
    (h : Completes read (.object :: enclosing) .name ts) :
    ∃ name ts', ts = .string name :: .colon :: ts' ∧
      Completes (.key name :: read) (.object :: enclosing) .value ts' := by
  cases ts with
  | nil => cases h
  | cons t ts =>
    cases t with
    | string name =>
      cases ts with
      | nil => cases h
      | cons t ts' =>
        cases t with
        | colon => exact ⟨name, ts', rfl, h⟩
        | _ => cases h
    | _ => cases h

/-- Whether tokens that the grammar follows to an end begin with a phrase, wherever it wants a
value. -/
def FindsPhrases (ts : List Token) : Prop :=
  ∀ read enclosing, Completes read enclosing .value ts →
    ∃ (v : Phrase) (rest : List Token), ts = v.tokens ++ rest ∧ rest.length < ts.length

/-- Behind a phrase the grammar goes on with what encloses it. -/
theorem completes_tokens {v : Phrase} {read : List Event} {enclosing : List Bracket}
    {ts : List Token} :
    Completes read enclosing .value (v.tokens ++ ts) ↔
      Completes (v.events.reverse ++ read) enclosing .separator ts := by
  rw [Completes, follow_tokens]

theorem exists_itemTokens {ts : List Token} (hts : ∀ us, us.length < ts.length → FindsPhrases us)
    {read : List Event} {enclosing : List Bracket}
    (h : Completes read (.array :: enclosing) .separator ts) :
    ∃ xs rest, ts = Phrase.itemTokens xs ++ rest ∧ rest.length < ts.length := by
  induction hn : ts.length using Nat.strongRecOn generalizing ts read with
  | ind n ih =>
    subst hn
    cases ts with
    | nil => cases h
    | cons t ts =>
      cases t with
      | closeArray => exact ⟨[], ts, rfl, Nat.lt_succ_self _⟩
      | comma =>
        rcases hts ts (Nat.lt_succ_self _) (.comma :: read) _ h with ⟨x, rest, rfl, hlt⟩
        have hrest : Completes (x.events.reverse ++ .comma :: read) (.array :: enclosing)
            .separator rest := completes_tokens.mp h
        have hlt' : rest.length < (Token.comma :: (x.tokens ++ rest)).length :=
          Nat.lt_succ_of_lt hlt
        rcases ih _ hlt' (fun us hus => hts us (Nat.lt_trans hus hlt')) hrest rfl with
          ⟨xs, rest', rfl, hxs⟩
        refine ⟨x :: xs, rest', ?_, Nat.lt_trans hxs hlt'⟩
        rw [Phrase.itemTokens, List.cons_append, List.append_assoc]
      | _ => cases h

/-- Behind a field stand the other fields of its object. -/
theorem exists_fieldTokens {ts : List Token} (hts : ∀ us, us.length < ts.length → FindsPhrases us)
    {read : List Event} {enclosing : List Bracket}
    (h : Completes read (.object :: enclosing) .separator ts) :
    ∃ fields rest, ts = Phrase.fieldTokens fields ++ rest ∧ rest.length < ts.length := by
  induction hn : ts.length using Nat.strongRecOn generalizing ts read with
  | ind n ih =>
    subst hn
    cases ts with
    | nil => cases h
    | cons t ts =>
      cases t with
      | closeObject => exact ⟨[], ts, rfl, Nat.lt_succ_self _⟩
      | comma =>
        have hname : Completes (.comma :: read) (.object :: enclosing) .name ts := h
        rcases completes_name hname with ⟨name, us, rfl, hvalue⟩
        have hus : us.length < (Token.comma :: .string name :: .colon :: us).length := by
          simp only [List.length_cons]
          omega
        rcases hts us hus _ _ hvalue with ⟨x, rest, rfl, hlt⟩
        rw [completes_tokens] at hvalue
        have hlt' := Nat.lt_trans hlt hus
        rcases ih _ hlt' (fun us hus => hts us (Nat.lt_trans hus hlt')) hvalue rfl with
          ⟨fields, rest', rfl, hfields⟩
        refine ⟨(name, x) :: fields, rest', ?_, Nat.lt_trans hfields hlt'⟩
        rw [Phrase.fieldTokens, List.cons_append, List.cons_append, List.cons_append,
          List.append_assoc]
      | _ => cases h

/-- Tokens that the grammar follows to an end are cut where a phrase ends. -/
theorem findsPhrases (ts : List Token) : FindsPhrases ts := by
  induction hn : ts.length using Nat.strongRecOn generalizing ts with
  | ind n ih =>
    subst hn
    have hbelow : ∀ us, us.length < ts.length → FindsPhrases us := fun us hus => ih _ hus us rfl
    intro read enclosing h
    cases ts with
    | nil => cases h
    | cons t ts =>
      have hts := Nat.lt_succ_self ts.length
      cases t with
      | null => exact ⟨.null, ts, rfl, hts⟩
      | bool b => exact ⟨.bool b, ts, rfl, hts⟩
      | number n => exact ⟨.number n, ts, rfl, hts⟩
      | string raw => exact ⟨.string raw, ts, rfl, hts⟩
      | openArray =>
        have hitem : Completes (.openArray :: read) (.array :: enclosing) .item ts := h
        cases ts with
        | nil => cases h
        | cons t ts =>
          by_cases ht : t = .closeArray
          · subst ht
            exact ⟨.array [], ts, rfl, by simp only [List.length_cons]; omega⟩
          rw [Completes, follow_item ht] at hitem
          rcases hbelow _ hts _ _ hitem with ⟨x, rest, hx, hlt⟩
          rw [hx] at hitem
          have hlt' := Nat.lt_trans hlt hts
          rcases exists_itemTokens (fun us hus => hbelow us (Nat.lt_trans hus hlt'))
            (completes_tokens.mp hitem) with ⟨xs, rest', rfl, hxs⟩
          refine ⟨.array (x :: xs), rest', ?_, Nat.lt_trans hxs hlt'⟩
          rw [hx, Phrase.tokens, List.cons_append, List.append_assoc]
      | openObject =>
        cases ts with
        | nil => cases h
        | cons t ts =>
          by_cases ht : t = .closeObject
          · subst ht
            exact ⟨.object [], ts, rfl, by simp only [List.length_cons]; omega⟩
          have hname : Completes (.openObject :: read) (.object :: enclosing) .name (t :: ts) := by
            cases t with
            | closeObject => exact absurd rfl ht
            | string name => exact h
            | _ => cases h
          rcases completes_name hname with ⟨name, us, hus, hvalue⟩
          have hlt : us.length < (Token.openObject :: t :: ts).length := by
            rw [hus]
            simp only [List.length_cons]
            omega
          rcases hbelow us hlt _ _ hvalue with ⟨x, rest, rfl, hrest⟩
          have hlt' := Nat.lt_trans hrest hlt
          rcases exists_fieldTokens (fun us hus => hbelow us (Nat.lt_trans hus hlt'))
            (completes_tokens.mp hvalue) with ⟨fields, rest', rfl, hfields⟩
          refine ⟨.object ((name, x) :: fields), rest', ?_, Nat.lt_trans hfields hlt'⟩
          rw [hus, Phrase.tokens, List.cons_append, List.cons_append, List.cons_append,
            List.append_assoc]
      | _ => cases h

/-- The texts that are complete are those of phrases, and their events are those of a phrase. -/
theorem ofTokens_eq_complete {ts : List Token} {es : List Event} :
    ofTokens ts = ⟨es, .complete⟩ ↔ ∃ v : Phrase, ts = v.tokens ∧ es = v.events := by
  constructor
  · intro h
    have hcomplete : Completes [] [] .value ts := by
      rw [Completes, ← ofTokens, h]
    rcases findsPhrases ts [] [] hcomplete with ⟨v, rest, rfl, -⟩
    obtain rfl : rest = [] := completes_separator (completes_tokens.mp hcomplete)
    rw [ofTokens, follow_tokens] at h
    cases h
    exact ⟨v, by simp, by simp⟩
  · rintro ⟨v, rfl, rfl⟩
    have h := follow_tokens v [] [] []
    rw [List.append_nil] at h
    rw [ofTokens, h]
    simp [follow]

end EventStream

end CodeIndex.Json
