import CodeIndex.Proofs.Yaml.Numerals
import CodeIndex.Proofs.Yaml.Words

/-! # Tokens of written values

A written value is scanned as the tokens of its structure. A value inside a collection is followed by
further lines that are indented no more than the collection, and those are scanned by themselves.
-/

namespace CodeIndex.Yaml

open Scanner Style

/-! ## Values that can be read back -/

/-- Whether a name is written plainly and is short enough for a key. -/
def IsFieldName (name : String) : Prop :=
  ofString name = .plain ∧ name.toList.length ≤ keyLimit

instance (name : String) : Decidable (IsFieldName name) := inferInstanceAs (Decidable (_ ∧ _))

mutual

/-- Whether a value has no floats and only numbers of 64 bits without a sign, and its fields have
distinct names that are written plainly. -/
def IsWritable : Json.Value → Prop
  | .null | .bool _ | .string _ => True
  | .number (.int n) => 0 ≤ n ∧ n < UInt64.size
  | .number (.float _) => False
  | .array items => AreWritable items
  | .object fields => (fields.map (·.1)).Nodup ∧ AreWritableFields fields

def AreWritable : List Json.Value → Prop
  | [] => True
  | x :: xs => IsWritable x ∧ AreWritable xs

def AreWritableFields : List (String × Json.Value) → Prop
  | [] => True
  | (name, x) :: fields => IsFieldName name ∧ IsWritable x ∧ AreWritableFields fields

end

/-! ## Tokens -/

mutual

/-- The tokens of a value, behind a dash or else behind the name of a field. -/
def valueTokens (dash : Bool) : Json.Value → List Token
  | .null => [.scalar true "null"]
  | .bool b => [.scalar true (if b then "true" else "false")]
  | .number n => [.scalar true n.text]
  | .string s => [stringToken s]
  | .array [] => [.flowSequenceStart, .flowSequenceEnd]
  | .object [] => [.flowMappingStart, .flowMappingEnd]
  | .array (x :: xs) =>
    if dash then .blockSequenceStart :: (itemsTokens (x :: xs) ++ [.blockEnd])
    else itemsTokens (x :: xs)
  | .object (field :: fields) =>
    .blockMappingStart :: (fieldsTokens (field :: fields) ++ [.blockEnd])

def itemsTokens : List Json.Value → List Token
  | [] => []
  | x :: xs => .blockEntry :: (valueTokens true x ++ itemsTokens xs)

def fieldsTokens : List (String × Json.Value) → List Token
  | [] => []
  | (name, x) :: fields =>
    .key :: .scalar true name :: .value :: (valueTokens false x ++ fieldsTokens fields)

end

namespace Blocks

variable {b : Blocks}

def pushAll (b : Blocks) (ts : List Token) : Blocks :=
  { b with tokens := ts.reverse ++ b.tokens }

theorem pushAll_nil (b : Blocks) : b.pushAll [] = b := rfl

theorem pushAll_cons (b : Blocks) (t : Token) (ts : List Token) :
    b.pushAll (t :: ts) = (b.push t).pushAll ts := by
  simp [pushAll, push]

theorem pushAll_append (b : Blocks) (ts us : List Token) :
    b.pushAll (ts ++ us) = (b.pushAll ts).pushAll us := by
  simp [pushAll]

end Blocks

theorem toList_indented (indent : Nat) (s : String) :
    (indented indent s).toList = indentation indent ++ s.toList := by
  rw [indented, String.toList_append, String.toList_ofList]

theorem inlineText_of_plain {s : String} {indent : Nat} (h : ofString s = .plain) :
    inlineText indent s = s := by
  rw [inlineText, h]

namespace Scanner

variable {b : Blocks} {p : Position} {text : List Char} {ts : List Token} {indent : Nat}
  {allowed : Bool}

/-! ## Lines -/

def IsLine (indent : Nat) (text : List Char) : Prop :=
  ∃ n rest, text = indentation n ++ rest ∧ AtToken n rest ∧ n ≤ indent

theorem isLine_nil (indent : Nat) : IsLine indent [] :=
  ⟨0, [], rfl, atToken_nil, Nat.zero_le _⟩

theorem IsLine.mono {indent' : Nat} (h : IsLine indent text) (hle : indent ≤ indent') :
    IsLine indent' text := by
  obtain ⟨n, rest, htext, hrest, hn⟩ := h
  exact ⟨n, rest, htext, hrest, Nat.le_trans hn hle⟩

theorem isLine_indentation {c : Char} (hc : StartsToken c) (indent : Nat) (text : List Char) :
    IsLine indent (indentation indent ++ c :: text) :=
  ⟨indent, c :: text, rfl, atToken_cons hc, Nat.le_refl _⟩

theorem isLine_itemsText (h : IsLine indent text) (xs : List Json.Value) :
    IsLine indent ((itemsText indent xs).toList ++ text) := by
  cases xs with
  | nil => exact h
  | cons x xs =>
    rw [itemsText]
    simp only [String.toList_append, toList_indented, List.append_assoc]
    exact isLine_indentation (by decide) indent _

theorem exists_startsToken_of_isFieldName {name : String} (h : IsFieldName name) :
    ∃ c cs, name.toList = c :: cs ∧ StartsToken c := by
  obtain ⟨hplain, hambiguous⟩ := ofString_eq_plain h.1
  obtain ⟨c, cs, hname⟩ := List.exists_cons_of_ne_nil (toList_ne_nil_of_not_isAmbiguous hambiguous)
  rw [hname] at hplain
  have hline := isPlainLine_of_isPlain hplain
  exact ⟨c, cs, hname, (startsPlainly_of_isPlain hplain).startsToken
    (hline.isPrintable c List.mem_cons_self) (hline.not_isBreak c List.mem_cons_self)⟩

theorem isLine_fieldsText (h : IsLine indent text) {fields : List (String × Json.Value)}
    (hfields : AreWritableFields fields) :
    IsLine indent ((fieldsText indent fields).toList ++ text) := by
  cases fields with
  | nil => exact h
  | cons field fields =>
    obtain ⟨c, cs, hname, hc⟩ := exists_startsToken_of_isFieldName hfields.1
    rw [fieldsText, inlineText_of_plain hfields.1.1]
    simp only [String.toList_append, toList_indented, List.append_assoc, hname]
    exact isLine_indentation hc indent _

theorem atGap_valueText (indent : Nat) (dash : Bool) (v : Json.Value) (text : List Char) :
    atGap ((valueText indent dash v).toList ++ text) = true := by
  unfold valueText
  split
  case h_2 => split <;> simp [atGap, isBlank]
  case h_7 => split <;> simp [atGap, isBlank, isBreak]
  case h_8 => split <;> simp [atGap, isBlank, isBreak]
  all_goals simp [atGap, isBlank]

/-! ## Collections -/

/-- What has to hold so that the text of a value is scanned as its tokens. -/
def Scans (v : Json.Value) : Prop :=
  ∀ ⦃b : Blocks⦄ ⦃p : Position⦄ ⦃indent : Nat⦄ ⦃dash : Bool⦄ ⦃text : List Char⦄ ⦃ts : List Token⦄,
    Continues (b.pushAll (valueTokens dash v)) text ts → IsLine indent text → b.indent = indent →
    -1 ∈ b.outerIndents → indent < p.column → (dash = true → p.column = indent + 1) →
    (b.scanner p ((valueText indent dash v).toList ++ text) [none] dash).Runs ts

/-- An item, which begins a sequence if its dash stands to the right of the block around it. -/
theorem Scans.runs_item {x : Json.Value} (hx : Scans x) {b' : Blocks}
    (hb' : b.opened p.column .blockSequenceStart = b')
    (h : Continues (b'.pushAll (.blockEntry :: valueTokens true x)) text ts)
    (htext : IsLine indent text) (hindent : b'.indent = indent) (hbase : -1 ∈ b'.outerIndents)
    (hle : b.indent ≤ p.column) (hcolumn : p.column = indent) :
    (b.scanner p ('-' :: ((valueText indent true x).toList ++ text)) [none] true).Runs ts := by
  refine Runs.of_dash ?_ hle (atGap_valueText indent true x text)
  rw [hb']
  rw [Blocks.pushAll_cons] at h
  have hnext : (p.next '-').column = indent + 1 := by
    rw [Position.next_of_not_isBreak rfl, hcolumn]
  exact hx h htext hindent hbase (by omega) fun _ => hnext

/-- A field, which begins a mapping if its name stands to the right of the block around it. -/
theorem Scans.runs_field {x : Json.Value} (hx : Scans x) {name : String} (hname : IsFieldName name)
    {b' : Blocks} (hb' : b.opened p.column .blockMappingStart = b')
    (h : Continues (b'.pushAll (.key :: .scalar true name :: .value :: valueTokens false x)) text ts)
    (htext : IsLine indent text) (hindent : b'.indent = indent) (hbase : -1 ∈ b'.outerIndents)
    (hle : b.indent ≤ p.column) (hcolumn : p.column = indent) :
    (b.scanner p (name.toList ++ ':' :: ((valueText indent false x).toList ++ text)) [none]
      true).Runs ts := by
  obtain ⟨hplain, hambiguous⟩ := ofString_eq_plain hname.1
  have hne := toList_ne_nil_of_not_isAmbiguous hambiguous
  refine Runs.of_key ?_ hle (atGap_valueText indent false x text) hplain hne hname.2
  rw [hb', String.ofList_toList]
  rw [Blocks.pushAll_cons, Blocks.pushAll_cons, Blocks.pushAll_cons] at h
  have hlength : 0 < name.toList.length := List.length_pos_iff.mpr hne
  have hnext : indent < ((p.after name.toList).next ':').column := by
    rw [p.after_of_line (isPlainLine_of_isPlain hplain).not_isBreak,
      Position.next_of_not_isBreak rfl]
    simp only
    omega
  exact hx h htext hindent hbase hnext nofun

def ScansItems (xs : List Json.Value) : Prop :=
  ∀ ⦃b : Blocks⦄ ⦃indent : Nat⦄ ⦃text : List Char⦄ ⦃ts : List Token⦄,
    Continues (b.pushAll (itemsTokens xs)) text ts → IsLine indent text → b.indent = indent →
    -1 ∈ b.outerIndents → Continues b ((itemsText indent xs).toList ++ text) ts

def ScansFields (fields : List (String × Json.Value)) : Prop :=
  ∀ ⦃b : Blocks⦄ ⦃indent : Nat⦄ ⦃text : List Char⦄ ⦃ts : List Token⦄,
    Continues (b.pushAll (fieldsTokens fields)) text ts → IsLine indent text → b.indent = indent →
    -1 ∈ b.outerIndents → Continues b ((fieldsText indent fields).toList ++ text) ts

theorem column_after_indentation (hp : p.column = 0) (n : Nat) :
    (p.after (indentation n)).column = n := by
  rw [Position.after_indentation, hp, Nat.zero_add]

theorem scansItems_cons {x : Json.Value} {xs : List Json.Value} (hx : Scans x)
    (hxs : ScansItems xs) : ScansItems (x :: xs) := by
  intro b indent text ts h htext hindent hbase p hp
  rw [itemsTokens, ← List.cons_append, Blocks.pushAll_append] at h
  have hcolumn := column_after_indentation hp indent
  rw [itemsText]
  simp only [String.toList_append, toList_indented, List.append_assoc]
  refine Runs.of_prepare_eq ?_ (prepare_indentation indent)
  exact hx.runs_item (Blocks.opened_of_le (by omega)) (hxs h htext hindent hbase)
    (isLine_itemsText htext xs) hindent hbase (by omega) hcolumn

theorem scansFields_cons {name : String} {x : Json.Value} {fields : List (String × Json.Value)}
    (hname : IsFieldName name) (hx : Scans x) (hfields : AreWritableFields fields)
    (hscans : ScansFields fields) : ScansFields ((name, x) :: fields) := by
  intro b indent text ts h htext hindent hbase p hp
  rw [fieldsTokens, ← List.cons_append, ← List.cons_append, ← List.cons_append,
    Blocks.pushAll_append] at h
  have hcolumn := column_after_indentation hp indent
  rw [fieldsText, inlineText_of_plain hname.1]
  simp only [String.toList_append, toList_indented, List.append_assoc]
  refine Runs.of_prepare_eq ?_ (prepare_indentation indent)
  exact hx.runs_field hname (Blocks.opened_of_le (by omega)) (hscans h htext hindent hbase)
    (isLine_fieldsText htext hfields) hindent hbase (by omega) hcolumn

/-- A block that is opened has ended before lines that belong to the block around it. -/
theorem continues_of_block {t : Token} {us : List Token} {column : Nat}
    (h : Continues (b.pushAll (t :: (us ++ [.blockEnd]))) text ts) (htext : IsLine indent text)
    (hcolumn : indent < column) (hbase : -1 ∈ b.outerIndents) :
    Continues (Blocks.pushAll ⟨t :: b.tokens, column, b.indent :: b.outerIndents⟩ us) text ts := by
  obtain ⟨n, rest, rfl, hrest, hn⟩ := htext
  rw [Blocks.pushAll_cons, Blocks.pushAll_append] at h
  exact h.of_blockEnd hrest (by omega : (n : Int) < (column : Int)) (List.mem_cons_of_mem _ hbase)

theorem scans_array {x : Json.Value} {xs : List Json.Value} (hx : Scans x) (hxs : ScansItems xs) :
    Scans (.array (x :: xs)) := by
  intro b p indent dash text ts h htext hindent hbase hcolumn hdash
  cases dash with
  | false =>
    rw [valueTokens, if_neg Bool.false_ne_true, itemsTokens, ← List.cons_append,
      Blocks.pushAll_append] at h
    have hnext : ((p.next '\n').after (indentation indent)).column = indent :=
      column_after_indentation (by rw [Position.next_of_isBreak rfl]) indent
    rw [valueText, if_neg Bool.false_ne_true]
    simp only [String.toList_append, toList_indented, List.append_assoc]
    refine Runs.of_prepare_eq ?_ (prepare_newline.trans (prepare_indentation indent))
    exact hx.runs_item (Blocks.opened_of_le (by omega)) (hxs h htext hindent hbase)
      (isLine_itemsText htext xs) hindent hbase (by omega) hnext
  | true =>
    rw [valueTokens, if_pos rfl] at h
    have hblock := continues_of_block h htext (Nat.lt_add_of_pos_right Nat.two_pos) hbase
    rw [itemsTokens, ← List.cons_append, Blocks.pushAll_append] at hblock
    have hnext : (p.next ' ').column = indent + 2 := by
      rw [Position.next_of_not_isBreak rfl, hdash rfl]
    have htext' : IsLine (indent + 2) text := htext.mono (Nat.le_add_right _ _)
    rw [valueText, if_pos rfl]
    simp only [String.toList_append, List.append_assoc]
    refine Runs.of_prepare_eq ?_ prepare_space
    have hopen : b.opened (p.next ' ').column .blockSequenceStart =
        ⟨.blockSequenceStart :: b.tokens, (indent + 2 : Nat), b.indent :: b.outerIndents⟩ := by
      rw [hnext, Blocks.opened_of_lt (by omega)]
    have hbase' : -1 ∈ b.indent :: b.outerIndents := List.mem_cons_of_mem _ hbase
    exact hx.runs_item hopen (hxs hblock htext' rfl hbase') (isLine_itemsText htext' xs) rfl hbase'
      (by omega) hnext

/-- Behind a dash a mapping begins on the same line, and else on the next one. -/
theorem prepare_objectStart {indent : Nat} {dash : Bool}
    (hcolumn : dash = true → p.column = indent + 1)
    (rest : List Char) :
    ∃ q : Position, q.column = indent + 2 ∧
      (b.scanner p ((if dash then [' '] else '\n' :: indentation (indent + 2)) ++ rest) [none]
        dash).prepare = (b.scanner q rest [none] true).prepare := by
  cases dash with
  | true =>
    refine ⟨p.next ' ', ?_, prepare_space⟩
    rw [Position.next_of_not_isBreak rfl, hcolumn rfl]
  | false =>
    refine ⟨(p.next '\n').after (indentation (indent + 2)), ?_,
      prepare_newline.trans (prepare_indentation _)⟩
    exact column_after_indentation (by rw [Position.next_of_isBreak rfl]) _

theorem scans_object {name : String} {x : Json.Value} {fields : List (String × Json.Value)}
    (hname : IsFieldName name) (hx : Scans x) (hfields : AreWritableFields fields)
    (hscans : ScansFields fields) : Scans (.object ((name, x) :: fields)) := by
  intro b p indent dash text ts h htext hindent hbase hcolumn hdash
  have hblock := continues_of_block h htext (Nat.lt_add_of_pos_right Nat.two_pos) hbase
  rw [fieldsTokens, ← List.cons_append, ← List.cons_append, ← List.cons_append,
    Blocks.pushAll_append] at hblock
  obtain ⟨q, hq, hprepare⟩ := prepare_objectStart (b := b) hdash
    (name.toList ++ ':' :: ((valueText (indent + 2) false x).toList ++
      ((fieldsText (indent + 2) fields).toList ++ text)))
  have hopen : b.opened q.column .blockMappingStart =
      ⟨.blockMappingStart :: b.tokens, (indent + 2 : Nat), b.indent :: b.outerIndents⟩ := by
    rw [hq, Blocks.opened_of_lt (by omega)]
  have hbase' : -1 ∈ b.indent :: b.outerIndents := List.mem_cons_of_mem _ hbase
  have htext' : IsLine (indent + 2) text := htext.mono (Nat.le_add_right _ _)
  have hstart : (valueText indent dash (.object ((name, x) :: fields))).toList ++ text =
      (if dash then [' '] else '\n' :: indentation (indent + 2)) ++ (name.toList ++ ':' ::
        ((valueText (indent + 2) false x).toList ++
          ((fieldsText (indent + 2) fields).toList ++ text))) := by
    rw [valueText, inlineText_of_plain hname.1]
    cases dash <;> simp [toList_indented]
  rw [hstart]
  refine Runs.of_prepare_eq ?_ hprepare
  exact hx.runs_field hname hopen (hscans hblock htext' rfl hbase')
    (isLine_fieldsText htext' hfields) rfl hbase' (by omega) hq

/-! ## Scalars -/

theorem scans_plain {v : Json.Value} (word : String) (hplain : isPlain word.toList = true)
    (hne : word.toList ≠ []) (htext : ∀ indent dash, valueText indent dash v = " " ++ word ++ "\n")
    (htokens : ∀ dash, valueTokens dash v = [.scalar true word]) : Scans v := by
  intro b p indent dash text ts h ⟨n, rest, heq, hrest, hn⟩ hindent hbase hcolumn hdash
  rw [heq] at h ⊢
  rw [htokens, Blocks.pushAll_cons, Blocks.pushAll_nil, ← String.ofList_toList (s := word)] at h
  have hnext : b.indent < (p.next ' ').column := by
    rw [Position.next_of_not_isBreak rfl]
    simp only
    omega
  have htext' : (valueText indent dash v).toList ++ (indentation n ++ rest) =
      ' ' :: (word.toList ++ '\n' :: (indentation n ++ rest)) := by
    rw [htext]
    simp
  rw [htext']
  exact (Runs.of_plainLine h hrest (by omega) hnext hplain hne).of_prepare_eq prepare_space

theorem scans_string (s : String) : Scans (.string s) := by
  intro b p indent dash text ts h ⟨n, rest, heq, hrest, hn⟩ hindent hbase hcolumn hdash
  rw [heq] at h ⊢
  rw [valueTokens, Blocks.pushAll_cons, Blocks.pushAll_nil] at h
  have hnext : indent < (p.next ' ').column := by
    rw [Position.next_of_not_isBreak rfl]
    simp only
    omega
  rw [valueText]
  simp only [String.toList_append, List.append_assoc]
  exact (Runs.of_stringLines h hrest hn hindent hnext).of_prepare_eq prepare_space

theorem scans_brackets {v : Json.Value} {opening closing : Char} {openToken closeToken : Token}
    (hbrackets : AreBrackets opening closing openToken closeToken)
    (htext : ∀ indent dash, (valueText indent dash v).toList = [' ', opening, closing, '\n'])
    (htokens : ∀ dash, valueTokens dash v = [openToken, closeToken]) : Scans v := by
  intro b p indent dash text ts h ⟨n, rest, heq, hrest, hn⟩ hindent hbase hcolumn hdash
  rw [heq] at h ⊢
  rw [htokens, Blocks.pushAll_cons, Blocks.pushAll_cons, Blocks.pushAll_nil] at h
  have hnext : (p.next ' ').column = p.column + 1 := by
    rw [Position.next_of_not_isBreak rfl]
  rw [htext]
  refine Runs.of_prepare_eq ?_ prepare_space
  refine Runs.of_brackets hbrackets (fun place hplace => ?_) (by omega) (by omega)
  refine h.runs_of_newline hrest (hplace.mono ?_)
  exact Nat.le_trans ((p.next ' ').line_le_next opening) (Position.line_le_next _ closing)

theorem scans_number {n : Int} (h : 0 ≤ n) : Scans (.number (.int n)) := by
  obtain ⟨n, rfl⟩ := Int.eq_ofNat_of_zero_le h
  refine scans_plain (toString n) (isPlain_toString n) (toList_toString_ne_nil n)
    (fun indent dash => ?_) fun dash => ?_
  · rw [valueText]
    rfl
  · rw [valueTokens]
    rfl

mutual

/-- The text of a value is scanned as its tokens. -/
theorem scans_valueText : ∀ v : Json.Value, IsWritable v → Scans v
  | .null, _ => scans_plain "null" (by decide) (by decide) (fun _ _ => by rw [valueText]; rfl)
      fun _ => by rw [valueTokens]
  | .bool true, _ => scans_plain "true" (by decide) (by decide) (fun _ _ => by rw [valueText]; rfl)
      fun _ => by rw [valueTokens]; rfl
  | .bool false, _ => scans_plain "false" (by decide) (by decide) (fun _ _ => by rw [valueText]; rfl)
      fun _ => by rw [valueTokens]; rfl
  | .number (.int _), hv => scans_number hv.1
  | .string s, _ => scans_string s
  | .array [], _ =>
    scans_brackets areBrackets_square (fun _ _ => by simp [valueText]) fun _ => rfl
  | .object [], _ =>
    scans_brackets areBrackets_curly (fun _ _ => by simp [valueText]) fun _ => rfl
  | .array (x :: xs), hv => scans_array (scans_valueText x hv.1) (scansItems_itemsText xs hv.2)
  | .object ((_, x) :: fields), hv =>
    scans_object hv.2.1 (scans_valueText x hv.2.2.1) hv.2.2.2
      (scansFields_fieldsText fields hv.2.2.2)

theorem scansItems_itemsText : ∀ xs : List Json.Value, AreWritable xs → ScansItems xs
  | [], _ => fun _ _ _ _ h _ _ _ => h
  | x :: xs, hxs => scansItems_cons (scans_valueText x hxs.1) (scansItems_itemsText xs hxs.2)

theorem scansFields_fieldsText :
    ∀ fields : List (String × Json.Value), AreWritableFields fields → ScansFields fields
  | [], _ => fun _ _ _ _ h _ _ _ => h
  | (_, x) :: fields, hfields =>
    scansFields_cons hfields.1 (scans_valueText x hfields.2.1) hfields.2.2
      (scansFields_fieldsText fields hfields.2.2)

end

end Scanner

end CodeIndex.Yaml
