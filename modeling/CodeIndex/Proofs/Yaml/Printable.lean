import CodeIndex.Proofs.Yaml.Printed

/-! # Characters of written values

A written value has printable characters only, and so its text is scanned as it stands.
-/

namespace CodeIndex.Yaml

open Style

variable {c : Char} {cs : List Char} {indent : Nat}

/-! ## Strings -/

theorem all_indentation (n : Nat) : (indentation n).all isPrintable = true := by
  rw [indentation, List.all_eq_true]
  intro c hc
  obtain rfl := List.eq_of_mem_replicate hc
  rfl

theorem all_singleQuotedText (h : cs.all isPrintable = true) (broken : Bool) :
    (singleQuotedText indent broken cs).all isPrintable = true := by
  have hindentation : (if broken then indentation indent else []).all isPrintable = true := by
    split
    · exact all_indentation indent
    · rfl
  induction cs generalizing broken with
  | nil => exact hindentation
  | cons c cs ih =>
    rw [List.all_cons, Bool.and_eq_true] at h
    rw [singleQuotedText]
    split
    · rw [List.all_cons, h.1, Bool.true_and]
      exact ih h.2 true (all_indentation indent)
    · rw [List.all_append, List.all_append, hindentation, ih h.2 false rfl]
      split
      · rfl
      · simp [h.1]

theorem all_literalText (h : cs.all isPrintable = true) (lineStart : Bool) :
    (literalText indent lineStart cs).all isPrintable = true := by
  induction cs generalizing lineStart with
  | nil => rfl
  | cons c cs ih =>
    rw [List.all_cons, Bool.and_eq_true] at h
    rw [literalText]
    split
    · rw [List.all_cons, h.1, ih h.2]
      rfl
    · rw [List.all_append, List.all_cons, h.1, ih h.2, Bool.and_true, Bool.and_true]
      split
      · exact all_indentation indent
      · rfl

theorem all_literalBlock (h : cs.all isPrintable = true) (hne : cs ≠ []) :
    (literalBlock indent cs).toList.all isPrintable = true := by
  have hheader : (literalHeader cs).all isPrintable = true := by
    rw [literalHeader_eq hne]
    cases hidesIndent cs <;> cases chompingOf cs <;> rfl
  rw [literalBlock, String.toList_ofList, List.all_append, hheader, List.all_cons, List.all_append,
    all_literalText h]
  split <;> rfl

theorem all_upperHex (width n : Nat) : (upperHex width n).all isPrintable = true := by
  have hdigit : ∀ n < 16, isPrintable (upperHexDigit n) = true := by decide
  induction width generalizing n with
  | zero => rfl
  | succ width ih =>
    rw [upperHex, List.all_append, ih, List.all_cons, hdigit _ (Nat.mod_lt n (by decide))]
    rfl

theorem all_escaped (c : Char) : (escaped c).all isPrintable = true := by
  have hhex : ∀ letter width, isPrintable letter = true →
      ('\\' :: letter :: upperHex width c.toNat).all isPrintable = true := by
    intro letter width hletter
    rw [List.all_cons, List.all_cons, hletter, all_upperHex]
    rfl
  unfold escaped
  split
  iterate 14 rfl
  dsimp only
  split
  · next hc => simp [hc]
  split
  · exact hhex _ _ rfl
  split
  · exact hhex _ _ rfl
  · exact hhex _ _ rfl

theorem all_of_not_needsEscapes (h : needsEscapes cs = false) : cs.all isPrintable = true :=
  List.all_eq_true.mpr (isPrintable_of_not_needsEscapes h)

theorem all_stringLines (s : String) : (stringLines indent s).toList.all isPrintable = true := by
  have hfeed : isPrintable '\n' = true := rfl
  have hquote : isPrintable '\'' = true ∧ isPrintable '"' = true := ⟨rfl, rfl⟩
  cases hstyle : ofString s with
  | plain =>
    have hplain := (isPlain_iff.mp (ofString_eq_plain hstyle).1).1
    have htext : (stringLines indent s).toList = s.toList ++ ['\n'] := by
      simp [stringLines, inlineText, hstyle]
    rw [htext, List.all_append, all_of_not_needsEscapes hplain]
    rfl
  | singleQuoted =>
    have hescapes := (ofString_eq_singleQuoted hstyle).2.1
    have htext : (stringLines indent s).toList =
        ['\''] ++ singleQuotedText indent false s.toList ++ ['\'', '\n'] := by
      simp [stringLines, inlineText, hstyle]
    rw [htext, List.all_append, List.all_append,
      all_singleQuotedText (all_of_not_needsEscapes hescapes)]
    rfl
  | doubleQuoted =>
    have htext : (stringLines indent s).toList = ['"'] ++ s.toList.flatMap escaped ++ ['"', '\n'] := by
      simp [stringLines, inlineText, hstyle]
    have hescaped : (s.toList.flatMap escaped).all isPrintable = true := by
      rw [List.all_flatMap, List.all_eq_true]
      exact fun c _ => all_escaped c
    rw [htext, List.all_append, List.all_append, hescaped]
    rfl
  | literal =>
    obtain ⟨hfeed, hescapes⟩ := ofString_eq_literal hstyle
    rw [stringLines, hstyle]
    exact all_literalBlock (all_of_not_needsEscapes hescapes) (List.ne_nil_of_mem hfeed)

theorem all_fieldName {name : String} (h : IsFieldName name) :
    (inlineText indent name).toList.all isPrintable = true := by
  rw [inlineText_of_plain h.1]
  exact all_of_not_needsEscapes (isPlain_iff.mp (ofString_eq_plain h.1).1).1

/-! ## Values -/

theorem all_append {s t : String} (hs : s.toList.all isPrintable = true)
    (ht : t.toList.all isPrintable = true) : (s ++ t).toList.all isPrintable = true := by
  rw [String.toList_append, List.all_append, hs, ht]
  rfl

theorem all_indented {s : String} (h : s.toList.all isPrintable = true) :
    (indented indent s).toList.all isPrintable = true := by
  rw [toList_indented, List.all_append, all_indentation, h]
  rfl

theorem all_numberText {n : Int} (h : 0 ≤ n) :
    (Json.Number.int n).text.toList.all isPrintable = true := by
  obtain ⟨n, rfl⟩ := Int.eq_ofNat_of_zero_le h
  exact all_of_not_needsEscapes (isPlain_iff.mp (isPlain_toString n)).1

mutual

theorem all_valueText (indent : Nat) (dash : Bool) :
    ∀ v : Json.Value, IsWritable v → (valueText indent dash v).toList.all isPrintable = true
  | .null, _ => by rw [valueText]; rfl
  | .bool true, _ => by rw [valueText]; rfl
  | .bool false, _ => by rw [valueText]; rfl
  | .number (.int n), hv => by
    rw [valueText]
    exact all_append (all_append rfl (all_numberText hv.1)) rfl
  | .string s, _ => by
    rw [valueText]
    exact all_append rfl (all_stringLines s)
  | .array [], _ => by rw [valueText]; rfl
  | .object [], _ => by rw [valueText]; rfl
  | .array (x :: xs), hv => by
    rw [valueText]
    split
    · exact all_append (all_append rfl (all_valueText _ _ x hv.1)) (all_itemsText _ xs hv.2)
    · exact all_append (all_append (all_append rfl (all_indented rfl)) (all_valueText _ _ x hv.1))
        (all_itemsText _ xs hv.2)
  | .object ((name, x) :: fields), hv => by
    have hstart : (if dash then " " else "\n" ++ indented (indent + 2) "").toList.all isPrintable =
        true := by
      split
      · rfl
      · exact all_append rfl (all_indented rfl)
    rw [valueText]
    exact all_append (all_append (all_append (all_append hstart (all_fieldName hv.2.1)) rfl)
      (all_valueText _ _ x hv.2.2.1)) (all_fieldsText _ fields hv.2.2.2)

theorem all_itemsText (indent : Nat) :
    ∀ xs : List Json.Value, AreWritable xs → (itemsText indent xs).toList.all isPrintable = true
  | [], _ => by rw [itemsText]; rfl
  | x :: xs, hxs => by
    rw [itemsText]
    exact all_append (all_append (all_indented rfl) (all_valueText _ _ x hxs.1))
      (all_itemsText _ xs hxs.2)

theorem all_fieldsText (indent : Nat) :
    ∀ fields : List (String × Json.Value), AreWritableFields fields →
      (fieldsText indent fields).toList.all isPrintable = true
  | [], _ => by rw [fieldsText]; rfl
  | (name, x) :: fields, hfields => by
    rw [fieldsText]
    exact all_append (all_append (all_append (all_indented (all_fieldName hfields.1)) rfl)
      (all_valueText _ _ x hfields.2.1)) (all_fieldsText _ fields hfields.2.2)

end

/-! ## Texts -/

theorem isAllowed_of_isPrintable (h : isPrintable c = true) : isAllowed c = true := by
  simp only [isPrintable, isAllowed, Bool.or_eq_true_iff, Bool.and_eq_true, beq_iff_eq,
    decide_eq_true_eq] at h ⊢
  omega

theorem normalizeBreaks_of_isPrintable (h : cs.all isPrintable = true) :
    normalizeBreaks cs = cs := by
  induction cs with
  | nil => rfl
  | cons c cs ih =>
    rw [List.all_cons, Bool.and_eq_true] at h
    have hreturn : c ≠ '\r' := by
      rintro rfl
      cases h.1
    have hnext : c ≠ '\u0085' := by
      rintro rfl
      cases h.1
    rw [normalizeBreaks.eq_3 _ _ (fun _ h _ => hreturn h), ih h.2, beq_false_of_ne hreturn,
      beq_false_of_ne hnext]
    rfl

open Scanner in
theorem tokens_print {fields : List (String × Json.Value)} (hne : fields ≠ [])
    (h : IsWritable (.object fields)) :
    tokens (print (.object fields)) =
      .ok (.blockMappingStart :: (fieldsTokens fields ++ [.blockEnd])) := by
  obtain ⟨⟨name, x⟩, fields, rfl⟩ := List.exists_cons_of_ne_nil hne
  obtain ⟨-, hname, hx, hfields⟩ := h
  have hprintable := all_fieldsText 0 ((name, x) :: fields) ⟨hname, hx, hfields⟩
  have hallowed : (fieldsText 0 ((name, x) :: fields)).toList.all isAllowed = true :=
    List.all_eq_true.mpr fun c hc =>
      isAllowed_of_isPrintable (List.all_eq_true.mp hprintable c hc)
  have htext : (fieldsText 0 ((name, x) :: fields)).toList =
      name.toList ++ ':' :: ((valueText 0 false x).toList ++ ((fieldsText 0 fields).toList ++ [])) := by
    rw [fieldsText, inlineText_of_plain hname.1]
    simp [toList_indented, indentation]
  have hresult : (Blocks.pushAll ⟨[.blockMappingStart], 0, [-1]⟩
      (fieldsTokens ((name, x) :: fields))).tokens.reverse ++ [.blockEnd] =
        Token.blockMappingStart :: (fieldsTokens ((name, x) :: fields) ++ [.blockEnd]) := by
    simp [Blocks.pushAll]
  have hend : Continues (Blocks.pushAll ⟨[.blockMappingStart], 0, [-1]⟩
      (fieldsTokens ((name, x) :: fields))) []
        (.blockMappingStart :: (fieldsTokens ((name, x) :: fields) ++ [.blockEnd])) :=
    hresult ▸ continues_nil _
  rw [fieldsTokens, ← List.cons_append, ← List.cons_append, ← List.cons_append,
    Blocks.pushAll_append] at hend
  have htail := scansFields_fieldsText fields hfields hend (isLine_nil 0) rfl List.mem_cons_self
  have hopen :
      Blocks.opened ⟨[], -1, []⟩ 0 .blockMappingStart = ⟨[.blockMappingStart], 0, [-1]⟩ := rfl
  have hruns := (scans_valueText x hx).runs_field (p := ⟨0, 0, 0⟩) hname hopen htail
    (isLine_fieldsText (isLine_nil 0) hfields) rfl List.mem_cons_self (by decide) rfl
  rw [← htext] at hruns
  rw [print, tokens, if_pos hallowed, normalizeBreaks_of_isPrintable hprintable]
  have hrun := hruns.run_eq (Nat.lt_succ_self _)
  rw [Blocks.scanner] at hrun
  exact hrun

end CodeIndex.Yaml
