import CodeIndex.Proofs.Yaml.Escapes
import CodeIndex.Proofs.Yaml.Scanning

/-! # Tokens of what is written

The scanner takes dashes, names of fields, brackets and strings of every style from a text as they
were written, and is then behind them.
-/

namespace CodeIndex.Yaml.Scanner

open Style

variable {b : Blocks} {p : Position} {c : Char} {cs rest : List Char} {ts : List Token}
  {places : List (Option KeyPlace)} {place : Option KeyPlace} {allowed : Bool} {s : Scanner}
  {n : Nat}

/-! ## Tokens -/

/-- Whether the text that is left belongs to a token of the innermost block. -/
structure IsReady (b : Blocks) (p : Position) (rest : List Char) : Prop where
  atToken : AtToken p.column rest
  indent_le : b.indent ≤ p.column

theorem IsReady.prepare_eq (h : IsReady b p rest) (hplaces : ∀ place ∈ places, IsFresh p place) :
    (b.scanner p rest places allowed).prepare = .ok (b.scanner p rest places allowed) := by
  rw [prepare_of_atToken h.atToken, dropStaleKeys_of_isFresh hplaces]
  exact congrArg Except.ok (closeBlocks_of_le h.indent_le)

theorem isFresh_none (p : Position) : ∀ place ∈ [none], IsFresh p place := by
  simp [IsFresh]

theorem Runs.of_isReady (h : s.Runs ts) (hready : IsReady b p (c :: rest))
    (hplaces : ∀ place ∈ places, IsFresh p place)
    (htoken : (b.scanner p (c :: rest) places allowed).token c rest = .ok s)
    (hlength : s.rest.length ≤ rest.length) :
    (b.scanner p (c :: rest) places allowed).Runs ts :=
  h.of_token (hready.prepare_eq hplaces) rfl htoken hlength

/-! ## Dashes -/

/-- A token is inserted behind those that were there before the ones in `front`. -/
theorem insertAt_scanner (front : List Token) (t : Token) :
    (Blocks.scanner { b with tokens := front ++ b.tokens } p rest places allowed).insertAt
        b.tokens.length t =
      Blocks.scanner { b with tokens := front ++ t :: b.tokens } p rest places allowed := by
  have hlength : (front ++ b.tokens).length - b.tokens.length = front.length := by
    rw [List.length_append, Nat.add_sub_cancel]
  simp only [insertAt, Blocks.scanner, hlength, List.take_left, List.drop_left]

/-- A block is opened behind the tokens that were there before the ones in `front`. -/
theorem openBlock_scanner (front : List Token) (column : Nat) (t : Token) :
    (Blocks.scanner { b with tokens := front ++ b.tokens } p rest [place] allowed).openBlock column
        b.tokens.length t =
      Blocks.scanner { b.opened column t with tokens := front ++ (b.opened column t).tokens } p rest
        [place] allowed := by
  have hflow : ∀ b : Blocks, (b.scanner p rest [place] allowed).inFlow = false := fun _ => rfl
  rw [openBlock, hflow, Bool.false_or]
  by_cases hle : (column : Int) ≤ b.indent
  · rw [Blocks.opened_of_le hle]
    exact if_pos (decide_eq_true hle)
  · rw [Blocks.opened_of_lt (by omega)]
    refine (if_neg (mt of_decide_eq_true hle)).trans ?_
    exact congrArg
      (fun s : Scanner => { s with indent := column, outerIndents := b.indent :: b.outerIndents })
      (insertAt_scanner front t)

theorem documentMark?_eq_none (hstart : ['-', '-', '-'].isPrefixOf cs = false)
    (hend : ['.', '.', '.'].isPrefixOf cs = false) : documentMark? cs = none := by
  unfold documentMark?
  split
  · simp [List.isPrefixOf] at hstart
  · simp [List.isPrefixOf] at hend
  · rfl

theorem ne_dash_of_atGap (h : atGap (c :: rest) = true) : c ≠ '-' := by
  rintro rfl
  cases h

/-- A dash begins an item, and a sequence if it stands to the right of the block around it. -/
theorem Runs.of_dash
    (h : (((b.opened p.column .blockSequenceStart).push .blockEntry).scanner (p.next '-') rest
      [none] true).Runs ts)
    (hindent : b.indent ≤ p.column) (hrest : atGap rest = true) :
    (b.scanner p ('-' :: rest) [none] true).Runs ts := by
  have hready : IsReady b p ('-' :: rest) :=
    ⟨atToken_cons (by decide), hindent⟩
  have hmark : documentMark? ('-' :: rest) = none := by
    cases rest with
    | nil => rfl
    | cons c rest =>
      refine documentMark?_eq_none ?_ rfl
      have hc : ('-' == c) = false := beq_false_of_ne (ne_dash_of_atGap hrest).symm
      simp [List.isPrefixOf, hc]
  have htoken : (b.scanner p ('-' :: rest) [none] true).token '-' rest =
      (b.scanner p ('-' :: rest) [none] true).blockEntry := by
    simp [token, Blocks.scanner, hmark, hrest]
  have hopen : (b.scanner p ('-' :: rest) [none] true).openBlock
      (b.scanner p ('-' :: rest) [none] true).column
      (b.scanner p ('-' :: rest) [none] true).tokens.length .blockSequenceStart =
        (b.opened p.column .blockSequenceStart).scanner p ('-' :: rest) [none] true :=
    openBlock_scanner [] p.column .blockSequenceStart
  refine h.of_isReady hready (isFresh_none p) (htoken.trans ?_) (Nat.le_refl _)
  rw [blockEntry, hopen]
  rfl

/-! ## Possible keys -/

/-- Text to the right of its block may be a key, but need not be one. -/
theorem exists_rememberKey (hindent : b.indent < p.column) (rest : List Char) (allowed : Bool) :
    ∃ place, IsIdle p.line place ∧ (∀ c, isBreak c = false → IsFresh (p.next c) place) ∧
      (b.scanner p rest [none] allowed).rememberKey = .ok (b.scanner p rest [place] allowed) := by
  cases allowed with
  | false =>
    exact ⟨none, isIdle_none _, fun c _ => isFresh_none (p.next c) none List.mem_cons_self, rfl⟩
  | true =>
    have hrequired : (b.indent == (p.column : Int)) = false := beq_false_of_ne (Int.ne_of_lt hindent)
    refine ⟨some { tokens := b.tokens.length, line := p.line, column := p.column, index := p.index
                   required := b.indent == (p.column : Int) }, ?_, ?_, rfl⟩
    · rintro _ ⟨⟩
      exact ⟨hrequired, Nat.le_refl _⟩
    · rintro c hc _ ⟨⟩
      rw [Position.next_of_not_isBreak hc]
      exact ⟨rfl, Nat.add_le_add_left (by decide) _⟩

/-! ## Brackets -/

/-- Whether two characters are the tokens of a collection in brackets. -/
structure AreBrackets (opening closing : Char) (openToken closeToken : Token) : Prop where
  token_opening : ∀ (s : Scanner) (rest : List Char), s.column ≠ 0 →
    s.token opening rest = s.openFlow openToken
  token_closing : ∀ (s : Scanner) (rest : List Char), s.column ≠ 0 →
    s.token closing rest = s.closeFlow closeToken
  startsToken_opening : StartsToken opening
  startsToken_closing : StartsToken closing

theorem areBrackets_square : AreBrackets '[' ']' .flowSequenceStart .flowSequenceEnd := by
  refine ⟨fun s rest h => ?_, fun s rest h => ?_, by decide, by decide⟩ <;> simp [token, h]

theorem areBrackets_curly : AreBrackets '\x7b' '\x7d' .flowMappingStart .flowMappingEnd := by
  refine ⟨fun s rest h => ?_, fun s rest h => ?_, by decide, by decide⟩ <;> simp [token, h]

theorem Runs.of_brackets {opening closing : Char} {openToken closeToken : Token}
    (hbrackets : AreBrackets opening closing openToken closeToken)
    (h : ∀ place, IsIdle p.line place →
      (((b.push openToken).push closeToken).scanner ((p.next opening).next closing) rest [place]
        false).Runs ts)
    (hindent : b.indent < p.column) (hcolumn : p.column ≠ 0) :
    (b.scanner p (opening :: closing :: rest) [none] allowed).Runs ts := by
  obtain ⟨place, hidle, hfresh, hremember⟩ :=
    exists_rememberKey hindent (opening :: closing :: rest) allowed
  have hbreak := hbrackets.startsToken_opening.2.1
  have hopen : (b.scanner p (opening :: closing :: rest) [none] allowed).token opening
      (closing :: rest) =
        .ok ((b.push openToken).scanner (p.next opening) (closing :: rest) [none, place] true) := by
    rw [hbrackets.token_opening _ _ hcolumn, openFlow, hremember]
    exact congrArg Except.ok (congrArg (emit · openToken) advance_scanner)
  have hcolumn' : (p.next opening).column = p.column + 1 := by
    rw [Position.next_of_not_isBreak hbreak]
  have hclose : ((b.push openToken).scanner (p.next opening) (closing :: rest) [none, place]
      true).token closing rest =
        .ok (((b.push openToken).push closeToken).scanner ((p.next opening).next closing) rest
          [place] false) := by
    rw [hbrackets.token_closing, closeFlow]
    · exact congrArg Except.ok (congrArg (emit · closeToken) advance_scanner)
    · exact fun h => Nat.succ_ne_zero _ (hcolumn'.symm.trans h)
  have hfresh' : ∀ q ∈ [none, place], IsFresh (p.next opening) q := by
    simpa [IsFresh] using hfresh opening hbreak
  refine ((h place hidle).of_isReady ⟨atToken_cons hbrackets.startsToken_closing, ?_⟩ hfresh' hclose
    (Nat.le_refl _)).of_isReady ⟨atToken_cons hbrackets.startsToken_opening, Int.le_of_lt hindent⟩
    (isFresh_none p) hopen (Nat.le_refl _)
  have hindent' : b.indent ≤ ((p.column + 1 : Nat) : Int) := by omega
  rw [hcolumn']
  exact hindent'

/-! ## Plain scalars -/

/-- What a plain text begins with. -/
structure StartsPlainly (c : Char) (cs : List Char) : Prop where
  isBlank_eq : isBlank c = false
  not_special : "#,[]\x7b\x7d&*!|>'\"%@\x60".toList.contains c = false
  not_indicator : c = '-' ∨ c = '?' ∨ c = ':' → atGap cs = false
  not_marked : ['-', '-', '-'].isPrefixOf (c :: cs) = false ∧
    ['.', '.', '.'].isPrefixOf (c :: cs) = false

theorem startsPlainly_of_isPlain (h : isPlain (c :: cs) = true) : StartsPlainly c cs := by
  obtain ⟨hescapes, -, hspace, -, hbegins, hindicator⟩ := isPlain_iff.mp h
  rw [beginsLikeBlock, Bool.or_eq_false_iff, Bool.or_eq_false_iff, Bool.or_eq_false_iff] at hbegins
  obtain ⟨⟨⟨hspecial, hgap⟩, hstart⟩, hend⟩ := hbegins
  rw [hasBlockIndicator, Bool.or_eq_false_iff, Bool.or_eq_false_iff] at hindicator
  refine ⟨?_, hspecial, ?_, hstart, hend⟩
  · cases hblank : isBlank c with
    | false => rfl
    | true =>
      have hprintable := isPrintable_of_not_needsEscapes hescapes c List.mem_cons_self
      obtain rfl := eq_space_of_isBlank hprintable hblank
      cases hspace
  · rintro (rfl | rfl | rfl)
    · exact hgap
    · exact hgap
    · exact hindicator.1.1

theorem StartsPlainly.startsToken (h : StartsPlainly c cs) (hprintable : isPrintable c = true)
    (hbreak : isBreak c = false) : StartsToken c := by
  refine ⟨h.isBlank_eq, hbreak, ?_, ?_⟩
  · rintro rfl
    cases h.not_special
  · rintro rfl
    cases hprintable

theorem StartsPlainly.beq_eq_false (h : StartsPlainly c cs) {d : Char}
    (hd : "#,[]\x7b\x7d&*!|>'\"%@\x60".toList.contains d = true) : (c == d) = false := by
  refine beq_false_of_ne ?_
  rintro rfl
  exact Bool.false_ne_true (h.not_special.symm.trans hd)

section StartsPlainly

variable (h : StartsPlainly c cs) (hrest : atGap rest = true → atGap cs = true)
  (hflow : s.inFlow = false)

include h hrest

theorem StartsPlainly.atGap_eq (hc : c = '-' ∨ c = '?' ∨ c = ':') : atGap rest = false := by
  cases hgap : atGap rest with
  | false => rfl
  | true => exact (hrest hgap).symm.trans (h.not_indicator hc)

/-- What follows an indicator at the beginning keeps it from being one. -/
theorem StartsPlainly.not_isIndicator {d : Char} (hd : d = '-' ∨ d = '?' ∨ d = ':') :
    (c == d && atGap rest) = false := by
  by_cases hc : c = d
  · rw [h.atGap_eq hrest (hc ▸ hd), Bool.and_false]
  · rw [beq_false_of_ne hc, Bool.false_and]

include hflow

theorem StartsPlainly.startsPlain : s.startsPlain c rest = true := by
  have hspecial := h.not_special
  simp only [Scanner.startsPlain, h.isBlank_eq, hflow, Bool.not_false, Bool.true_and]
  by_cases hdash : c = '-'
  · have hgap := h.atGap_eq hrest (.inl hdash)
    cases rest with
    | nil => cases hgap
    | cons d rest =>
      obtain ⟨hblank, -⟩ := Bool.or_eq_false_iff.mp hgap
      simp [hdash, hblank]
  by_cases hother : c = '?' ∨ c = ':'
  · have hgap := h.atGap_eq hrest (.inr hother)
    rcases hother with rfl | rfl <;> simp [hgap]
  · simp only [not_or] at hother
    simp_all

/-- A text that begins plainly is taken for a plain scalar. -/
theorem StartsPlainly.token_eq (hmark : s.column = 0 → documentMark? s.rest = none) :
    s.token c rest = s.plain := by
  have hspecial := h.not_special
  have hdirective : (s.column == 0 && c == '%') = false := by
    rw [h.beq_eq_false rfl, Bool.and_false]
  have hnone : (if (s.column == 0) = true then documentMark? s.rest else none) = none := by
    split
    · next hcolumn => exact hmark (eq_of_beq hcolumn)
    · rfl
  have hdash := h.not_isIndicator hrest (d := '-') (.inl rfl)
  have hquestion := h.not_isIndicator hrest (d := '?') (.inr (.inl rfl))
  have hcolon := h.not_isIndicator hrest (d := ':') (.inr (.inr rfl))
  have hliteral := h.beq_eq_false (d := '|') rfl
  have hfolded := h.beq_eq_false (d := '>') rfl
  simp only [token, hdirective, hnone, Bool.false_eq_true, if_false]
  split
  -- the characters that begin other tokens are special ones
  iterate 10 cases hspecial
  simp only [hflow, Bool.false_or, hdash, hquestion, hcolon, hliteral, hfolded, Bool.false_and,
    h.startsPlain hrest hflow, Bool.false_eq_true, if_false, if_true]

end StartsPlainly

theorem atGap_of_atGap_append (h : atGap (cs ++ rest) = true) : atGap cs = true := by
  cases cs with
  | nil => rfl
  | cons c cs => exact h

/-- A plain text is taken as far as it is read, and a key may begin with it. -/
theorem token_plain {text taken more : List Char} {f : Folding} (hplain : isPlain (c :: cs) = true)
    (htaken : text = taken ++ rest)
    (hmark : p.column = 0 → documentMark? text = none)
    (hremember : (b.scanner p text [none] allowed).rememberKey =
      .ok (b.scanner p text [place] allowed))
    (hread : plainScalar false (b.indent + 1) { column := p.column } text = .ok (f, rest)) :
    (b.scanner p text [none] allowed).token c (cs ++ more) =
      .ok ((b.push (.scalar true f.result)).scanner (p.after taken) rest [place] f.broken) := by
  have hread' : plainScalar (b.scanner p text [place] allowed).inFlow
      ((b.scanner p text [place] allowed).indent + 1)
      { column := (b.scanner p text [place] allowed).column }
      (b.scanner p text [place] allowed).rest = .ok (f, rest) := hread
  have hmove : (b.scanner p text [place] f.broken).moveTo rest =
      b.scanner (p.after taken) rest [place] f.broken := by
    rw [htaken, moveTo_scanner]
  rw [(startsPlainly_of_isPlain hplain).token_eq atGap_of_atGap_append rfl hmark, plain, hremember]
  simp only [bind, Except.bind, hread']
  exact congrArg Except.ok (congrArg (emit · (.scalar true f.result)) hmove)

theorem isReady_plain (hplain : isPlain (c :: cs) = true) (hindent : b.indent ≤ p.column) :
    IsReady b p (c :: rest) := by
  have hline := isPlainLine_of_isPlain hplain
  exact ⟨atToken_cons ((startsPlainly_of_isPlain hplain).startsToken
    (hline.isPrintable c List.mem_cons_self) (hline.not_isBreak c List.mem_cons_self)), hindent⟩

theorem Runs.of_plainLine (h : Continues (b.push (.scalar true (String.ofList cs)))
      (indentation n ++ rest) ts)
    (hrest : AtToken n rest) (hn : n ≤ b.indent) (hindent : b.indent < p.column)
    (hplain : isPlain cs = true) (hne : cs ≠ []) :
    (b.scanner p (cs ++ '\n' :: (indentation n ++ rest)) [none] allowed).Runs ts := by
  obtain ⟨place, hidle, -, hremember⟩ :=
    exists_rememberKey hindent (cs ++ '\n' :: (indentation n ++ rest)) allowed
  have hcolumn : p.column ≠ 0 := by omega
  obtain ⟨f, hread, hresult, hbroken⟩ := exists_plainScalar_line (isPlainLine_of_isPlain hplain) hne
    (getLast?_of_isPlain hplain) (fun h => absurd h hcolumn) hrest
    (by omega : (n : Int) < b.indent + 1)
  have htaken : cs ++ '\n' :: (indentation n ++ rest) = (cs ++ '\n' :: indentation n) ++ rest := by
    rw [List.append_assoc, List.cons_append]
  have hnext := h.runs_of_break hrest (p := p.after cs) (e := '\n') rfl
    (hidle.mono (p.line_le_after cs))
  obtain ⟨c, cs, rfl⟩ := List.exists_cons_of_ne_nil hne
  refine Runs.of_isReady ?_ (isReady_plain hplain (Int.le_of_lt hindent)) (isFresh_none p)
    (token_plain hplain htaken (fun h => absurd h hcolumn) hremember hread) ?_
  · rw [hresult, hbroken, Position.after_append]
    exact hnext
  · change rest.length ≤ (cs ++ '\n' :: (indentation n ++ rest)).length
    simp only [List.length_append, List.length_cons]
    omega

/-! ## Names of fields -/

theorem isPrefixOf_mark_append {a d : Char} (hd : a ≠ d) (h : [a, a, a].isPrefixOf cs = false) :
    [a, a, a].isPrefixOf (cs ++ d :: rest) = false := by
  rcases cs with _ | ⟨x, _ | ⟨y, _ | ⟨z, cs⟩⟩⟩
  · simp [List.isPrefixOf, hd]
  · simp [List.isPrefixOf, hd]
  · simp [List.isPrefixOf, hd]
  · exact h

/-- A colon makes a key of the scalar that may begin one. -/
theorem token_colon {t : Token} {k : KeyPlace} {column : Nat} (hp : p.column ≠ 0)
    (hrest : atGap rest = true) (htokens : k.tokens = b.tokens.length) (hcolumn : k.column = column) :
    ((b.push t).scanner p (':' :: rest) [some k] allowed).token ':' rest =
      .ok (((((b.opened column .blockMappingStart).push .key).push t).push .value).scanner
        (p.next ':') rest [none] false) := by
  have htoken : ((b.push t).scanner p (':' :: rest) [some k] allowed).token ':' rest =
      ((b.push t).scanner p (':' :: rest) [some k] allowed).mappingValue := by
    simp [token, Blocks.scanner, hp, hrest]
  have hinsert : ((b.push t).scanner p (':' :: rest) [some k] allowed).insertAt k.tokens .key =
      ((b.push .key).push t).scanner p (':' :: rest) [some k] allowed := by
    rw [htokens]
    exact insertAt_scanner [t] .key
  have hopen : (((b.push .key).push t).scanner p (':' :: rest) [none] false).openBlock k.column
      k.tokens .blockMappingStart =
        (((b.opened column .blockMappingStart).push .key).push t).scanner p (':' :: rest) [none]
          false := by
    rw [htokens, hcolumn]
    exact openBlock_scanner [t, .key] column .blockMappingStart
  rw [htoken]
  change Except.ok (single (openBlock { insertAt _ k.tokens .key with
    keyPlaces := [none], keyAllowed := false } k.column k.tokens .blockMappingStart) .value) = _
  rw [hinsert]
  exact congrArg (fun s => Except.ok (single s .value)) hopen

/-- A plain text with a colon behind it is a key, and begins a mapping if it stands to the right of
the block around it. -/
theorem Runs.of_key
    (h : (((((b.opened p.column .blockMappingStart).push .key).push
      (.scalar true (String.ofList cs))).push .value).scanner ((p.after cs).next ':') rest [none]
        false).Runs ts)
    (hindent : b.indent ≤ p.column) (hrest : atGap rest = true) (hplain : isPlain cs = true)
    (hne : cs ≠ []) (hlength : cs.length ≤ keyLimit) :
    (b.scanner p (cs ++ ':' :: rest) [none] true).Runs ts := by
  have hafter := p.after_of_line (isPlainLine_of_isPlain hplain).not_isBreak
  obtain ⟨c, cs, rfl⟩ := List.exists_cons_of_ne_nil hne
  obtain ⟨hstart, hend⟩ := (startsPlainly_of_isPlain hplain).not_marked
  have hmark : documentMark? (c :: cs ++ ':' :: rest) = none :=
    documentMark?_eq_none (isPrefixOf_mark_append (by decide) hstart)
      (isPrefixOf_mark_append (by decide) hend)
  obtain ⟨f, hread, hresult, hbroken⟩ := exists_plainScalar_key (isPlainLine_of_isPlain hplain) hne
    (getLast?_of_isPlain hplain) (fun _ : p.column = 0 => hmark) hrest
  let k : KeyPlace :=
    { tokens := b.tokens.length, line := p.line, column := p.column, index := p.index
      required := b.indent == (p.column : Int) }
  have htoken : (b.scanner p (c :: cs ++ ':' :: rest) [none] true).token c (cs ++ ':' :: rest) =
      .ok ((b.push (.scalar true f.result)).scanner (p.after (c :: cs)) (':' :: rest) [some k]
        f.broken) :=
    token_plain hplain rfl (fun _ => hmark) rfl hread
  rw [hresult, hbroken] at htoken
  have hcolon : ((b.push (.scalar true (String.ofList (c :: cs)))).scanner (p.after (c :: cs))
      (':' :: rest) [some k] false).token ':' rest =
        .ok (((((b.opened p.column .blockMappingStart).push .key).push
          (.scalar true (String.ofList (c :: cs)))).push .value).scanner
            ((p.after (c :: cs)).next ':') rest [none] false) := by
    have hcolumn : (p.after (c :: cs)).column ≠ 0 := by
      rw [hafter, List.length_cons]
      exact Nat.succ_ne_zero _
    exact token_colon hcolumn hrest rfl rfl
  have hfresh : IsFresh (p.after (c :: cs)) (some k) := by
    rintro _ ⟨⟩
    rw [hafter]
    exact ⟨rfl, Nat.add_le_add_left hlength _⟩
  refine ((h.of_isReady ⟨atToken_cons (by decide), ?_⟩ (by simpa using hfresh) hcolon
    (Nat.le_refl _)).of_isReady (isReady_plain hplain hindent) (isFresh_none p) htoken ?_)
  · rw [hafter]
    exact Int.le_trans hindent (by simp only; omega)
  · change (':' :: rest).length ≤ (cs ++ ':' :: rest).length
    rw [List.length_append]
    exact Nat.le_add_left _ _

/-! ## Strings -/

theorem Runs.of_content {read : List Char → Except Problem (Token × List Char)} {t : Token}
    (taken : List Char)
    (h : ∀ q place, IsIdle q.line place → ((b.push t).scanner q rest [place] false).Runs ts)
    (htoken : (b.scanner p (c :: (taken ++ rest)) [none] allowed).token c (taken ++ rest) =
      (b.scanner p (c :: (taken ++ rest)) [none] allowed).content read)
    (hread : read (c :: (taken ++ rest)) = .ok (t, rest)) (hc : StartsToken c)
    (hindent : b.indent < p.column) :
    (b.scanner p (c :: (taken ++ rest)) [none] allowed).Runs ts := by
  obtain ⟨place, hidle, -, hremember⟩ :=
    exists_rememberKey hindent (c :: (taken ++ rest)) allowed
  have hread' : read (b.scanner p (c :: (taken ++ rest)) [place] allowed).rest = .ok (t, rest) :=
    hread
  have hmove : (b.scanner p (c :: taken ++ rest) [place] false).moveTo rest =
      b.scanner (p.after (c :: taken)) rest [place] false := moveTo_scanner (c :: taken)
  refine (h (p.after (c :: taken)) place (hidle.mono (p.line_le_after _))).of_isReady
    ⟨atToken_cons hc, Int.le_of_lt hindent⟩ (isFresh_none p) ?_ ?_
  · rw [htoken, content, hremember]
    simp only [bind, Except.bind, hread']
    exact congrArg (fun s => Except.ok (emit s t)) hmove
  · rw [List.length_append]
    exact Nat.le_add_left _ _

/-- A literal block, which goes on to the next token outside of it. -/
theorem Runs.of_literal {text : List Char} {t : String}
    (h : Continues (b.push (.scalar false t)) (indentation n ++ rest) ts) (hrest : AtToken n rest)
    (hread : blockScalar true b.indent (text ++ (indentation n ++ rest)) = .ok (t, rest))
    (hlast : text.getLast?.any isBreak = true) (hindent : b.indent ≤ p.column)
    (hcolumn : p.column ≠ 0) :
    (b.scanner p ('|' :: (text ++ (indentation n ++ rest))) [none] allowed).Runs ts := by
  obtain ⟨e, hlast, he⟩ := (Option.any_eq_true _ _).mp hlast
  obtain ⟨lines, rfl⟩ := List.getLast?_eq_some_iff.mp hlast
  have htoken : (b.scanner p ('|' :: (lines ++ [e] ++ (indentation n ++ rest))) [none]
      allowed).token '|' (lines ++ [e] ++ (indentation n ++ rest)) =
        (b.scanner p ('|' :: (lines ++ [e] ++ (indentation n ++ rest))) [none] allowed).block
          true := by
    simp [token, Blocks.scanner, hcolumn, inFlow]
  have hmove : (b.scanner p ('|' :: (lines ++ [e] ++ (indentation n ++ rest))) [none] true).moveTo
      rest = b.scanner ((p.after ('|' :: lines)).next e |>.after (indentation n)) rest [none]
        true := by
    have hsplit : '|' :: (lines ++ [e] ++ (indentation n ++ rest)) =
        ('|' :: lines ++ [e] ++ indentation n) ++ rest := by simp
    rw [hsplit, moveTo_scanner, Position.after_append, Position.after_append]
    rfl
  refine (h.runs_of_break hrest (p := p.after ('|' :: lines)) he (isIdle_none _)).of_isReady
    ⟨atToken_cons (by decide), hindent⟩ (isFresh_none p) ?_ ?_
  · refine htoken.trans ?_
    rw [block]
    refine (congrArg (· >>= fun found => Except.ok (emit (moveTo _ found.2) (.scalar false found.1)))
      hread).trans ?_
    exact congrArg (fun s => Except.ok (emit s (.scalar false t))) hmove
  · change rest.length ≤ (lines ++ [e] ++ (indentation n ++ rest)).length
    simp only [List.length_append]
    omega

def quotedScalar (read : List Char → Except Problem (String × List Char)) (cs : List Char) :
    Except Problem (Token × List Char) :=
  read (cs.drop 1) >>= fun found => .ok (.scalar false found.1, found.2)

theorem token_singleQuote (h : s.column ≠ 0) :
    s.token '\'' rest = s.content (quotedScalar (singleQuoted { column := s.column + 1 })) := by
  simp only [token, beq_false_of_ne h, Bool.false_and]
  rfl

theorem token_doubleQuote (h : s.column ≠ 0) :
    s.token '"' rest = s.content (quotedScalar (doubleQuoted { column := s.column + 1 })) := by
  simp only [token, beq_false_of_ne h, Bool.false_and]
  rfl

theorem onLine_column_succ (column : Nat) : Folding.OnLine { column := column + 1 } :=
  ⟨rfl, rfl, Nat.succ_pos column⟩

/-- A string is taken as it was written, with all that comes before the next line. -/
theorem Runs.of_stringLines {s : String} {indent : Nat}
    (h : Continues (b.push (stringToken s)) (indentation n ++ rest) ts) (hrest : AtToken n rest)
    (hn : n ≤ indent) (hb : b.indent = indent) (hindent : indent < p.column) :
    (b.scanner p ((stringLines (indent + 2) s).toList ++ (indentation n ++ rest)) [none]
      allowed).Runs ts := by
  have hcolumn : p.column ≠ 0 := by omega
  have hindent' : b.indent < p.column := by omega
  have hnext : ∀ q place, IsIdle q.line place →
      ((b.push (stringToken s)).scanner q ('\n' :: (indentation n ++ rest)) [place] false).Runs ts :=
    fun q place hidle => h.runs_of_newline hrest hidle
  cases hstyle : ofString s with
  | plain =>
    obtain ⟨hplain, hambiguous⟩ := ofString_eq_plain hstyle
    have htext : (stringLines (indent + 2) s).toList ++ (indentation n ++ rest) =
        s.toList ++ '\n' :: (indentation n ++ rest) := by
      simp [stringLines, inlineText, hstyle]
    have htoken : stringToken s = .scalar true (String.ofList s.toList) := by
      rw [stringToken, hstyle, String.ofList_toList]
      rfl
    rw [htext]
    exact Runs.of_plainLine (htoken ▸ h) hrest (by omega) hindent' hplain
      (toList_ne_nil_of_not_isAmbiguous hambiguous)
  | singleQuoted =>
    obtain ⟨hfeed, hescapes, hpair⟩ := ofString_eq_singleQuoted hstyle
    have htext : (stringLines (indent + 2) s).toList ++ (indentation n ++ rest) =
        '\'' :: (singleQuotedText (indent + 2) false s.toList ++ ['\''] ++
          '\n' :: (indentation n ++ rest)) := by
      simp [stringLines, inlineText, hstyle]
    have hread : singleQuoted { column := p.column + 1 } (singleQuotedText (indent + 2) false
        s.toList ++ '\'' :: '\n' :: (indentation n ++ rest)) =
          .ok (String.ofList s.toList, '\n' :: (indentation n ++ rest)) := by
      refine singleQuoted_text (f := { column := p.column + 1 }) (Nat.succ_pos _) (fun c hc => ?_) ?_
        hpair (.inl ⟨onLine_column_succ _, fun _ => rfl⟩) (by simp)
      · exact ⟨isPrintable_of_not_needsEscapes hescapes c hc, fun heq => hfeed (heq ▸ hc)⟩
      · exact (Bool.or_eq_false_iff.mp hescapes).2
    rw [htext]
    refine Runs.of_content _ hnext (token_singleQuote hcolumn) ?_ (by decide) hindent'
    rw [List.append_assoc]
    refine (congrArg (· >>= _) hread).trans ?_
    rw [stringToken, hstyle, String.ofList_toList]
    rfl
  | doubleQuoted =>
    have htext : (stringLines (indent + 2) s).toList ++ (indentation n ++ rest) =
        '"' :: (s.toList.flatMap escaped ++ ['"'] ++ '\n' :: (indentation n ++ rest)) := by
      simp [stringLines, inlineText, hstyle]
    have hread := doubleQuoted_text (onLine_column_succ p.column) s.toList
      ('\n' :: (indentation n ++ rest))
    rw [htext]
    refine Runs.of_content _ hnext (token_doubleQuote hcolumn) ?_ (by decide) hindent'
    rw [List.append_assoc]
    refine (congrArg (· >>= _) hread).trans ?_
    rw [stringToken, hstyle]
    simp [Folding.content, Folding.gap]
    rfl
  | literal =>
    obtain ⟨hfeed, hescapes⟩ := ofString_eq_literal hstyle
    obtain ⟨text, hblock, hlast, hread⟩ := blockScalar_literalBlock (List.ne_nil_of_mem hfeed)
      (isPrintable_of_not_needsEscapes hescapes) hrest (by omega : n < indent + 2)
    have htext : (stringLines (indent + 2) s).toList = '|' :: text := by
      rw [stringLines, hstyle]
      exact hblock
    have htoken : stringToken s = .scalar false (String.ofList s.toList) := by
      rw [stringToken, hstyle, String.ofList_toList]
      rfl
    rw [htext]
    exact Runs.of_literal (htoken ▸ h) hrest (hb ▸ hread) hlast (Int.le_of_lt hindent') hcolumn

end CodeIndex.Yaml.Scanner
