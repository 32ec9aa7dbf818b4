import CodeIndex.Yaml.Printer

/-! # Scalars that are folded

Text in quotes and plain text is read character by character, and what stands between two lines of
it is folded. The printer lets no blank come next to the end of a line and never ends a line of such
a text with a line feed, so that nothing is lost.
-/

namespace CodeIndex.Yaml

open Style

/-! ## Characters -/

theorem eq_space_of_isBlank {c : Char} (h : isPrintable c = true) (hb : isBlank c = true) :
    c = ' ' := by
  rcases Bool.or_eq_true_iff.mp hb with hc | hc
  · exact eq_of_beq hc
  · obtain rfl := eq_of_beq hc
    cases h

theorem isBlank_of_isBreak {c : Char} (h : isBreak c = true) : isBlank c = false := by
  rw [isBreak, Bool.or_eq_true_iff, Bool.or_eq_true_iff] at h
  rcases h with (h | h) | h <;> obtain rfl := eq_of_beq h <;> rfl

theorem hasPair_tail {p q : Char → Bool} {c : Char} {cs : List Char}
    (h : hasPair p q (c :: cs) = false) : hasPair p q cs = false := by
  cases cs with
  | nil => rfl
  | cons d cs => exact (Bool.or_eq_false_iff.mp h).2

theorem hasPair_head {p q : Char → Bool} {c : Char} {cs : List Char}
    (h : hasPair p q (c :: cs) = false) (hc : p c = true) : cs.head?.any q = false := by
  cases cs with
  | nil => rfl
  | cons d cs =>
    have hpair := (Bool.or_eq_false_iff.mp h).1
    rwa [hc, Bool.true_and] at hpair

/-! ## Styles -/

theorem Style.ofString_eq_plain {s : String} (h : ofString s = .plain) :
    isPlain s.toList = true ∧ isAmbiguous s = false := by
  simp only [ofString] at h
  grind

theorem Style.ofString_eq_singleQuoted {s : String} (h : ofString s = .singleQuoted) :
    '\n' ∉ s.toList ∧ needsEscapes s.toList = false ∧ hasPair isBreak isSpace s.toList = false := by
  simp only [ofString] at h
  grind

theorem Style.ofString_eq_literal {s : String} (h : ofString s = .literal) :
    '\n' ∈ s.toList ∧ needsEscapes s.toList = false := by
  simp only [ofString] at h
  grind

theorem Style.toList_ne_nil_of_not_isAmbiguous {s : String} (h : isAmbiguous s = false) :
    s.toList ≠ [] := by
  intro hnil
  obtain rfl : s = "" := String.toList_eq_nil_iff.mp hnil
  cases h

def stringToken (s : String) : Token :=
  .scalar (ofString s == .plain) s

/-! ## What has been read -/

namespace Folding

variable {f f' : Folding} {c : Char}

def content (f : Folding) : List Char :=
  f.gap ++ f.text

theorem result_join (f : Folding) : f.join.result = String.ofList f.content.reverse := rfl

theorem content_of_not_broken (h : f.broken = false) : f.content = f.blanks ++ f.text := by
  rw [content, gap, h]
  rfl

/-- Whether the line of the text goes on. -/
structure OnLine (f : Folding) : Prop where
  broken_eq : f.broken = false
  moreBreaks_eq : f.moreBreaks = []
  column_pos : 0 < f.column

/-- Whether `f'` has one more character of the same line than `f`. -/
structure Reads (f : Folding) (c : Char) (f' : Folding) : Prop where
  content_eq : f'.content = c :: f.content
  onLine : f'.OnLine
  blanks_eq : isBlank c = false → f'.blanks = []

theorem reads_push (f : Folding) (c : Char) {width : Nat} (h : 0 < width) :
    f.Reads c (f.join.push [c] width) :=
  ⟨rfl, ⟨rfl, rfl, Nat.add_pos_right _ h⟩, fun _ => rfl⟩

theorem reads_blank (hbroken : f.broken = false) (hmore : f.moreBreaks = [])
    (hc : isBlank c = true) : f.Reads c (f.blank c) := by
  have hbroken' : (f.blank c).broken = false := hbroken
  refine ⟨?_, ⟨hbroken', hmore, Nat.succ_pos _⟩, fun h => absurd hc (by simp [h])⟩
  rw [content_of_not_broken hbroken', content_of_not_broken hbroken, blank, hbroken]
  rfl

theorem blank_of_broken (hf : f.broken = true) : f.blank c = { f with column := f.column + 1 } := by
  rw [blank, hf]
  rfl

/-- Whether a line has ended that has to be kept as it ended. -/
structure Broken (f : Folding) : Prop where
  broken_eq : f.broken = true
  firstBreak_ne : f.firstBreak ≠ some '\n'

theorem content_of_broken (h : f.Broken) :
    f.content = f.moreBreaks ++ f.firstBreak.toList ++ f.text := by
  have hgap : f.gap = f.moreBreaks ++ f.firstBreak.toList := by
    rw [gap, h.broken_eq, if_pos rfl]
    split
    · next hfirst _ => exact absurd hfirst h.firstBreak_ne
    · next hfirst _ => exact absurd hfirst h.firstBreak_ne
    · rfl
  rw [content, hgap]

/-- The end of a line is kept unless it is a line feed or a blank comes before it. -/
theorem broken_lineBreak (hf : f.OnLine) (hblanks : f.blanks = []) (hc : c ≠ '\n') :
    (f.lineBreak c).Broken ∧ (f.lineBreak c).content = c :: f.content := by
  have hline : f.lineBreak c =
      { f with blanks := [], broken := true, firstBreak := some c, column := 0 } := by
    rw [lineBreak, hf.broken_eq]
    rfl
  have hbroken : (f.lineBreak c).Broken := by
    rw [hline]
    exact ⟨rfl, fun h => hc (Option.some.inj h)⟩
  refine ⟨hbroken, ?_⟩
  rw [content_of_broken hbroken, content_of_not_broken hf.broken_eq, hline, hf.moreBreaks_eq,
    hblanks]
  rfl

theorem broken_lineBreak_of_broken (hf : f.Broken) :
    (f.lineBreak c).Broken ∧ (f.lineBreak c).content = c :: f.content := by
  have hline : f.lineBreak c = { f with moreBreaks := c :: f.moreBreaks, column := 0 } := by
    rw [lineBreak, hf.broken_eq]
    rfl
  have hbroken : (f.lineBreak c).Broken := by
    rw [hline]
    exact ⟨hf.broken_eq, hf.firstBreak_ne⟩
  refine ⟨hbroken, ?_⟩
  rw [content_of_broken hbroken, content_of_broken hf, hline]
  rfl

end Folding

/-! ## Single quotes -/

section SingleQuoted

variable {f : Folding} {c : Char} {cs rest : List Char}

theorem singleQuoted_lineBreak (hc : isBreak c = true) :
    singleQuoted f (c :: rest) = singleQuoted (f.lineBreak c) rest := by
  have hquote : c ≠ '\'' := by
    rintro rfl
    cases hc
  rw [singleQuoted.eq_4 _ _ _ (fun _ h _ => hquote h) hquote, if_pos hc]

/-- A character inside a line is read as it was written. -/
theorem exists_reads_singleQuoted (hf : 0 < f.column) (hblank : isBlank c = true → f.OnLine)
    (hc : isBreak c = false) :
    ∃ f', f.Reads c f' ∧ ∀ rest,
      singleQuoted f ((if c == '\'' then ['\'', '\''] else [c]) ++ rest) = singleQuoted f' rest := by
  by_cases hquote : c = '\''
  · subst hquote
    exact ⟨_, f.reads_push _ (by decide), fun rest => singleQuoted.eq_2 f rest⟩
  · rw [if_neg (by simpa using hquote)]
    have hstep : ∀ rest, singleQuoted f (c :: rest) =
        if isBlank c = true then singleQuoted (f.blank c) rest
        else singleQuoted (f.join.push [c] 1) rest := by
      intro rest
      have hcolumn : (f.column == 0) = false := beq_false_of_ne (by omega)
      rw [singleQuoted.eq_4 _ _ _ (fun _ h _ => hquote h) hquote, hc, hcolumn, Bool.false_and,
        if_neg Bool.false_ne_true, if_neg Bool.false_ne_true]
    by_cases hb : isBlank c = true
    · have hline := hblank hb
      refine ⟨_, Folding.reads_blank hline.broken_eq hline.moreBreaks_eq hb, fun rest => ?_⟩
      rw [List.singleton_append, hstep, if_pos hb]
    · refine ⟨_, f.reads_push c Nat.one_pos, fun rest => ?_⟩
      rw [List.singleton_append, hstep, if_neg hb]

theorem singleQuoted_indentation (hf : f.broken = true) (n : Nat) :
    singleQuoted f (indentation n ++ rest) =
      singleQuoted { f with column := f.column + n } rest := by
  induction n generalizing f with
  | zero => rfl
  | succ n ih =>
    have hstep : singleQuoted f (' ' :: (indentation n ++ rest)) =
        singleQuoted (f.blank ' ') (indentation n ++ rest) := by
      rw [singleQuoted.eq_4 _ _ _ (fun _ h => absurd h (by decide)) (by decide)]
      rfl
    rw [indentation, List.replicate_succ, List.cons_append]
    refine hstep.trans ?_
    rw [Folding.blank_of_broken hf, ih (by exact hf), Nat.add_assoc, Nat.add_comm 1 n]

/-- Whether the text that comes next goes on with what has been read so that nothing is lost. -/
def Folding.Precedes (f : Folding) (cs : List Char) : Prop :=
  (f.OnLine ∧ (cs.head?.any isBreak = true → f.blanks = [])) ∨
    (f.Broken ∧ cs.head?.any isSpace = false)

theorem singleQuoted_text {indent : Nat} (hindent : 0 < indent)
    (hcs : ∀ c ∈ cs, isPrintable c = true ∧ c ≠ '\n') (hgap : hasPair isSpace isBreak cs = false)
    (hgap' : hasPair isBreak isSpace cs = false) (hf : f.Precedes cs)
    (hrest : rest.head? ≠ some '\'') :
    singleQuoted f (singleQuotedText indent f.broken cs ++ '\'' :: rest) =
      .ok (String.ofList (f.content.reverse ++ cs), rest) := by
  have hclose : ∀ f : Folding, singleQuoted f ('\'' :: rest) = .ok (f.join.result, rest) := by
    intro f
    rw [singleQuoted.eq_3 f rest fun rest' h => hrest (by rw [h, List.head?_cons])]
  induction cs generalizing f with
  | nil =>
    rw [List.append_nil, ← Folding.result_join, singleQuotedText]
    cases hbroken : f.broken with
    | false => exact hclose f
    | true => exact (singleQuoted_indentation hbroken indent).trans (hclose _)
  | cons c cs ih =>
    obtain ⟨hc, hcs⟩ := List.forall_mem_cons.mp hcs
    have ih := fun f hf => @ih f hcs (hasPair_tail hgap) (hasPair_tail hgap') hf
    rw [show f.content.reverse ++ c :: cs = (c :: f.content).reverse ++ cs by simp]
    by_cases hbreak : isBreak c = true
    · have hnext : (f.lineBreak c).Broken ∧ (f.lineBreak c).content = c :: f.content := by
        rcases hf with ⟨hline, hblanks⟩ | ⟨hbroken, -⟩
        · exact Folding.broken_lineBreak hline (hblanks hbreak) hc.2
        · exact Folding.broken_lineBreak_of_broken hbroken
      have hprecedes : (f.lineBreak c).Precedes cs := .inr ⟨hnext.1, hasPair_head hgap' hbreak⟩
      rw [singleQuotedText, if_pos hbreak, List.cons_append, singleQuoted_lineBreak hbreak,
        ← hnext.2, ← ih _ hprecedes, hnext.1.broken_eq]
    · have hstart : ∃ f₀ : Folding, 0 < f₀.column ∧ (isBlank c = true → f₀.OnLine) ∧
          f₀.content = f.content ∧ ∀ rest, singleQuoted f
            ((if f.broken then indentation indent else []) ++ rest) = singleQuoted f₀ rest := by
        rcases hf with ⟨hline, -⟩ | ⟨hbroken, hspace⟩
        · refine ⟨f, hline.column_pos, fun _ => hline, rfl, fun rest => ?_⟩
          rw [hline.broken_eq]
          rfl
        · refine ⟨{ f with column := f.column + indent }, Nat.add_pos_right _ hindent, ?_, rfl,
            fun rest => ?_⟩
          · intro hblank
            rw [eq_space_of_isBlank hc.1 hblank] at hspace
            cases hspace
          · rw [if_pos hbroken.broken_eq]
            exact singleQuoted_indentation hbroken.broken_eq indent
      obtain ⟨f₀, hcolumn, hblank, hcontent, hindented⟩ := hstart
      obtain ⟨f', hread, hstep⟩ :=
        exists_reads_singleQuoted hcolumn hblank (Bool.not_eq_true _ ▸ hbreak)
      have hprecedes : f'.Precedes cs := by
        refine .inl ⟨hread.onLine, fun hhead => hread.blanks_eq ?_⟩
        cases hb : isBlank c with
        | false => rfl
        | true =>
          obtain rfl := eq_space_of_isBlank hc.1 hb
          rw [hasPair_head hgap rfl] at hhead
          cases hhead
      rw [singleQuotedText, if_neg hbreak, List.append_assoc, List.append_assoc, hindented, hstep,
        ← hcontent, ← hread.content_eq, ← ih f' hprecedes, hread.onLine.broken_eq]

end SingleQuoted

/-! ## Plain scalars -/

section Plain

variable {f : Folding} {cs rest : List Char} {indent : Int}

/-- Whether a text can be read as one line of a plain scalar, behind a gap or not. -/
structure IsPlainLine (gapBefore : Bool) (cs : List Char) : Prop where
  isPrintable : ∀ c ∈ cs, isPrintable c = true
  not_isBreak : ∀ c ∈ cs, isBreak c = false
  not_hasBlockIndicator : hasBlockIndicator gapBefore cs = false

theorem isPlain_iff : isPlain cs = true ↔ needsEscapes cs = false ∧ (∀ c ∈ cs, isBreak c = false) ∧
    cs.head?.any isSpace = false ∧ cs.getLast?.any isSpace = false ∧ beginsLikeBlock cs = false ∧
    hasBlockIndicator true cs = false := by
  simp [isPlain, and_assoc]

theorem isPrintable_of_not_needsEscapes (h : needsEscapes cs = false) :
    ∀ c ∈ cs, Style.isPrintable c = true := by
  rw [needsEscapes, Bool.or_eq_false_iff, Bool.not_eq_false'] at h
  exact List.all_eq_true.mp h.1

theorem isPlainLine_of_isPlain (h : isPlain cs = true) : IsPlainLine true cs := by
  obtain ⟨hescapes, hbreak, -, -, -, hindicator⟩ := isPlain_iff.mp h
  exact ⟨isPrintable_of_not_needsEscapes hescapes, hbreak, hindicator⟩

theorem getLast?_of_isPlain (h : isPlain cs = true) : cs.getLast?.any isBlank = false := by
  obtain ⟨hescapes, -, -, hlast, -⟩ := isPlain_iff.mp h
  cases hc : cs.getLast? with
  | none => rfl
  | some c =>
    rw [hc] at hlast
    cases hblank : isBlank c with
    | false => exact hblank
    | true =>
      have hprintable := isPrintable_of_not_needsEscapes hescapes c (List.mem_of_getLast? hc)
      obtain rfl := eq_space_of_isBlank hprintable hblank
      cases hlast

theorem isPlainLine_tail {gapBefore : Bool} {c : Char} (h : IsPlainLine gapBefore (c :: cs)) :
    IsPlainLine (isBlank c) cs := by
  have hbreak := h.not_isBreak c List.mem_cons_self
  have hrest := h.not_hasBlockIndicator
  rw [hasBlockIndicator, Bool.or_eq_false_iff, hbreak, Bool.or_false] at hrest
  exact ⟨fun d hd => h.isPrintable d (List.mem_cons_of_mem c hd),
    fun d hd => h.not_isBreak d (List.mem_cons_of_mem c hd), hrest.2⟩

/-- A character of a plain scalar is read as it was written. -/
theorem exists_reads_plainScalar {gapBefore : Bool} {c : Char}
    (hplain : IsPlainLine gapBefore (c :: cs)) (hbroken : f.broken = false)
    (hmore : f.moreBreaks = []) (hblanks : f.blanks ≠ [] → gapBefore = true)
    (hmark : f.column = 0 → documentMark? (c :: (cs ++ rest)) = none) :
    ∃ f', f.Reads c f' ∧
      plainScalar false indent f (c :: (cs ++ rest)) = plainScalar false indent f' (cs ++ rest) := by
  have hbreak := hplain.not_isBreak c List.mem_cons_self
  have hindicator := hplain.not_hasBlockIndicator
  rw [hasBlockIndicator, Bool.or_eq_false_iff, Bool.or_eq_false_iff] at hindicator
  obtain ⟨⟨hcolon, hcomment⟩, -⟩ := hindicator
  cases hblank : isBlank c with
  | true =>
    refine ⟨f.blank c, Folding.reads_blank hbroken hmore hblank, ?_⟩
    rw [plainScalar, hbreak, hblank, hbroken]
    rfl
  | false =>
    refine ⟨f.join.push [c] 1, f.reads_push c Nat.one_pos, ?_⟩
    have hmark : (f.column == 0 && (documentMark? (c :: (cs ++ rest))).isSome) = false := by
      by_cases hcolumn : f.column = 0
      · rw [hmark hcolumn, Option.isSome_none, Bool.and_false]
      · rw [beq_false_of_ne hcolumn, Bool.false_and]
    have hcomment : (c == '#' && (f.broken || !f.blanks.isEmpty)) = false := by
      rw [hbroken, Bool.false_or]
      cases hempty : f.blanks with
      | nil => simp
      | cons b bs =>
        rw [hblanks (by simp [hempty]), Bool.and_true] at hcomment
        rw [hcomment, Bool.false_and]
    have hends : endsPlain false c (cs ++ rest) = false := by
      rw [endsPlain, Bool.false_and, Bool.or_false]
      cases cs with
      | nil =>
        rw [atGap, Bool.and_true] at hcolon
        rw [hcolon, Bool.false_and]
      | cons d cs => exact hcolon
    rw [plainScalar, hbreak, hblank, hmark, hcomment, hends, hbroken]
    rfl

/-- A line of a plain scalar is read as it was written, and no blanks are left if it does not end
with any. -/
theorem exists_plainScalar_text (indent : Int) (f : Folding) {gapBefore : Bool}
    (hplain : IsPlainLine gapBefore cs)
    (hbroken : f.broken = false) (hmore : f.moreBreaks = [])
    (hblanks : f.blanks ≠ [] → gapBefore = true)
    (hmark : f.column = 0 → documentMark? (cs ++ rest) = none) (hne : cs ≠ [])
    (hlast : cs.getLast?.any isBlank = false) :
    ∃ f' : Folding, plainScalar false indent f (cs ++ rest) = plainScalar false indent f' rest ∧
      f'.OnLine ∧ f'.blanks = [] ∧ f'.text = cs.reverse ++ f.content := by
  induction cs generalizing f gapBefore with
  | nil => exact absurd rfl hne
  | cons c cs ih =>
    obtain ⟨f', hread, hstep⟩ := exists_reads_plainScalar hplain hbroken hmore hblanks hmark
    rw [List.cons_append, hstep]
    cases hcs : cs with
    | nil =>
      have hblank : isBlank c = false := by simpa [hcs] using hlast
      have hempty := hread.blanks_eq hblank
      refine ⟨f', rfl, hread.onLine, hempty, ?_⟩
      have hcontent := hread.content_eq
      rw [Folding.content_of_not_broken hread.onLine.broken_eq, hempty, List.nil_append] at hcontent
      rw [hcontent]
      rfl
    | cons d ds =>
      have hnext : f'.blanks ≠ [] → isBlank c = true := fun h => by
        cases hb : isBlank c with
        | true => rfl
        | false => exact absurd (hread.blanks_eq hb) h
      obtain ⟨f'', hrest, honLine, hempty, htext⟩ := ih f' (isPlainLine_tail hplain)
        hread.onLine.broken_eq hread.onLine.moreBreaks_eq hnext
        (fun h => absurd h (Nat.ne_of_gt hread.onLine.column_pos)) (by simp [hcs])
        (by simpa [hcs] using hlast)
      refine ⟨f'', hcs ▸ hrest, honLine, hempty, ?_⟩
      rw [htext, hread.content_eq, ← hcs]
      simp

/-- Whether a character belongs to a token wherever it stands in front. -/
def StartsToken (c : Char) : Prop :=
  isBlank c = false ∧ isBreak c = false ∧ c ≠ '#' ∧ c ≠ orderMark

instance (c : Char) : Decidable (StartsToken c) := inferInstanceAs (Decidable (_ ∧ _))

/-- Whether what is left of a text is at the beginning of a token in a given column, or at the end
in the first one. -/
structure AtToken (column : Nat) (rest : List Char) : Prop where
  column_eq : rest = [] → column = 0
  starts : ∀ c ∈ rest.head?, StartsToken c

theorem atToken_nil : AtToken 0 [] := ⟨fun _ => rfl, by simp⟩

theorem atToken_cons {column : Nat} {c : Char} (h : StartsToken c) : AtToken column (c :: rest) :=
  ⟨nofun, by simpa using h⟩

/-- A plain scalar ends before a line that is not indented. -/
theorem plainScalar_indentation {n : Nat} (hrest : AtToken n rest) (hf : f.broken = true)
    (hn : f.column + n < indent) :
    plainScalar false indent f (indentation n ++ rest) =
      .ok ({ f with column := f.column + n }, rest) := by
  induction n generalizing f with
  | zero =>
    cases rest with
    | nil => rfl
    | cons c rest =>
      obtain ⟨hblank, hbreak, -⟩ := hrest.starts c rfl
      have hends : (!false && f.broken && decide ((f.column : Int) < indent)) = true := by
        simpa [hf] using hn
      rw [indentation, List.replicate_zero, List.nil_append, plainScalar, hbreak, hblank, hends,
        Bool.or_true]
      rfl
  | succ n ih =>
    have hrest' : AtToken n rest :=
      ⟨fun h => absurd (hrest.column_eq h) (Nat.succ_ne_zero n), hrest.starts⟩
    have hstep : plainScalar false indent f (' ' :: (indentation n ++ rest)) =
        plainScalar false indent (f.blank ' ') (indentation n ++ rest) := by
      have htab : (f.broken && decide ((f.column : Int) < indent) && ' ' == '\t') = false := by simp
      rw [plainScalar, htab]
      rfl
    rw [indentation, List.replicate_succ, List.cons_append]
    refine hstep.trans ?_
    rw [Folding.blank_of_broken hf, ih hrest' (by exact hf) (by simp only; omega), Nat.add_assoc,
      Nat.add_comm 1 n]

/-- A plain scalar at the end of a line is read as it was written, with all that comes before the
next token. -/
theorem exists_plainScalar_line {column n : Nat} (hplain : IsPlainLine true cs) (hne : cs ≠ [])
    (hlast : cs.getLast?.any isBlank = false)
    (hmark : column = 0 → documentMark? (cs ++ '\n' :: (indentation n ++ rest)) = none)
    (hrest : AtToken n rest) (hn : n < indent) :
    ∃ f : Folding, plainScalar false indent { column } (cs ++ '\n' :: (indentation n ++ rest)) =
      .ok (f, rest) ∧ f.result = String.ofList cs ∧ f.broken = true := by
  obtain ⟨f, hread, hline, -, htext⟩ :=
    exists_plainScalar_text indent { column } hplain rfl rfl (by simp) hmark hne hlast
  have hbroken : (f.lineBreak '\n').broken = true ∧ (f.lineBreak '\n').column = 0 ∧
      (f.lineBreak '\n').text = f.text := by
    rw [Folding.lineBreak, hline.broken_eq]
    exact ⟨rfl, rfl, rfl⟩
  obtain ⟨hbroken, hcolumn, htext'⟩ := hbroken
  refine ⟨{ f.lineBreak '\n' with column := (f.lineBreak '\n').column + n }, ?_, ?_, hbroken⟩
  · rw [hread, plainScalar]
    exact plainScalar_indentation hrest hbroken (by omega)
  · rw [Folding.result, htext', htext]
    simp [Folding.content, Folding.gap]

/-- A plain scalar before a colon is read as it was written. -/
theorem exists_plainScalar_key {column : Nat} (hplain : IsPlainLine true cs) (hne : cs ≠ [])
    (hlast : cs.getLast?.any isBlank = false)
    (hmark : column = 0 → documentMark? (cs ++ ':' :: rest) = none) (hrest : atGap rest = true) :
    ∃ f : Folding, plainScalar false indent { column } (cs ++ ':' :: rest) =
      .ok (f, ':' :: rest) ∧ f.result = String.ofList cs ∧ f.broken = false := by
  obtain ⟨f, hread, hline, hblanks, htext⟩ :=
    exists_plainScalar_text indent { column } hplain rfl rfl (by simp) hmark hne hlast
  refine ⟨f, ?_, ?_, hline.broken_eq⟩
  · have hcolumn : (f.column == 0) = false := beq_false_of_ne (Nat.ne_of_gt hline.column_pos)
    have hends : endsPlain false ':' rest = true := by
      rw [endsPlain, hrest]
      rfl
    rw [hread, plainScalar, hcolumn, hline.broken_eq, hends]
    rfl
  · rw [Folding.result, htext]
    simp [Folding.content, Folding.gap]

end Plain

end CodeIndex.Yaml
