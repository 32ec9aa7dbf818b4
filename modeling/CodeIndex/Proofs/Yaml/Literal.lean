import CodeIndex.Proofs.Yaml.Folded

/-! # Literal blocks

A text of several lines is written as a block that is indented as a whole. Where the first line does
not show the indentation it is given in the header of the block, and the header also tells what
becomes of the ends of lines behind the text, so that the text is read as it was written.
-/

namespace CodeIndex.Yaml

open Style

namespace BlockText

variable {b : BlockText} {c : Char} {cs rest : List Char}

/-! ## Lines -/

def content (b : BlockText) : List Char :=
  b.blankBreaks ++ b.lastBreak.toList ++ b.text

structure InLine (b : BlockText) : Prop where
  lastBreak_eq : b.lastBreak = none
  blankBreaks_eq : b.blankBreaks = []

theorem InLine.content_eq (h : b.InLine) : b.content = b.text := by
  rw [content, h.lastBreak_eq, h.blankBreaks_eq]
  rfl

theorem ne_of_isBreak (h : isBreak c = true) : (c == ' ') = false ∧ (c == '\t') = false := by
  have hblank := isBlank_of_isBreak h
  rwa [isBlank, Bool.or_eq_false_iff] at hblank

theorem read_indentation {k n : Nat} (h : k + n ≤ b.indent) :
    b.read (some k) (indentation n ++ rest) = b.read (some (k + n)) rest := by
  induction n generalizing k with
  | zero => rfl
  | succ n ih =>
    have hlt : decide (k < b.indent) = true := decide_eq_true (by omega)
    have hstep : b.read (some k) (' ' :: (indentation n ++ rest)) =
        b.read (some (k + 1)) (indentation n ++ rest) := by
      rw [read, hlt]
      rfl
    rw [indentation, List.replicate_succ, List.cons_append]
    refine hstep.trans ?_
    rw [ih (by omega), Nat.add_assoc, Nat.add_comm 1 n]

/-- A line of text begins at the indentation of the block. -/
theorem read_first (hc : isBreak c = false) :
    b.read (some b.indent) (c :: rest) = (b.beginLine c).read none rest := by
  have hlt : decide (b.indent < b.indent) = false := decide_eq_false (Nat.lt_irrefl _)
  rw [read, hlt, hc, Bool.and_false, Bool.and_false, if_neg Bool.false_ne_true,
    if_neg Bool.false_ne_true, if_neg Bool.false_ne_true, if_neg (Nat.lt_irrefl _)]

theorem beginLine_literal (hb : b.literal = true) :
    b.beginLine c =
      { b with text := c :: b.content, lastBreak := none, lastBlank := isBlank c
               blankBreaks := [] } := by
  rw [beginLine, hb, content]
  rfl

theorem read_end {n : Nat} (hrest : AtToken n rest) (hn : n < b.indent) :
    b.read (some 0) (indentation n ++ rest) = .ok (b, rest) := by
  rw [read_indentation (by omega), Nat.zero_add]
  cases rest with
  | nil => rfl
  | cons c rest =>
    obtain ⟨hblank, hbreak, -⟩ := hrest.starts c rfl
    rw [isBlank, Bool.or_eq_false_iff] at hblank
    rw [read, hblank.1, hblank.2, hbreak, Bool.false_and, if_neg Bool.false_ne_true,
      if_neg Bool.false_ne_true, if_neg Bool.false_ne_true, if_pos hn]

/-- The columns that are known to come before the text of a line, where it begins. -/
def startColumn (lineStart : Bool) : Option Nat :=
  if lineStart then some 0 else none

def endsLine (lineStart : Bool) (cs : List Char) : Bool :=
  (cs.getLast?.map isBreak).getD lineStart

theorem endsLine_cons (lineStart : Bool) (c : Char) (cs : List Char) :
    endsLine lineStart (c :: cs) = endsLine (isBreak c) cs := by
  rw [endsLine, endsLine, List.getLast?_cons]
  cases cs.getLast? <;> rfl

/-! What one character of a literal block adds, by where it stands. -/

section Characters

variable {lineStart : Bool}

/-- Whether `b'` has one more character than `b`, read where a line begins or not. -/
structure Adds (b : BlockText) (lineStart : Bool) (c : Char) (cs : List Char) (b' : BlockText) :
    Prop where
  indent_eq : b'.indent = b.indent
  literal_eq : b'.literal = true
  inLine : isBreak c = false → b'.InLine
  content_eq : b'.content = c :: b.content
  read_eq : ∀ rest,
    b.read (startColumn lineStart) (literalText b.indent lineStart (c :: cs) ++ rest) =
      b'.read (startColumn (isBreak c)) (literalText b.indent (isBreak c) cs ++ rest)

theorem adds_blankLine (hb : b.literal = true) (hc : isBreak c = true) :
    b.Adds true c cs { b with blankBreaks := c :: b.blankBreaks } := by
  refine ⟨rfl, hb, by simp [hc], rfl, fun rest => ?_⟩
  obtain ⟨hspace, htab⟩ := ne_of_isBreak hc
  rw [literalText, if_pos hc, hc, startColumn, if_pos rfl, List.cons_append, read, hspace, htab, hc,
    Bool.false_and, if_neg Bool.false_ne_true, if_neg Bool.false_ne_true, if_pos rfl]

theorem adds_endOfLine (hb : b.literal = true) (hline : b.InLine) (hc : isBreak c = true) :
    b.Adds false c cs { b with lastBreak := some c } := by
  refine ⟨rfl, hb, by simp [hc], ?_, fun rest => ?_⟩
  · rw [content, hline.content_eq, hline.blankBreaks_eq]
    rfl
  · rw [literalText, if_pos hc, hc, startColumn, startColumn, if_neg Bool.false_ne_true, if_pos rfl,
      List.cons_append, read, hc, if_pos rfl]

theorem adds_startOfLine (hb : b.literal = true) (hc : isBreak c = false) :
    b.Adds true c cs (b.beginLine c) := by
  have hbegin := beginLine_literal (c := c) hb
  refine ⟨by rw [hbegin], by rw [hbegin]; exact hb, fun _ => ?_, ?_, fun rest => ?_⟩
  · rw [hbegin]
    exact ⟨rfl, rfl⟩
  · rw [hbegin]
    rfl
  · rw [literalText, hc, startColumn, startColumn, if_neg Bool.false_ne_true, if_pos rfl, if_pos rfl,
      if_neg Bool.false_ne_true, List.append_assoc, List.cons_append, read_indentation (by omega),
      Nat.zero_add, read_first hc]

theorem adds_insideLine (hb : b.literal = true) (hline : b.InLine) (hc : isBreak c = false) :
    b.Adds false c cs { b with text := c :: b.text } := by
  refine ⟨rfl, hb, fun _ => ⟨hline.lastBreak_eq, hline.blankBreaks_eq⟩, ?_, fun rest => ?_⟩
  · rw [hline.content_eq, content, hline.lastBreak_eq, hline.blankBreaks_eq]
    rfl
  · rw [literalText, hc, startColumn, if_neg Bool.false_ne_true, if_neg Bool.false_ne_true,
      if_neg Bool.false_ne_true, List.nil_append, List.cons_append, read, hc,
      if_neg Bool.false_ne_true]

theorem exists_adds (hb : b.literal = true) (hline : lineStart = false → b.InLine) (c : Char)
    (cs : List Char) : ∃ b', b.Adds lineStart c cs b' := by
  cases hc : isBreak c with
  | true =>
    cases lineStart with
    | true => exact ⟨_, adds_blankLine hb hc⟩
    | false => exact ⟨_, adds_endOfLine hb (hline rfl) hc⟩
  | false =>
    cases lineStart with
    | true => exact ⟨_, adds_startOfLine hb hc⟩
    | false => exact ⟨_, adds_insideLine hb (hline rfl) hc⟩

end Characters

/-- Lines of a literal block are read as they were written. -/
theorem exists_read_text (hb : b.literal = true) (lineStart : Bool)
    (hline : lineStart = false → b.InLine) (cs : List Char) :
    ∃ b' : BlockText, b'.indent = b.indent ∧ b'.literal = true ∧
      (endsLine lineStart cs = false → b'.InLine) ∧ b'.content = cs.reverse ++ b.content ∧
      ∀ rest, b.read (startColumn lineStart) (literalText b.indent lineStart cs ++ rest) =
        b'.read (startColumn (endsLine lineStart cs)) rest := by
  induction cs generalizing b lineStart with
  | nil => exact ⟨b, rfl, hb, hline, rfl, fun _ => rfl⟩
  | cons c cs ih =>
    obtain ⟨b₁, hadds⟩ := exists_adds hb hline c cs
    obtain ⟨b', hindent, hliteral, hline', hcontent, hread⟩ := ih hadds.literal_eq _ hadds.inLine
    rw [endsLine_cons]
    refine ⟨b', hindent.trans hadds.indent_eq, hliteral, hline', ?_, fun rest => ?_⟩
    · rw [hcontent, hadds.content_eq]
      simp
    · rw [hadds.read_eq, ← hadds.indent_eq, hread]

/-! ## Ends of blocks -/

theorem endsLine_append (lineStart : Bool) (cs : List Char) (c : Char) :
    endsLine lineStart (cs ++ [c]) = isBreak c := by
  rw [endsLine, List.getLast?_concat]
  rfl

theorem exists_read_lines {n : Nat} {e : Char} (hb : b.literal = true)
    (hcs : endsLine true cs = false) (he : isBreak e = true) (hrest : AtToken n rest)
    (hn : n < b.indent) :
    ∃ b' : BlockText, b.read (some 0) (literalText b.indent true cs ++ e :: (indentation n ++ rest)) =
      .ok (b', rest) ∧ b'.text = cs.reverse ++ b.content ∧ b'.lastBreak = some e ∧
        b'.blankBreaks = [] := by
  obtain ⟨b', hindent, -, hline, hcontent, hread⟩ :=
    exists_read_text hb true nofun cs
  have hline := hline hcs
  refine ⟨{ b' with lastBreak := some e }, ?_, ?_, rfl, hline.blankBreaks_eq⟩
  · have hstep := hread (e :: (indentation n ++ rest))
    rw [hcs] at hstep
    refine hstep.trans ?_
    rw [startColumn, if_neg Bool.false_ne_true, read, he, if_pos rfl]
    exact read_end hrest (hindent.symm ▸ hn)
  · rw [← hcontent, hline.content_eq]

/-- Lines of text with all the blank lines behind them. -/
theorem exists_read_blankLines {n : Nat} (hb : b.literal = true) (hcs : endsLine true cs = true)
    (hrest : AtToken n rest) (hn : n < b.indent) :
    ∃ b' : BlockText, b.read (some 0) (literalText b.indent true cs ++ (indentation n ++ rest)) =
      .ok (b', rest) ∧ b'.content = cs.reverse ++ b.content := by
  obtain ⟨b', hindent, -, -, hcontent, hread⟩ :=
    exists_read_text hb true nofun cs
  refine ⟨b', ?_, hcontent⟩
  have hstep := hread (indentation n ++ rest)
  rw [hcs] at hstep
  exact hstep.trans (read_end hrest (hindent.symm ▸ hn))

end BlockText

open BlockText

variable {cs rest : List Char} {indent n : Nat}

theorem literalText_append (lineStart : Bool) (xs ys : List Char) :
    literalText indent lineStart (xs ++ ys) =
      literalText indent lineStart xs ++ literalText indent (endsLine lineStart xs) ys := by
  induction xs generalizing lineStart with
  | nil => rfl
  | cons c xs ih =>
    rw [List.cons_append, literalText, literalText, endsLine_cons]
    cases hc : isBreak c with
    | true => rw [if_pos rfl, if_pos rfl, ih, List.cons_append]
    | false =>
      rw [if_neg Bool.false_ne_true, if_neg Bool.false_ne_true, ih, List.append_assoc,
        List.cons_append]

/-- The last character of a text is the last one of its lines. -/
theorem getLast?_literalText (indent : Nat) (lineStart : Bool) (cs : List Char) (c : Char) :
    (literalText indent lineStart (cs ++ [c])).getLast? = some c := by
  rw [literalText_append, literalText, literalText, literalText]
  cases hc : isBreak c with
  | true => rw [if_pos rfl, List.getLast?_concat]
  | false => rw [if_neg Bool.false_ne_true, ← List.append_assoc, List.getLast?_concat]

/-! ## Headers -/

/-- What has to become of the ends of lines behind a text. -/
def chompingOf (cs : List Char) : Chomping :=
  if endsLine true cs then if endsLine true cs.dropLast then .keep else .clip else .strip

def Chomping.indicator : Chomping → List Char
  | .strip => ['-']
  | .clip => []
  | .keep => ['+']

/-- Whether the first line of a text does not show where its lines begin. -/
def hidesIndent (cs : List Char) : Bool :=
  cs.head?.any fun c => c == ' ' || isBreak c

theorem literalHeader_eq (hne : cs ≠ []) :
    literalHeader cs =
      '|' :: ((if hidesIndent cs then ['2'] else []) ++ (chompingOf cs).indicator) := by
  obtain ⟨xs, c, rfl⟩ : ∃ xs c, cs = xs ++ [c] :=
    ⟨_, _, (List.dropLast_concat_getLast hne).symm⟩
  rw [literalHeader, List.reverse_append, chompingOf, endsLine_append, List.dropLast_concat]
  congr 2
  cases hc : isBreak c with
  | false => simp [hc, Chomping.indicator]
  | true =>
    rcases List.eq_nil_or_concat xs with rfl | ⟨ys, d, rfl⟩
    · simp [hc, Chomping.indicator, endsLine]
    · rw [List.concat_eq_append, endsLine_append]
      cases hd : isBreak d <;> simp [hc, hd, Chomping.indicator]

theorem blockHeader_indicator (chomp : Chomping) (hides : Bool) (cs : List Char) :
    blockHeader ((if hides then ['2'] else []) ++ chomp.indicator ++ '\n' :: cs) =
      .ok (chomp, if hides then some 2 else none, '\n' :: cs) := by
  cases chomp <;> cases hides <;> rfl

/-! ## Indentation -/

theorem leadingIndent_indentation (column : Nat) :
    leadingIndent 0 column (indentation n ++ rest) = leadingIndent 0 (column + n) rest := by
  induction n generalizing column with
  | zero => rfl
  | succ n ih =>
    rw [indentation, List.replicate_succ, List.cons_append, leadingIndent]
    exact (ih (column + 1)).trans (by rw [Nat.add_assoc, Nat.add_comm 1 n])

theorem hasTabIndent_indentation : hasTabIndent (indentation n ++ rest) = hasTabIndent rest := by
  induction n with
  | zero => rfl
  | succ n ih => exact ih

/-- A first line that begins with text shows where the lines of a block begin. -/
theorem leadingIndent_literalText (indent : Nat) (hne : cs ≠ [])
    (hprintable : ∀ c ∈ cs, isPrintable c = true)
    (hshows : hidesIndent cs = false) (rest : List Char) :
    leadingIndent 0 0 (literalText indent true cs ++ rest) = indent ∧
      hasTabIndent (literalText indent true cs ++ rest) = false := by
  cases cs with
  | nil => exact absurd rfl hne
  | cons c cs =>
    obtain ⟨hspace, hbreak⟩ := Bool.or_eq_false_iff.mp hshows
    have htab : c ≠ '\t' := by
      rintro rfl
      cases hprintable _ List.mem_cons_self
    rw [literalText, if_neg (by simp [hbreak]), if_pos rfl, List.append_assoc, List.cons_append,
      leadingIndent_indentation, hasTabIndent_indentation, Nat.zero_add]
    constructor
    · rw [leadingIndent.eq_2 _ _ _ _ (by simpa using hspace), if_neg (by simp [hbreak]),
        Nat.zero_max]
    · rw [hasTabIndent.eq_2 _ _ htab, hspace, hbreak]
      rfl

/-! ## Blocks -/

/-- The lines of a block are read as they were written. -/
theorem exists_literalBlock (hne : cs ≠ []) (hrest : AtToken n rest) (hn : n < indent) :
    ∃ lines b, (literalBlock indent cs).toList = literalHeader cs ++ '\n' :: lines ∧
      lines.getLast?.any isBreak = true ∧
      (∃ more, lines = literalText indent true cs ++ more) ∧
      BlockText.read { literal := true, indent } (some 0) (lines ++ (indentation n ++ rest)) =
        .ok (b, rest) ∧
      b.result (chompingOf cs) = String.ofList cs := by
  obtain ⟨xs, c, rfl⟩ : ∃ xs c, cs = xs ++ [c] :=
    ⟨_, _, (List.dropLast_concat_getLast hne).symm⟩
  have hlast := getLast?_literalText indent true xs c
  rw [literalBlock, String.toList_ofList, chompingOf, endsLine_append, List.dropLast_concat, hlast]
  cases hc : isBreak c with
  | false =>
    obtain ⟨b, hread, htext, -, -⟩ := exists_read_lines (b := { literal := true, indent })
      (e := '\n') rfl ((endsLine_append true xs c).trans hc) rfl hrest hn
    refine ⟨literalText indent true (xs ++ [c]) ++ ['\n'], b, by simp [hc], by simp; rfl,
      ⟨_, rfl⟩, by simpa using hread, ?_⟩
    rw [if_neg Bool.false_ne_true, result, htext]
    simp [content]
  | true =>
    cases hxs : endsLine true xs with
    | false =>
      obtain ⟨b, hread, htext, hbreak, -⟩ := exists_read_lines (b := { literal := true, indent })
        (e := c) rfl hxs hc hrest hn
      have hlines : literalText indent true (xs ++ [c]) = literalText indent true xs ++ [c] := by
        rw [literalText_append, literalText, hc, if_pos rfl, literalText]
      refine ⟨literalText indent true (xs ++ [c]), b, by simp [hc], by simp [hlast, hc],
        ⟨[], by simp⟩, by simpa [hlines] using hread, ?_⟩
      rw [if_pos rfl, if_neg Bool.false_ne_true, result, htext, hbreak]
      simp [content]
    | true =>
      obtain ⟨b, hread, hcontent⟩ := exists_read_blankLines (b := { literal := true, indent })
        rfl ((endsLine_append true xs c).trans hc) hrest hn
      refine ⟨literalText indent true (xs ++ [c]), b, by simp [hc], by simp [hlast, hc],
        ⟨[], by simp⟩, hread, ?_⟩
      rw [if_pos rfl, if_pos rfl, result]
      change String.ofList b.content.reverse = _
      rw [hcontent]
      simp [content]

/-- A text of several lines is read as it was written, from a block inside one that is indented by
`indent`. -/
theorem blockScalar_literalBlock (hne : cs ≠ []) (hprintable : ∀ c ∈ cs, isPrintable c = true)
    (hrest : AtToken n rest) (hn : n < indent + 2) :
    ∃ text, (literalBlock (indent + 2) cs).toList = '|' :: text ∧
      text.getLast?.any isBreak = true ∧
      blockScalar true indent (text ++ (indentation n ++ rest)) = .ok (String.ofList cs, rest) := by
  obtain ⟨lines, b, hblock, hlast, ⟨more, hlines⟩, hread, hresult⟩ :=
    exists_literalBlock hne hrest hn
  rw [literalHeader_eq hne, List.cons_append] at hblock
  refine ⟨_, hblock, ?_, ?_⟩
  · rw [List.getLast?_append, List.getLast?_cons]
    cases hc : lines.getLast? with
    | none =>
      rw [hc] at hlast
      cases hlast
    | some c =>
      rw [hc] at hlast
      exact hlast
  · have hheader := blockHeader_indicator (chompingOf cs) (hidesIndent cs)
      (lines ++ (indentation n ++ rest))
    have hcomment : dropComment ('\n' :: (lines ++ (indentation n ++ rest))) =
        '\n' :: (lines ++ (indentation n ++ rest)) := rfl
    have hbreak : isBreak '\n' = true := rfl
    rw [List.append_assoc, List.cons_append, blockScalar, hheader]
    simp only [bind, Except.bind, pure, Except.pure, hcomment, hbreak, if_true]
    cases hhides : hidesIndent cs with
    | true =>
      have hindent : (max (indent : Int) 0).toNat + 2 = indent + 2 := by omega
      simp only [if_true, hindent, hread, hresult]
    | false =>
      obtain ⟨hleading, htab⟩ := leadingIndent_literalText (indent + 2) hne
        hprintable hhides
        (more ++ (indentation n ++ rest))
      rw [← List.append_assoc, ← hlines] at hleading htab
      have hindent : max (max (indent + 2) ((indent : Int) + 1).toNat) 1 = indent + 2 := by omega
      simp only [Bool.false_eq_true, if_false, htab, hleading, hindent, hread, hresult]

end CodeIndex.Yaml
