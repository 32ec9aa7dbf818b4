import CodeIndex.Proofs.Yaml.Folded
import Mathlib.Algebra.Group.Nat.Defs

/-! # Text in double quotes

Characters that could be lost are written as escapes, by a letter or by their number in base
sixteen. Each escape is read as its character, so that any text in double quotes is read as it was
written.
-/

namespace CodeIndex.Yaml

open Style

/-! ## Numbers -/

theorem hexDigit?_upperHexDigit {n : Nat} (h : n < 16) : hexDigit? (upperHexDigit n) = some n := by
  decide +revert

theorem foldl_upperHex (width n : Nat) :
    ∃ ds, (upperHex width n).mapM hexDigit? = some ds ∧
      ds.foldl (fun m d => 16 * m + d) 0 = n % 16 ^ width := by
  induction width generalizing n with
  | zero => exact ⟨[], rfl, by simp [Nat.mod_one]⟩
  | succ width ih =>
    obtain ⟨ds, hds, hn⟩ := ih (n / 16)
    refine ⟨ds ++ [n % 16], ?_, ?_⟩
    · rw [upperHex, List.mapM_append, hds]
      simp [hexDigit?_upperHexDigit (Nat.mod_lt n (by decide : 0 < 16))]
    · rw [List.foldl_append, hn, List.foldl_cons, List.foldl_nil, Nat.pow_succ', Nat.mod_mul]
      omega

/-- A character is found by its number, given by digits enough. -/
theorem charOfHex?_upperHex (width : Nat) {c : Char} (h : c.toNat < 16 ^ width) :
    charOfHex? (upperHex width c.toNat) = some c := by
  obtain ⟨ds, hds, hn⟩ := foldl_upperHex width c.toNat
  have hvalid : c.toNat.isValidChar := c.valid
  rw [Nat.mod_eq_of_lt h] at hn
  rw [charOfHex?, hds, Option.bind_eq_bind, Option.bind_some, hn, if_pos hvalid, Char.ofNat_toNat]

/-! ## Characters -/

section DoubleQuoted

variable {f : Folding} {c : Char}

theorem doubleQuoted_letter {e : Char} (he : escape? e = some c) (rest : List Char) :
    doubleQuoted f ('\\' :: e :: rest) = doubleQuoted (f.join.push [c] 2) rest := by
  have hne : ∀ d, escape? d = none → e ≠ d := by
    rintro d hd rfl
    cases hd.symm.trans he
  have hbreak : isBreak e = false := by
    rw [isBreak, beq_false_of_ne (hne _ rfl), beq_false_of_ne (hne _ rfl),
      beq_false_of_ne (hne _ rfl)]
    rfl
  rw [doubleQuoted.eq_6 f e rest (fun _ _ _ h _ => hne _ rfl h) (fun _ _ _ _ _ h _ => hne _ rfl h)
    (fun _ _ _ _ _ _ _ _ _ h _ => hne _ rfl h), hbreak, he]
  rfl

theorem doubleQuoted_two {p q : Char} (h : charOfHex? [p, q] = some c) (rest : List Char) :
    doubleQuoted f ('\\' :: 'x' :: p :: q :: rest) = doubleQuoted (f.join.push [c] 4) rest := by
  rw [doubleQuoted.eq_3, h]

theorem doubleQuoted_four {p q r s : Char} (h : charOfHex? [p, q, r, s] = some c)
    (rest : List Char) :
    doubleQuoted f ('\\' :: 'u' :: p :: q :: r :: s :: rest) =
      doubleQuoted (f.join.push [c] 6) rest := by
  rw [doubleQuoted.eq_4, h]

theorem doubleQuoted_eight {p q r s p' q' r' s' : Char}
    (h : charOfHex? [p, q, r, s, p', q', r', s'] = some c) (rest : List Char) :
    doubleQuoted f ('\\' :: 'U' :: p :: q :: r :: s :: p' :: q' :: r' :: s' :: rest) =
      doubleQuoted (f.join.push [c] 10) rest := by
  rw [doubleQuoted.eq_5, h]

theorem doubleQuoted_self (hf : f.OnLine) (hquote : c ≠ '"') (hslash : c ≠ '\\')
    (hbreak : isBreak c = false) : ∃ f', f.Reads c f' ∧
      ∀ rest, doubleQuoted f (c :: rest) = doubleQuoted f' rest := by
  have hstep : ∀ rest, doubleQuoted f (c :: rest) =
      if isBlank c = true then doubleQuoted (f.blank c) rest
      else doubleQuoted (f.join.push [c] 1) rest := by
    intro rest
    have hcolumn : (f.column == 0) = false := beq_false_of_ne (Nat.ne_of_gt hf.column_pos)
    rw [doubleQuoted.eq_7 f c rest hquote (fun _ _ _ h _ => hslash h)
      (fun _ _ _ _ _ h _ => hslash h) (fun _ _ _ _ _ _ _ _ _ h _ => hslash h)
      (fun _ _ h _ => hslash h), hbreak, hcolumn, Bool.false_and, if_neg Bool.false_ne_true,
      if_neg Bool.false_ne_true]
  by_cases hb : isBlank c = true
  · refine ⟨_, Folding.reads_blank hf.broken_eq hf.moreBreaks_eq hb, fun rest => ?_⟩
    rw [hstep, if_pos hb]
  · refine ⟨_, f.reads_push c Nat.one_pos, fun rest => ?_⟩
    rw [hstep, if_neg hb]

/-- A character is read as it was written, by itself or as an escape. -/
theorem exists_reads_doubleQuoted (hf : f.OnLine) (c : Char) :
    ∃ f', f.Reads c f' ∧
      ∀ rest, doubleQuoted f (escaped c ++ rest) = doubleQuoted f' rest := by
  have htop : c.toNat < 0x110000 := by
    have hvalid : c.toNat.isValidChar := c.valid
    unfold Nat.isValidChar at hvalid
    omega
  unfold escaped
  split
  iterate 14 exact ⟨_, f.reads_push _ (by decide), doubleQuoted_letter rfl⟩
  next hfeed _ _ _ _ hquote hslash _ hline hparagraph =>
  dsimp only
  split
  · have hbreak : isBreak c = false := by
      rw [isBreak, beq_false_of_ne hfeed, beq_false_of_ne hline, beq_false_of_ne hparagraph]
      rfl
    exact doubleQuoted_self hf hquote hslash hbreak
  split
  · exact ⟨_, f.reads_push c (by decide), doubleQuoted_two (charOfHex?_upperHex 2 (by omega))⟩
  split
  · exact ⟨_, f.reads_push c (by decide), doubleQuoted_four (charOfHex?_upperHex 4 (by omega))⟩
  · exact ⟨_, f.reads_push c (by decide), doubleQuoted_eight (charOfHex?_upperHex 8 (by omega))⟩

/-- Any text in double quotes is read as it was written. -/
theorem doubleQuoted_text (hf : f.OnLine) (cs rest : List Char) :
    doubleQuoted f (cs.flatMap escaped ++ '"' :: rest) =
      .ok (String.ofList (f.content.reverse ++ cs), rest) := by
  induction cs generalizing f with
  | nil =>
    rw [List.append_nil, ← Folding.result_join]
    rfl
  | cons c cs ih =>
    obtain ⟨f', hread, hstep⟩ := exists_reads_doubleQuoted hf c
    rw [List.flatMap_cons, List.append_assoc, hstep, ih hread.onLine, hread.content_eq]
    simp

end DoubleQuoted

end CodeIndex.Yaml
