import CodeIndex.Extraction.Record
import CodeIndex.Proofs.Span
import CodeIndex.Proofs.Text.Lines

/-! # Source texts of spans

The text of a span is made of the lines with its numbers. Bounds that begin at a line are counted
right in words, for the one span whose lines are too many to count begins at zero; so no bounds
select other lines than those between them.
-/

namespace CodeIndex

namespace ParsedFile

variable {f : ParsedFile} {text : String}

theorem toNat_lineCount_of_ne_zero {a : UInt32} (ha : a ≠ 0) (b : UInt32) :
    (⟨a, b⟩ : Span).lineCount.toNat = b.toNat + 1 - a.toNat := by
  have hwhole : (⟨a, b⟩ : Span) ≠ .whole := fun h => ha (congrArg Span.start h)
  rw [Span.toNat_lineCount_eq_card_iff.mpr hwhole, Span.card_eq]

theorem toNat_pos {a : UInt32} (ha : a ≠ 0) : 0 < a.toNat :=
  Nat.pos_of_ne_zero fun h => ha (UInt32.toNat_inj.mp h)

/-- The text of bounds is that of the lines with the numbers between them, if there are any. -/
theorem textOf?_eq (hf : f.source = some text) (a b : UInt32) :
    f.textOf? ⟨a, b⟩ =
      if a = 0 ∨ b < a ∨ (Text.lines text).length < a.toNat then none
      else some ("\n".intercalate (Text.numbered (Text.lines text) a.toNat b.toNat)) := by
  rw [textOf?, hf, Option.bind_some]
  by_cases ha : a = 0
  · rw [if_pos (.inl ha), if_pos (.inl ha)]
  have hpos := toNat_pos ha
  by_cases hab : b < a
  · rw [if_pos (.inr hab), if_pos (.inr (.inl hab))]
  have hle : a.toNat ≤ b.toNat := by
    rw [UInt32.lt_iff_toNat_lt] at hab
    omega
  have hlength := Text.length_numbered hpos (Text.lines text) b.toNat
  rw [if_neg (not_or.mpr ⟨ha, hab⟩), Text.slice?, toNat_lineCount_of_ne_zero ha,
    ← Text.numbered_eq hpos]
  split
  · next hnil =>
    rw [hnil, List.length_nil] at hlength
    rw [if_pos (.inr (.inr (by omega)))]
  · next hcovered =>
    have hne := List.length_pos_of_ne_nil hcovered
    rw [if_neg]
    rintro (h | h | h)
    · exact ha h
    · exact hab h
    · omega

/-- What bounds select from the lines `ls`. -/
structure SlicesOf (ls : List String) (slice : UInt32 → UInt32 → Option String) : Prop where
  eq : ∀ a b, slice a b =
    if a = 0 ∨ b < a ∨ ls.length < a.toNat then none
    else some ("\n".intercalate (Text.numbered ls a.toNat (min b.toNat ls.length)))
  append : ∀ a b c, 1 ≤ a → a ≤ b → b < c → b.toNat < ls.length →
    ∃ front back, slice a b = some front ∧ slice (b + 1) c = some back ∧
      slice a c = some (front ++ "\n" ++ back)
  beyond : ∀ a b c, ls.length ≤ b.toNat → b ≤ c → slice a c = slice a b

theorem toNat_add_one_of_lt {b c : UInt32} (h : b < c) : (b + 1).toNat = b.toNat + 1 := by
  have hc := c.toNat_lt
  rw [UInt32.lt_iff_toNat_lt] at h
  rw [UInt32.toNat_add, UInt32.toNat_one, Nat.mod_eq_of_lt (by omega)]

/-- Slices that follow one another are the slice over both, with a line feed between them. -/
theorem exists_textOf?_append (hf : f.source = some text) {a b c : UInt32} (ha : 1 ≤ a)
    (hab : a ≤ b) (hbc : b < c) (hb : b.toNat < (Text.lines text).length) :
    ∃ front back, f.textOf? ⟨a, b⟩ = some front ∧ f.textOf? ⟨b + 1, c⟩ = some back ∧
      f.textOf? ⟨a, c⟩ = some (front ++ "\n" ++ back) := by
  have hnext := toNat_add_one_of_lt hbc
  rw [UInt32.le_iff_toNat_le, UInt32.toNat_one] at ha
  rw [UInt32.le_iff_toNat_le] at hab
  rw [UInt32.lt_iff_toNat_lt] at hbc
  have hcut : Text.numbered (Text.lines text) a.toNat c.toNat =
      Text.numbered (Text.lines text) a.toNat b.toNat ++
        Text.numbered (Text.lines text) (b + 1).toNat c.toNat := by
    rw [hnext]
    exact Text.numbered_append ha (by omega) (by omega) _
  have hinside : ∀ x y : UInt32, 1 ≤ x.toNat → x.toNat ≤ y.toNat →
      x.toNat ≤ (Text.lines text).length →
      Text.numbered (Text.lines text) x.toNat y.toNat ≠ [] ∧ f.textOf? ⟨x, y⟩ =
        some ("\n".intercalate (Text.numbered (Text.lines text) x.toNat y.toNat)) := by
    intro x y hx hxy hxn
    constructor
    · refine List.ne_nil_of_length_pos ?_
      rw [Text.length_numbered hx]
      omega
    · rw [textOf?_eq hf, if_neg]
      rintro (rfl | h | h)
      · exact absurd hx (by decide)
      · rw [UInt32.lt_iff_toNat_lt] at h
        omega
      · omega
  obtain ⟨hfront, hab'⟩ := hinside a b ha hab (by omega)
  obtain ⟨hback, hbc'⟩ := hinside (b + 1) c (by omega) (by omega) (by omega)
  obtain ⟨-, hac⟩ := hinside a c ha (by omega) (by omega)
  refine ⟨_, _, hab', hbc', ?_⟩
  rw [hac, hcut, String.intercalate_append_of_ne_nil hfront hback]

/-- The bounds of a span select the lines with the numbers between them from the lines that the text
of the file is made of, cut short at its end, and nothing if there are none. So slices compose, and
numbers behind the last line make no difference. -/
theorem slices_are_exact (path : String) (root : Node) (text : String) :
    ∃ ls : List String,
      (∀ ls', Text.MadeOf text.toList ls' ↔ ls' = ls.map String.toList) ∧
      SlicesOf ls (fun a b => (⟨path, root, some text⟩ : ParsedFile).textOf? ⟨a, b⟩) ∧
      ∀ a b : UInt32, a ≠ 0 → (⟨a, b⟩ : Span).lineCount.toNat = b.toNat + 1 - a.toNat := by
  have hf : (⟨path, root, some text⟩ : ParsedFile).source = some text := rfl
  have heq : ∀ a b : UInt32, (⟨path, root, some text⟩ : ParsedFile).textOf? ⟨a, b⟩ =
      if a = 0 ∨ b < a ∨ (Text.lines text).length < a.toNat then none
      else some ("\n".intercalate (Text.numbered (Text.lines text) a.toNat
        (min b.toNat (Text.lines text).length))) := by
    intro a b
    rw [textOf?_eq hf]
    by_cases ha : a = 0
    · rw [if_pos (.inl ha), if_pos (.inl ha)]
    · rw [Text.numbered_min _ (toNat_pos ha)]
  refine ⟨Text.lines text, fun _ => Text.madeOf_iff, ⟨heq, ?_, ?_⟩,
    fun a b ha => toNat_lineCount_of_ne_zero ha b⟩
  · exact fun a b c ha hab hbc hb => exists_textOf?_append hf ha hab hbc hb
  · intro a b c hb hbc
    have hc : (Text.lines text).length ≤ c.toNat := hb.trans (UInt32.le_iff_toNat_le.mp hbc)
    -- bounds that are out of order begin behind the last line
    have hnone : ∀ x : UInt32, (Text.lines text).length ≤ x.toNat →
        (a = 0 ∨ x < a ∨ (Text.lines text).length < a.toNat ↔
          a = 0 ∨ (Text.lines text).length < a.toNat) := by
      intro x hx
      rw [UInt32.lt_iff_toNat_lt]
      refine or_congr_right ⟨?_, .inr⟩
      rintro (h | h)
      · exact Nat.lt_of_le_of_lt hx h
      · exact h
    simp only [heq, hnone c hc, hnone b hb, Nat.min_eq_right hb, Nat.min_eq_right hc]

-- the third line keeps one of two carriage returns, and the last one has no ending
theorem slices_are_exact_mixed :
    ∃ (f : ParsedFile) (front back : String),
      f = ⟨"ant.rb", .branch none [] none, some "one\r\n\nthree\r\r\nfour"⟩ ∧
      front = "one\n" ∧ back = "three\r\nfour" ∧
      f.textOf? ⟨1, 2⟩ = some front ∧ f.textOf? ⟨3, 0xffffffff⟩ = some back ∧
      f.textOf? ⟨1, 0xffffffff⟩ = some (front ++ "\n" ++ back) ∧
      f.textOf? ⟨1, 4⟩ = f.textOf? ⟨1, 0xffffffff⟩ ∧ f.textOf? ⟨5, 0xffffffff⟩ = none := by
  obtain ⟨ls, hls, hslices, -⟩ :=
    slices_are_exact "ant.rb" (.branch none [] none) "one\r\n\nthree\r\r\nfour"
  have hlines : ls.map String.toList = ["one", "", "three\r", "four"].map String.toList :=
    (Text.madeOf_iff.mp ((hls _).mpr rfl)).trans (by cbv)
  obtain rfl : ls = ["one", "", "three\r", "four"] :=
    List.map_injective_iff.mpr (fun _ _ => String.toList_inj.mp) hlines
  obtain ⟨front, back, hfront, hback, hboth⟩ :=
    hslices.append 1 2 0xffffffff (by decide) (by decide) (by decide) (by decide)
  have hbeyond := hslices.beyond 1 4 0xffffffff (by decide) (by decide)
  have hone : front = "one\n" := by
    rw [hslices.eq] at hfront
    exact (Option.some.inj hfront).symm
  have hthree : back = "three\r\nfour" := by
    rw [hslices.eq] at hback
    exact (Option.some.inj hback).symm
  refine ⟨_, front, back, rfl, hone, hthree, hfront, hback, hboth, hbeyond.symm, ?_⟩
  exact (hslices.eq 5 0xffffffff).trans (if_pos (by decide))

end ParsedFile

end CodeIndex
