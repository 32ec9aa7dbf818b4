import CodeIndex.Proofs.Tree.AddressText
import CodeIndex.Proofs.Yaml.Folded

/-! # Numbers as plain scalars

The digits of a number can be written plainly and are read as the number, since nothing but a number
is written with digits alone and a leading zero is written for zero only.
-/

namespace CodeIndex.Yaml

open Style

variable {c : Char} {cs : List Char} {n : Nat}

/-! ## Digits -/

theorem exists_digitChar (h : c.isDigit) : ∃ d < 10, c = Nat.digitChar d := by
  obtain ⟨hlow, hhigh⟩ := Text.toNat_of_isDigit h
  have hlt : c.toNat - 48 < 10 := by omega
  have hdigits := Text.toDigits_of_isDigit h
  rw [Nat.toDigits_of_lt_base hlt] at hdigits
  exact ⟨c.toNat - 48, hlt, (List.singleton_inj.mp hdigits).symm⟩

theorem of_isDigit (h : c.isDigit) :
    Style.isPrintable c = true ∧ isBlank c = false ∧ isBreak c = false ∧ isSpace c = false ∧
      c ≠ ':' ∧ c ≠ '?' ∧ c ≠ '-' ∧ c ≠ '.' ∧
        "#,[]\x7b\x7d&*!|>'\"%@\x60".toList.contains c = false := by
  obtain ⟨d, hd, rfl⟩ := exists_digitChar h
  clear h
  decide +revert

theorem hasPair_of_forall {p q : Char → Bool} (h : ∀ c ∈ cs, p c = false) :
    hasPair p q cs = false := by
  induction cs with
  | nil => rfl
  | cons c cs ih =>
    obtain ⟨hc, hcs⟩ := List.forall_mem_cons.mp h
    cases cs with
    | nil => rfl
    | cons d cs =>
      rw [hasPair, hc, Bool.false_and, Bool.false_or]
      exact ih hcs

theorem hasBlockIndicator_of_isDigit (h : ∀ c ∈ cs, c.isDigit) (gapBefore : Bool) :
    hasBlockIndicator gapBefore cs = false := by
  induction cs generalizing gapBefore with
  | nil => rfl
  | cons c cs ih =>
    obtain ⟨hc, hcs⟩ := List.forall_mem_cons.mp h
    obtain ⟨-, -, -, -, hcolon, -, -, -, hspecial⟩ := of_isDigit hc
    have hcomment : c ≠ '#' := by
      rintro rfl
      cases hspecial
    rw [hasBlockIndicator, ih hcs, beq_false_of_ne hcolon, beq_false_of_ne hcomment]
    rfl

theorem isPlain_of_isDigit (h : ∀ c ∈ cs, c.isDigit) : isPlain cs = true := by
  have hspace : ∀ c ∈ cs, isSpace c = false := fun c hc => (of_isDigit (h c hc)).2.2.2.1
  refine isPlain_iff.mpr ⟨?_, fun c hc => (of_isDigit (h c hc)).2.2.1, ?_, ?_, ?_,
    hasBlockIndicator_of_isDigit h true⟩
  · rw [needsEscapes, hasPair_of_forall hspace, Bool.or_false, Bool.not_eq_false', List.all_eq_true]
    exact fun c hc => (of_isDigit (h c hc)).1
  · rw [Option.any_eq_false]
    exact fun c hc => by simp [hspace c (List.mem_of_head? hc)]
  · rw [Option.any_eq_false]
    exact fun c hc => by simp [hspace c (List.mem_of_getLast? hc)]
  · cases cs with
    | nil => rfl
    | cons c cs =>
      obtain ⟨-, -, -, -, -, hquestion, hdash, hpoint, hspecial⟩ := of_isDigit (h c List.mem_cons_self)
      rw [beginsLikeBlock, hspecial]
      simp [List.isPrefixOf, hquestion, hdash, hdash.symm, hpoint.symm]

theorem isPlain_toString (n : Nat) : isPlain (toString n).toList = true :=
  isPlain_of_isDigit fun _ => Text.isDigit_of_mem_repr

theorem toList_toString_ne_nil (n : Nat) : (toString n).toList ≠ [] := by
  rw [Nat.toString_eq_repr, Nat.toList_repr]
  exact Nat.toDigits_ne_nil

/-! ## Values -/

namespace Scalar

theorem digit?_of_isDigit (h : c.isDigit) : digit? c = some (c.toNat - 48) := by
  obtain ⟨d, hd, rfl⟩ := exists_digitChar h
  clear h
  decide +revert

theorem natOfDigits?_of_isDigit (hne : cs ≠ []) (h : ∀ c ∈ cs, c.isDigit) :
    natOfDigits? 10 cs = some (Nat.ofDigitChars 10 cs 0) := by
  have hfold : ∀ n, cs.foldlM
      (fun n c => (digit? c).bind fun d => if d < 10 then some (10 * n + d) else none) n =
        some (Nat.ofDigitChars 10 cs n) := by
    intro n
    rw [Nat.ofDigitChars_eq_foldl]
    clear hne
    induction cs generalizing n with
    | nil => rfl
    | cons c cs ih =>
      obtain ⟨hc, hcs⟩ := List.forall_mem_cons.mp h
      have hlt : c.toNat - 48 < 10 := by
        have := Text.toNat_of_isDigit hc
        omega
      rw [List.foldlM_cons, digit?_of_isDigit hc, Option.bind_some, if_pos hlt, List.foldl_cons]
      exact ih hcs _
  rw [natOfDigits?.eq_2 10 cs hne]
  exact hfold 0

theorem hasLeadingZero_toString (n : Nat) : hasLeadingZero (toString n).toList = false := by
  have hdigits : ∀ c ∈ (toString n).toList, c.isDigit := fun _ => Text.isDigit_of_mem_repr
  cases hcs : (toString n).toList with
  | nil => rfl
  | cons c cs =>
    rw [hcs] at hdigits
    have hc := of_isDigit (hdigits c List.mem_cons_self)
    have hsign : isSign c = false := by
      obtain ⟨d, hd, rfl⟩ := exists_digitChar (hdigits c List.mem_cons_self)
      clear hcs hc hdigits
      decide +revert
    by_cases hzero : c = '0'
    · have hn : n = 0 := by
        rw [Nat.toString_eq_repr, Nat.toList_repr] at hcs
        exact Text.eq_zero_of_head?_toDigits (by rw [hcs, hzero]; rfl)
      subst hn
      cases hcs
      rfl
    · simp only [hasLeadingZero, hsign, Bool.false_eq_true, if_false]
      split
      · next hcons => exact absurd (List.cons.inj hcons).1 hzero
      · rfl

theorem int?_toString (n : Nat) : int? (toString n).toList = some (n : Int) := by
  have hdigits : ∀ c ∈ (toString n).toList, c.isDigit := fun _ => Text.isDigit_of_mem_repr
  have hmagnitude : magnitude? (toString n).toList = some n := by
    have hvalue := natOfDigits?_of_isDigit (toList_toString_ne_nil n) hdigits
    rw [Nat.toString_eq_repr, Nat.toList_repr, Nat.ofDigitChars_ten_toDigits] at hvalue
    unfold magnitude?
    split
    iterate 3
      next hcs =>
        rw [hcs] at hdigits
        exact absurd (hdigits _ (List.mem_cons_of_mem _ List.mem_cons_self)) (by decide)
    rw [hasLeadingZero_toString, if_neg Bool.false_ne_true, Nat.toString_eq_repr, Nat.toList_repr,
      hvalue]
  unfold int?
  split
  iterate 2
    next hcs =>
      rw [hcs] at hdigits
      exact absurd (hdigits _ List.mem_cons_self) (by decide)
  rw [hmagnitude]
  rfl

theorem plainValue_toString (h : n < UInt64.size) :
    plainValue (toString n) = .ok (.number (.int n)) := by
  have hdigits : ∀ c ∈ (toString n).toList, c.isDigit := fun _ => Text.isDigit_of_mem_repr
  have hinteger : integer? (toString n) = some (.ok (.number (.int n))) := by
    have hrange : Int64.minValue.toInt ≤ (n : Int) ∧ (n : Int) < UInt64.size :=
      ⟨Int.le_trans (by decide) (Int.natCast_nonneg n), by exact_mod_cast h⟩
    rw [integer?, int?_toString, Option.bind_some, intValue?, if_pos hrange]
  have hne : ∀ word : String, word.toList.all Char.isDigit = false → toString n ≠ word := by
    rintro word hword rfl
    rw [List.all_eq_true.mpr hdigits] at hword
    cases hword
  have hempty : (toString n).isEmpty = false := by
    rw [← Bool.not_eq_true, String.isEmpty_iff]
    exact fun h => toList_toString_ne_nil n (String.toList_eq_nil_iff.mpr h)
  have hnull : isNull (toString n) = false := by
    simp only [isNull, List.contains_cons, List.contains_nil, Bool.or_false, Bool.or_eq_false_iff,
      beq_eq_false_iff_ne]
    exact ⟨hne _ rfl, hne _ rfl, hne _ rfl, hne _ rfl⟩
  have hbool : bool? (toString n) = none := by
    simp only [bool?, List.contains_cons, List.contains_nil, Bool.or_false]
    rw [if_neg, if_neg] <;> simp only [Bool.or_eq_true_iff, beq_iff_eq, not_or] <;>
      exact ⟨hne _ rfl, hne _ rfl, hne _ rfl⟩
  rw [plainValue, hempty, hnull, hbool, hinteger]
  rfl

end Scalar

end CodeIndex.Yaml
