import CodeIndex.Proofs.Except
import CodeIndex.Tree.Address
import Mathlib.Data.List.Basic
import Mathlib.Data.List.Forall2
import Mathlib.Data.List.Induction

/-! # Addresses as texts

An address is read back from its text as long as its positions have at most 64 bits. The text is cut
at its points into `root` and two segments a step, and no segment holds a point itself. What is read
as an address is `root` with one step behind the other, each with the digits of a position; only
zeros in front of these digits make a text differ from the one that is written for its address.
-/

namespace CodeIndex

namespace Text

theorem segments_of_notMem {c : Char} {w : List Char} (h : c ∉ w) : segments c w = [w] := by
  induction w with
  | nil => rfl
  | cons x w ih =>
    obtain ⟨hx, hw⟩ : c ≠ x ∧ c ∉ w := by simpa using h
    rw [segments, if_neg (Ne.symm hx), ih hw]

theorem segments_append {c : Char} {w : List Char} (h : c ∉ w) (rest : List Char) :
    segments c (w ++ c :: rest) = w :: segments c rest := by
  induction w with
  | nil => rw [List.nil_append, segments, if_pos rfl]
  | cons x w ih =>
    obtain ⟨hx, hw⟩ : c ≠ x ∧ c ∉ w := by simpa using h
    rw [List.cons_append, segments, if_neg (Ne.symm hx), ih hw]

theorem segments_flatMap {c : Char} {ws : List (List Char)} (h : ∀ w ∈ ws, c ∉ w)
    {first : List Char} (hfirst : c ∉ first) :
    segments c (first ++ ws.flatMap (c :: ·)) = first :: ws := by
  induction ws generalizing first with
  | nil => rw [List.flatMap_nil, List.append_nil, segments_of_notMem hfirst]
  | cons w ws ih =>
    rw [List.flatMap_cons, List.cons_append, segments_append hfirst,
      ih (fun v hv => h v (List.mem_cons_of_mem _ hv)) (h w List.mem_cons_self)]

/-- A text is its segments with the separators between them. -/
theorem exists_segments (c : Char) (cs : List Char) :
    ∃ w ws, segments c cs = w :: ws ∧ w ++ ws.flatMap (c :: ·) = cs := by
  induction cs with
  | nil => exact ⟨[], [], rfl, rfl⟩
  | cons x cs ih =>
    obtain ⟨w, ws, hs, hcs⟩ := ih
    by_cases hx : x = c
    · refine ⟨[], w :: ws, by rw [segments, if_pos hx, hs], ?_⟩
      rw [List.nil_append, List.flatMap_cons, List.cons_append, hcs, hx]
    · refine ⟨x :: w, ws, by simp only [segments, if_neg hx, hs], ?_⟩
      rw [List.cons_append, hcs]

/-! ## Digits -/

theorem isDigit_of_mem_repr {n : Nat} {c : Char} (h : c ∈ (toString n).toList) :
    c.isDigit = true := by
  rw [Nat.toString_eq_repr, Nat.toList_repr] at h
  exact Nat.isDigit_of_mem_toDigits (by decide) (by decide) h

theorem mapM_digitValue? (cs : List Char) :
    cs.mapM digitValue? =
      if cs.all Char.isDigit then some (cs.map fun c => c.toNat - 48) else none := by
  induction cs with
  | nil => rfl
  | cons c cs ih =>
    rw [List.mapM_cons, ih, digitValue?, List.all_cons]
    cases c.isDigit <;> cases cs.all Char.isDigit <;> rfl

/-- Digits are read as the number that they are in decimal notation. -/
theorem natOfDigits?_eq_some {cs : List Char} {n : Nat} :
    natOfDigits? cs = some n ↔
      cs ≠ [] ∧ (∀ c ∈ cs, c.isDigit) ∧ Nat.ofDigitChars 10 cs 0 = n := by
  cases cs with
  | nil => simp [natOfDigits?]
  | cons c cs =>
    rw [natOfDigits?.eq_2 _ (List.cons_ne_nil c cs), mapM_digitValue?, Nat.ofDigitChars_eq_foldl,
      ← List.all_eq_true]
    by_cases hall : (c :: cs).all Char.isDigit
    · rw [if_pos hall, Option.map_some, List.foldl_map, Option.some_inj]
      exact ⟨fun h => ⟨List.cons_ne_nil c cs, hall, h⟩, fun h => h.2.2⟩
    · rw [if_neg hall, Option.map_none]
      exact ⟨nofun, fun h => absurd h.2.1 hall⟩

theorem natOfDigits?_toString (n : Nat) : natOfDigits? (toString n).toList = some n := by
  refine natOfDigits?_eq_some.mpr ⟨?_, fun c hc => isDigit_of_mem_repr hc, ?_⟩
  · rw [Nat.toString_eq_repr, Nat.toList_repr]
    exact Nat.toDigits_ne_nil
  · rw [Nat.toString_eq_repr, Nat.toList_repr]
    exact Nat.ofDigitChars_ten_toDigits

theorem toString_injective : Function.Injective (toString : Nat → String) := by
  intro i j h
  have hi := natOfDigits?_toString i
  rw [h, natOfDigits?_toString j] at hi
  exact (Option.some.inj hi).symm

/-- A number that is written with a leading zero is zero. -/
theorem eq_zero_of_head?_toDigits {n : Nat} (h : (Nat.toDigits 10 n).head? = some '0') :
    n = 0 := by
  induction n using Nat.strongRecOn with
  | ind n ih =>
    rcases Nat.lt_or_ge n 10 with hn | hn
    · rw [Nat.toDigits_of_lt_base hn, List.head?_cons, Option.some_inj] at h
      exact Nat.digitChar_eq_zero.mp h
    · rw [Nat.toDigits_of_base_le (by decide) hn,
        List.head?_append_of_ne_nil _ Nat.toDigits_ne_nil] at h
      have hzero := ih (n / 10) (by omega) h
      omega

theorem toNat_of_isDigit {c : Char} (h : c.isDigit) : 48 ≤ c.toNat ∧ c.toNat ≤ 57 :=
  Char.isDigit_iff_toNat.mp h

theorem toDigits_of_isDigit {c : Char} (h : c.isDigit) : Nat.toDigits 10 (c.toNat - 48) = [c] := by
  have hc := toNat_of_isDigit h
  have hlt : c.toNat - 48 < 10 := by omega
  have hchar : Nat.digitChar (c.toNat - 48) = c := by
    have hnat := Nat.toNat_digitChar_of_lt_ten hlt
    exact Char.toNat_inj.mp (by omega)
  rw [Nat.toDigits_of_lt_base hlt, hchar]

theorem ofDigitChars_concat (cs : List Char) (c : Char) :
    Nat.ofDigitChars 10 (cs ++ [c]) 0 = 10 * Nat.ofDigitChars 10 cs 0 + (c.toNat - 48) := by
  rw [Nat.ofDigitChars_append, Nat.ofDigitChars_cons, Nat.ofDigitChars_nil]
  rfl

/-- Digits without a needless zero in front are those that are written for their number. -/
theorem toDigits_ofDigitChars {cs : List Char} (hne : cs ≠ []) (hcs : ∀ c ∈ cs, c.isDigit)
    (hzero : cs.head? = some '0' → cs = ['0']) :
    Nat.toDigits 10 (Nat.ofDigitChars 10 cs 0) = cs := by
  -- numbers are written from their last digit on
  induction cs using List.reverseRecOn with
  | nil => exact absurd rfl hne
  | append_singleton cs c ih =>
    have hc : c.isDigit := hcs c (by simp)
    by_cases hnil : cs = []
    · subst hnil
      rw [ofDigitChars_concat, Nat.ofDigitChars_nil, Nat.mul_zero, Nat.zero_add,
        toDigits_of_isDigit hc, List.nil_append]
    · have hhead : cs.head? ≠ some '0' := by
        intro h
        have hsingle := hzero (by rw [List.head?_append_of_ne_nil _ hnil, h])
        have hlength := congrArg List.length hsingle
        rw [List.length_append] at hlength
        exact hnil (List.eq_nil_of_length_eq_zero (by simpa using hlength))
      have hdigits := ih hnil (fun d hd => hcs d (by simp [hd])) fun h => absurd h hhead
      -- a number that starts with another digit is not zero
      have hpos : 0 < Nat.ofDigitChars 10 cs 0 := by
        refine Nat.pos_of_ne_zero fun h => hhead ?_
        rw [← hdigits, h]
        rfl
      have hlt : c.toNat - 48 < 10 := by
        have hrange := toNat_of_isDigit hc
        omega
      rw [ofDigitChars_concat, ← Nat.toDigits_append_toDigits (by decide) hpos hlt, hdigits,
        toDigits_of_isDigit hc]

end Text

namespace Address

/-- The text of steps with the given digits. -/
def textWith (runs : List String) : String :=
  "root" ++ String.join (runs.map (".children." ++ ·))

/-- Whether digits stand for a position of at most 64 bits. Zeros in front do not count. -/
structure Spells (digits : String) (i : Nat) : Prop where
  nonempty : digits ≠ ""
  isDigit : ∀ c ∈ digits.toList, c.isDigit
  value : Nat.ofDigitChars 10 digits.toList 0 = i
  small : i < UInt64.size

theorem text_eq_textWith (a : Address) : a.text = textWith (a.path.map toString) := by
  rw [text, textWith, List.map_map]
  rfl

/-! ## Segments -/

def segmentsOf (runs : List String) : List (List Char) :=
  runs.flatMap fun digits => ["children".toList, digits.toList]

theorem toList_textWith (runs : List String) :
    (textWith runs).toList = "root".toList ++ (segmentsOf runs).flatMap ('.' :: ·) := by
  have hstep : ∀ digits : String, (".children." ++ digits).toList =
      ["children".toList, digits.toList].flatMap ('.' :: ·) := by
    intro digits
    rw [String.toList_append]
    simp
  rw [textWith, String.toList_append, String.toList_join, List.flatMap_map, segmentsOf,
    List.flatMap_assoc]
  congr 2
  funext digits
  exact hstep digits

theorem segments_textWith {runs : List String} (h : ∀ digits ∈ runs, '.' ∉ digits.toList) :
    Text.segments '.' (textWith runs).toList = "root".toList :: segmentsOf runs := by
  rw [toList_textWith]
  refine Text.segments_flatMap (fun w hw => ?_) (by decide)
  obtain ⟨digits, hdigits, hw⟩ := List.mem_flatMap.mp hw
  simp only [List.mem_cons, List.not_mem_nil, or_false] at hw
  rcases hw with rfl | rfl
  · decide
  · exact h digits hdigits

theorem notMem_of_isDigit {digits : String} (h : ∀ c ∈ digits.toList, c.isDigit) :
    '.' ∉ digits.toList :=
  fun hc => absurd (h '.' hc) (by decide)

theorem segmentsOf_inj {runs runs' : List String} :
    segmentsOf runs = segmentsOf runs' ↔ runs = runs' := by
  refine ⟨fun h => ?_, fun h => h ▸ rfl⟩
  induction runs generalizing runs' with
  | nil =>
    cases runs' with
    | nil => rfl
    | cons digits runs' => cases h
  | cons digits runs ih =>
    cases runs' with
    | nil => cases h
    | cons digits' runs' =>
      simp only [segmentsOf, List.flatMap_cons, List.cons_append, List.nil_append,
        List.cons.injEq, true_and, String.toList_inj] at h
      rw [h.1, ih h.2]

/-- Texts of steps whose digits hold no point have the same digits. -/
theorem textWith_inj {runs runs' : List String} (h : ∀ digits ∈ runs, '.' ∉ digits.toList)
    (h' : ∀ digits ∈ runs', '.' ∉ digits.toList) : textWith runs = textWith runs' ↔ runs = runs' := by
  refine ⟨fun heq => ?_, fun heq => heq ▸ rfl⟩
  have hsegments := segments_textWith h
  rw [heq, segments_textWith h', List.cons.injEq] at hsegments
  exact (segmentsOf_inj.mp hsegments.2).symm

/-! ## Reading -/

theorem pathOfSegments_of_spells {runs : List String} {path : List Nat}
    (h : List.Forall₂ Spells runs path) : pathOfSegments (segmentsOf runs) = .ok path := by
  induction h with
  | nil => rfl
  | @cons digits i runs path hdigits _ ih =>
    have hcons : segmentsOf (digits :: runs) =
        "children".toList :: digits.toList :: segmentsOf runs := rfl
    have hvalue : Text.natOfDigits? digits.toList = some i := by
      refine Text.natOfDigits?_eq_some.mpr ⟨?_, hdigits.isDigit, hdigits.value⟩
      exact fun hnil => hdigits.nonempty (String.toList_eq_nil_iff.mp hnil)
    rw [hcons, pathOfSegments, if_pos rfl]
    simp only [hvalue, if_pos hdigits.small, ih]
    rfl

theorem spells_of_pathOfSegments {ws : List (List Char)} {path : List Nat}
    (h : pathOfSegments ws = .ok path) :
    ∃ runs, ws = segmentsOf runs ∧ List.Forall₂ Spells runs path := by
  fun_induction pathOfSegments ws generalizing path with
  | case1 =>
    cases h
    exact ⟨[], rfl, .nil⟩
  | case2 => cases h
  | case3 => cases h
  | case4 index rest i hindex hsmall ih =>
    obtain ⟨path', hpath, rfl⟩ := Except.map_eq_ok.mp h
    obtain ⟨runs, rfl, hruns⟩ := ih hpath
    obtain ⟨hne, hdigits, hvalue⟩ := Text.natOfDigits?_eq_some.mp hindex
    refine ⟨String.ofList index :: runs, by simp [segmentsOf], .cons ?_ hruns⟩
    exact ⟨by simpa using hne, by simpa using hdigits, by simpa using hvalue, hsmall⟩
  | case5 => cases h
  | case6 => cases h

/-- A run of steps whose digits spell positions holds no point within them. -/
theorem notMem_of_spells {runs : List String} {path : List Nat}
    (h : List.Forall₂ Spells runs path) : ∀ digits ∈ runs, '.' ∉ digits.toList := by
  induction h with
  | nil => nofun
  | cons hdigits _ ih => exact List.forall_mem_cons.mpr ⟨notMem_of_isDigit hdigits.isDigit, ih⟩

/-- A text is read as an address exactly if it consists of steps that spell the positions. -/
theorem parse_eq_ok {text : String} {a : Address} :
    parse text = .ok a ↔ ∃ runs, text = textWith runs ∧ List.Forall₂ Spells runs a.path := by
  constructor
  · intro h
    obtain ⟨first, rest, hsegments, hjoin⟩ := Text.exists_segments '.' text.toList
    rw [parse, hsegments] at h
    by_cases hroot : first = "root".toList
    · simp only [if_pos hroot] at h
      obtain ⟨path, hpath, rfl⟩ := Except.map_eq_ok.mp h
      obtain ⟨runs, rfl, hruns⟩ := spells_of_pathOfSegments hpath
      refine ⟨runs, String.toList_inj.mp ?_, hruns⟩
      rw [toList_textWith, ← hjoin, hroot]
    · simp only [if_neg hroot] at h
      cases h
  · rintro ⟨runs, rfl, hruns⟩
    rw [parse, segments_textWith (notMem_of_spells hruns)]
    simp only [if_true, pathOfSegments_of_spells hruns]
    rfl

/-! ## Printing -/

theorem spells_toString {i : Nat} (h : i < UInt64.size) : Spells (toString i) i := by
  obtain ⟨hne, hdigits, hvalue⟩ := Text.natOfDigits?_eq_some.mp (Text.natOfDigits?_toString i)
  exact ⟨fun hnil => hne (String.toList_eq_nil_iff.mpr hnil), hdigits, hvalue, h⟩

/-- The digits of a position are those that are written for it, unless there is a needless zero in
front of them. -/
theorem Spells.toString_eq_iff {digits : String} {i : Nat} (h : Spells digits i) :
    toString i = digits ↔ (digits.toList.head? = some '0' → digits = "0") := by
  rw [← String.toList_inj, Nat.toString_eq_repr, Nat.toList_repr, ← h.value]
  constructor
  · intro hwritten hhead
    have hzero := Text.eq_zero_of_head?_toDigits (hwritten ▸ hhead)
    rw [hzero] at hwritten
    exact String.toList_inj.mp hwritten.symm
  · intro hzero
    have hne : digits.toList ≠ [] := fun hnil => h.nonempty (String.toList_eq_nil_iff.mp hnil)
    exact Text.toDigits_ofDigitChars hne h.isDigit fun hhead => congrArg String.toList (hzero hhead)

/-- The steps that are written for positions are those that spell them without needless zeros. -/
theorem map_toString_eq_iff {runs : List String} {path : List Nat}
    (h : List.Forall₂ Spells runs path) :
    path.map toString = runs ↔
      ∀ digits ∈ runs, digits.toList.head? = some '0' → digits = "0" := by
  induction h with
  | nil => simp
  | cons hdigits _ ih =>
    rw [List.map_cons, List.cons_eq_cons, hdigits.toString_eq_iff, ih, List.forall_mem_cons]

theorem notMem_of_mem_map_toString {path : List Nat} :
    ∀ digits ∈ path.map toString, '.' ∉ digits.toList := by
  intro digits hdigits
  obtain ⟨i, -, rfl⟩ := List.mem_map.mp hdigits
  exact notMem_of_isDigit fun c hc => Text.isDigit_of_mem_repr hc

/-- An address whose positions have at most 64 bits is read back from its text. -/
theorem parse_text {a : Address} (h : ∀ i ∈ a.path, i < UInt64.size) : parse a.text = .ok a := by
  refine parse_eq_ok.mpr ⟨a.path.map toString, a.text_eq_textWith, ?_⟩
  rw [List.forall₂_map_left_iff, List.forall₂_same]
  exact fun i hi => spells_toString (h i hi)

theorem text_inj {a b : Address} : a.text = b.text ↔ a = b := by
  refine ⟨fun h => ?_, fun h => h ▸ rfl⟩
  rw [text_eq_textWith, text_eq_textWith,
    textWith_inj notMem_of_mem_map_toString notMem_of_mem_map_toString] at h
  exact congrArg Address.mk (Text.toString_injective.list_map h)

/-- Addresses whose positions have at most 64 bits are read back from their texts. What is read as
an address is `root` with a step for each position, whose digits may have zeros in front; without
such zeros, it is the text of the address. -/
theorem texts_spell_addresses :
    (∀ a : Address, (∀ i ∈ a.path, i < UInt64.size) → parse a.text = .ok a) ∧
      (∀ t a, parse t = .ok a ↔
        ∃ runs, t = textWith runs ∧ List.Forall₂ Spells runs a.path) ∧
      (∀ a b : Address, a.text = b.text → a = b) ∧
      ∀ t a runs, parse t = .ok a → t = textWith runs → List.Forall₂ Spells runs a.path →
        (a.text = t ↔ ∀ digits ∈ runs, digits.toList.head? = some '0' → digits = "0") := by
  refine ⟨fun a h => parse_text h, fun t a => parse_eq_ok, fun a b h => text_inj.mp h, ?_⟩
  rintro t a runs - rfl hruns
  rw [text_eq_textWith, textWith_inj notMem_of_mem_map_toString (notMem_of_spells hruns),
    map_toString_eq_iff hruns]

theorem texts_spell_addresses_padded :
    parse "root.children.007.children.0" = .ok ⟨[7, 0]⟩ ∧
      (⟨[7, 0]⟩ : Address).text ≠ "root.children.007.children.0" ∧
      parse (⟨[7, 0]⟩ : Address).text = .ok ⟨[7, 0]⟩ ∧
      (⟨[7, 0]⟩ : Address).text ≠ (⟨[70]⟩ : Address).text := by
  obtain ⟨hback, hspelled, hinj, hreprint⟩ := texts_spell_addresses
  have hpadded : "root.children.007.children.0" = textWith ["007", "0"] := by decide
  have hseven : Spells "007" 7 := ⟨by decide, by simp, by decide, by decide⟩
  have hzero : Spells "0" 0 := ⟨by decide, by simp, by decide, by decide⟩
  have hruns : List.Forall₂ Spells ["007", "0"] [7, 0] := .cons hseven (.cons hzero .nil)
  have hparse : parse "root.children.007.children.0" = .ok ⟨[7, 0]⟩ :=
    (hspelled _ _).mpr ⟨["007", "0"], hpadded, hruns⟩
  refine ⟨hparse, ?_, hback _ (by decide), fun h => absurd (hinj _ _ h) (by decide)⟩
  intro htext
  exact absurd ((hreprint _ _ _ hparse hpadded hruns).mp htext "007" (by simp) rfl) (by decide)

end Address

end CodeIndex
