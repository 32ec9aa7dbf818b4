import CodeIndex.Text.Lines
import Mathlib.Data.List.Basic

/-! # Lines and slices of texts

A text is put together from its lines and their endings in one way only, so that the lines are known
from the text. The lines from one number to another are cut out by skipping those in front and
keeping as many as there are numbers; where one such cut ends the next one goes on.
-/

namespace CodeIndex.Text

/-! ## Lines -/

/-- Whether characters are made of lines. A line ends at a line feed, with at most one carriage
return before it that is not part of the line; the last line may have no ending, if it is not
empty. -/
inductive MadeOf : List Char → List (List Char) → Prop where
  | nothing : MadeOf [] []
  | unended {line : List Char} (hline : '\n' ∉ line) (hne : line ≠ []) : MadeOf line [line]
  | feed {line rest : List Char} {ls : List (List Char)} (hline : '\n' ∉ line)
      (hreturn : line.getLast? ≠ some '\r') (hrest : MadeOf rest ls) :
      MadeOf (line ++ '\n' :: rest) (line :: ls)
  | returnFeed {line rest : List Char} {ls : List (List Char)} (hline : '\n' ∉ line)
      (hrest : MadeOf rest ls) : MadeOf (line ++ '\r' :: '\n' :: rest) (line :: ls)

theorem dropReturn_concat (line : List Char) : dropReturn (line ++ ['\r']) = line := by
  induction line with
  | nil => rfl
  | cons c line ih =>
    have hne : line ++ ['\r'] ≠ [] := by simp
    rw [List.cons_append, dropReturn.eq_3 _ _ (fun _ h => hne h), ih]

theorem dropReturn_of_getLast? {line : List Char} (h : line.getLast? ≠ some '\r') :
    dropReturn line = line := by
  induction line with
  | nil => rfl
  | cons c line ih =>
    cases line with
    | nil =>
      have hc : c ≠ '\r' := by simpa using h
      rw [dropReturn.eq_3 _ _ (fun h' _ => hc h')]
      rfl
    | cons d line =>
      rw [dropReturn.eq_3 _ _ (fun _ h' => List.cons_ne_nil d line h'), ih]
      rwa [List.getLast?_cons_cons] at h

theorem linesFrom_append {front line : List Char} (h : '\n' ∉ line) (rest : List Char) :
    linesFrom front (line ++ '\n' :: rest) =
      dropReturn (front.reverse ++ line) :: linesFrom [] rest := by
  induction line generalizing front with
  | nil => rw [List.nil_append, linesFrom, List.append_nil]
  | cons c line ih =>
    obtain ⟨hc, hline⟩ : '\n' ≠ c ∧ '\n' ∉ line := by simpa using h
    rw [List.cons_append, linesFrom.eq_3 _ _ _ (fun h' => hc h'.symm), ih hline]
    simp

theorem linesFrom_unended {front line : List Char} (h : '\n' ∉ line)
    (hne : front.reverse ++ line ≠ []) : linesFrom front line = [front.reverse ++ line] := by
  induction line generalizing front with
  | nil =>
    rw [List.append_nil] at hne ⊢
    rw [linesFrom, if_neg (by simpa using hne)]
  | cons c line ih =>
    obtain ⟨hc, hline⟩ : '\n' ≠ c ∧ '\n' ∉ line := by simpa using h
    rw [linesFrom.eq_3 _ _ _ (fun h' => hc h'.symm), ih hline (by simp)]
    simp

theorem linesFrom_of_madeOf {cs : List Char} {ls : List (List Char)} (h : MadeOf cs ls) :
    linesFrom [] cs = ls := by
  induction h with
  | nothing => rfl
  | unended hline hne => exact linesFrom_unended hline hne
  | feed hline hreturn _ ih =>
    rw [linesFrom_append hline, List.reverse_nil, List.nil_append,
      dropReturn_of_getLast? hreturn, ih]
  | @returnFeed line rest ls hline _ ih =>
    have hline' : '\n' ∉ line ++ ['\r'] := by simpa using hline
    rw [List.append_cons, linesFrom_append hline', List.reverse_nil, List.nil_append,
      dropReturn_concat, ih]

theorem madeOf_linesFrom (cs : List Char) : MadeOf cs (linesFrom [] cs) := by
  induction hn : cs.length using Nat.strongRecOn generalizing cs with
  | ind n ih =>
    by_cases h : '\n' ∈ cs
    · obtain ⟨line, rest, rfl, hline⟩ := List.eq_append_cons_of_mem h
      have hshorter : rest.length < n := by
        rw [← hn, List.length_append, List.length_cons]
        omega
      have hrest := ih rest.length hshorter rest rfl
      rw [linesFrom_append hline, List.reverse_nil, List.nil_append]
      by_cases hreturn : line.getLast? = some '\r'
      · obtain ⟨line, rfl⟩ := List.getLast?_eq_some_iff.mp hreturn
        rw [dropReturn_concat, List.append_assoc]
        exact .returnFeed (fun hmem => hline (List.mem_append_left _ hmem)) hrest
      · rw [dropReturn_of_getLast? hreturn]
        exact .feed hline hreturn hrest
    · by_cases hne : cs = []
      · rw [hne]
        exact .nothing
      · rw [linesFrom_unended h (by simpa using hne)]
        exact .unended h hne

/-- The lines of a text are the only ones that it is made of. -/
theorem madeOf_iff {text : String} {ls : List (List Char)} :
    MadeOf text.toList ls ↔ ls = (lines text).map String.toList := by
  have hlines : (lines text).map String.toList = linesFrom [] text.toList := by
    simp [lines, Function.comp_def]
  rw [hlines]
  exact ⟨fun h => (linesFrom_of_madeOf h).symm, fun h => h ▸ madeOf_linesFrom _⟩

/-! ## Slices -/

/-- The entries with the numbers from `a` to `b`, where the first one has the number one. -/
def numbered (ls : List α) (a b : Nat) : List α :=
  ((ls.zipIdx 1).filter fun x => a ≤ x.2 ∧ x.2 ≤ b).map (·.1)

theorem zipIdx_between (ls : List α) (k a b : Nat) :
    ((ls.zipIdx k).filter fun x => a ≤ x.2 ∧ x.2 ≤ b).map (·.1) =
      (ls.drop (a - k)).take (b + 1 - max a k) := by
  induction ls generalizing k with
  | nil => simp
  | cons l ls ih =>
    rw [List.zipIdx_cons]
    rcases Nat.lt_or_ge k a with hka | hka
    · have hskip : a - k = a - (k + 1) + 1 := by omega
      have hmax : max a (k + 1) = max a k := by omega
      rw [List.filter_cons_of_neg (by simp; omega), ih, hskip, List.drop_succ_cons, hmax]
    · have hskip : a - k = 0 := by omega
      have hskip' : a - (k + 1) = 0 := by omega
      rw [hskip, List.drop_zero, Nat.max_eq_right hka]
      rcases Nat.lt_or_ge b k with hkb | hkb
      · have hnone : b + 1 - k = 0 := by omega
        have hnone' : b + 1 - max a (k + 1) = 0 := by omega
        rw [List.filter_cons_of_neg (by simp; omega), ih, hnone, hnone', List.take_zero,
          List.take_zero]
      · have hkeep : b + 1 - k = b + 1 - max a (k + 1) + 1 := by omega
        rw [List.filter_cons_of_pos (by simp; omega), List.map_cons, ih, hskip', List.drop_zero,
          hkeep, List.take_succ_cons]

/-- Entries are found under their numbers by skipping those in front. -/
theorem numbered_eq {a : Nat} (ha : 0 < a) (ls : List α) (b : Nat) :
    numbered ls a b = (ls.drop (a - 1)).take (b + 1 - a) := by
  rw [numbered, zipIdx_between, Nat.max_eq_left ha]

theorem length_numbered {a : Nat} (ha : 0 < a) (ls : List α) (b : Nat) :
    (numbered ls a b).length = min b ls.length + 1 - a := by
  rw [numbered_eq ha, List.length_take, List.length_drop]
  omega

/-- Where one stretch of numbers ends the next one goes on. -/
theorem numbered_append {a b c : Nat} (ha : 0 < a) (hab : a ≤ b + 1) (hbc : b ≤ c) (ls : List α) :
    numbered ls a c = numbered ls a b ++ numbered ls (b + 1) c := by
  have hcount : c + 1 - a = (b + 1 - a) + (c + 1 - (b + 1)) := by omega
  have hskip : a - 1 + (b + 1 - a) = b + 1 - 1 := by omega
  rw [numbered_eq ha, numbered_eq ha, numbered_eq b.succ_pos, hcount, List.take_add,
    List.drop_drop, hskip]

theorem numbered_min (ls : List α) {a : Nat} (ha : 0 < a) (b : Nat) :
    numbered ls a (min b ls.length) = numbered ls a b := by
  rw [numbered_eq ha, numbered_eq ha, List.take_eq_take_iff, List.length_drop]
  omega

end CodeIndex.Text
