import CodeIndex.Proofs.Disk.Databases
import CodeIndex.Proofs.Repeated
import Mathlib.Data.List.Nodup
import Mathlib.Data.List.Perm.Basic

/-! # Folders of files

A folder that holds nothing but files and such folders is a tree. Which names lead to a file in it
does not depend on the order in which its folders list their entries.
-/

namespace CodeIndex

namespace Entry

/-- Whether an entry is a file with content of its own. -/
def isRegular : Entry → Bool
  | file _ | database _ | program _ => true
  | _ => false

/-- An entry that consists of files and folders. Names in a folder are distinct and hold no
slash. -/
inductive IsTree : Entry → Prop where
  | regular {e : Entry} (h : e.isRegular) : IsTree e
  | folder {es : List (String × Entry)} (hnodup : (es.map (·.1)).Nodup)
      (hslash : ∀ x ∈ es, '/' ∉ x.1.toList) (hbelow : ∀ x ∈ es, IsTree x.2) :
      IsTree (folder es)

/-- Two entries that are the same but for the order in which folders list what they hold. -/
inductive Relisted : Entry → Entry → Prop where
  | same (e : Entry) : Relisted e e
  | folder (pairs : List (String × Entry × Entry)) {es es' : List (String × Entry)}
      (h : es.Perm (pairs.map fun x => (x.1, x.2.1)))
      (h' : es'.Perm (pairs.map fun x => (x.1, x.2.2)))
      (hbelow : ∀ x ∈ pairs, Relisted x.2.1 x.2.2) : Relisted (folder es) (folder es')

def HoldsFile (e : Entry) (names : List String) : Prop :=
  ∃ f, e.at? names = some f ∧ f.isRegular

theorem isTree_folder_iff {es : List (String × Entry)} :
    (folder es).IsTree ↔
      (es.map (·.1)).Nodup ∧ (∀ x ∈ es, '/' ∉ x.1.toList) ∧ ∀ x ∈ es, x.2.IsTree := by
  constructor
  · intro h
    cases h with
    | regular h => cases h
    | folder hnodup hslash hbelow => exact ⟨hnodup, hslash, hbelow⟩
  · exact fun h => .folder h.1 h.2.1 h.2.2

theorem holdsFile_of_isRegular {e : Entry} (h : e.isRegular) {names : List String} :
    e.HoldsFile names ↔ names = [] := by
  cases names with
  | nil => exact ⟨fun _ => rfl, fun _ => ⟨e, rfl, h⟩⟩
  | cons name names =>
    have hentries : e.entries = [] := by
      cases e with
      | file _ | database _ | program _ => rfl
      | link _ | folder _ | device => cases h
    simp [HoldsFile, at?_cons, hentries]

theorem not_holdsFile_folder_nil (es : List (String × Entry)) : ¬ (folder es).HoldsFile [] := by
  rintro ⟨f, hf, hregular⟩
  cases hf
  cases hregular

theorem holdsFile_folder_cons {es : List (String × Entry)} (h : (es.map (·.1)).Nodup)
    {name : String} {names : List String} :
    (folder es).HoldsFile (name :: names) ↔ ∃ e, (name, e) ∈ es ∧ e.HoldsFile names := by
  simp only [HoldsFile, at?_cons, entries_folder, Option.bind_eq_some_iff,
    lookup_eq_some_iff_mem h]
  constructor
  · rintro ⟨f, ⟨e, he, hf⟩, hregular⟩
    exact ⟨e, he, f, hf, hregular⟩
  · rintro ⟨e, he, f, hf, hregular⟩
    exact ⟨f, ⟨e, he, hf⟩, hregular⟩

theorem holdsFile_singleton {e : Entry} {name : String} {names : List String} :
    (folder [(name, e)]).HoldsFile (name :: names) ↔ e.HoldsFile names := by
  rw [holdsFile_folder_cons (by simp)]
  simp

/-- No name on the way to a file of a tree holds a slash. -/
theorem HoldsFile.slash_notMem {e : Entry} (h : e.IsTree) {names : List String}
    (hfile : e.HoldsFile names) : ∀ name ∈ names, '/' ∉ name.toList := by
  induction h generalizing names with
  | regular h =>
    rw [holdsFile_of_isRegular h] at hfile
    subst hfile
    nofun
  | folder hnodup hslash _ ih =>
    cases names with
    | nil => nofun
    | cons name names =>
      obtain ⟨e, he, hbelow⟩ := (holdsFile_folder_cons hnodup).mp hfile
      exact List.forall_mem_cons.mpr ⟨hslash _ he, ih _ he hbelow⟩

theorem Relisted.of_perm {es es' : List (String × Entry)} (h : es.Perm es') :
    Relisted (.folder es) (.folder es') := by
  have hsame : es = es.map fun x => (x.1, x.2) := (List.map_id es).symm
  refine .folder (es.map fun x => (x.1, x.2, x.2)) ?_ ?_ fun x hx => ?_
  · rw [List.map_map]
    exact .of_eq hsame
  · rw [List.map_map]
    exact h.symm.trans (.of_eq hsame)
  · obtain ⟨y, -, rfl⟩ := List.mem_map.mp hx
    exact .same y.2

/-- Folders that list their entries in another order make a tree of the same files. -/
theorem Relisted.isTree_and_holdsFile {e e' : Entry} (h : Relisted e e') (htree : e.IsTree) :
    e'.IsTree ∧ ∀ names, e'.HoldsFile names ↔ e.HoldsFile names := by
  induction h with
  | same e => exact ⟨htree, fun _ => Iff.rfl⟩
  | @folder pairs es es' h h' _ ih =>
    obtain ⟨hnodup, hslash, htrees⟩ := isTree_folder_iff.mp htree
    have hnames : (es'.map (·.1)).Perm (es.map (·.1)) := by
      have hes := h.map (·.1)
      have hes' := h'.map (·.1)
      rw [List.map_map] at hes hes'
      exact hes'.trans hes.symm
    have hnodup' : (es'.map (·.1)).Nodup := hnames.nodup_iff.mpr hnodup
    have hmem : ∀ x ∈ pairs, (x.1, x.2.1) ∈ es := fun x hx =>
      h.mem_iff.mpr (List.mem_map.mpr ⟨x, hx, rfl⟩)
    have hbelow : ∀ x ∈ pairs, x.2.2.IsTree ∧
        ∀ names, x.2.2.HoldsFile names ↔ x.2.1.HoldsFile names := fun x hx =>
      ih x hx (htrees _ (hmem x hx))
    have hpair : ∀ y ∈ es', ∃ x ∈ pairs, (x.1, x.2.2) = y := fun y hy =>
      List.mem_map.mp (h'.mem_iff.mp hy)
    refine ⟨isTree_folder_iff.mpr ⟨hnodup', fun y hy => ?_, fun y hy => ?_⟩, fun names => ?_⟩
    · obtain ⟨x, hx, rfl⟩ := hpair y hy
      exact hslash (x.1, x.2.1) (hmem x hx)
    · obtain ⟨x, hx, rfl⟩ := hpair y hy
      exact (hbelow x hx).1
    · cases names with
      | nil => exact iff_of_false (not_holdsFile_folder_nil es') (not_holdsFile_folder_nil es)
      | cons name names =>
        rw [holdsFile_folder_cons hnodup', holdsFile_folder_cons hnodup]
        constructor
        · rintro ⟨e', he', hfile⟩
          obtain ⟨x, hx, heq⟩ := hpair _ he'
          cases heq
          exact ⟨x.2.1, hmem x hx, ((hbelow x hx).2 names).mp hfile⟩
        · rintro ⟨e, he, hfile⟩
          obtain ⟨x, hx, heq⟩ := List.mem_map.mp (h.mem_iff.mp he)
          cases heq
          exact ⟨x.2.2, h'.mem_iff.mpr (List.mem_map.mpr ⟨x, hx, rfl⟩),
            ((hbelow x hx).2 names).mpr hfile⟩

end Entry

end CodeIndex
