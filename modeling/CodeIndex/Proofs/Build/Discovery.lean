import CodeIndex.Build.Discovery
import CodeIndex.Proofs.Disk.Folders
import CodeIndex.Proofs.Text.Order
import CodeIndex.Proofs.Tree.AddressText
import Mathlib.Data.List.Sort
import Mathlib.Data.List.TakeWhile

/-! # What is discovered

A walk through a tree of folders finds a file exactly if its name has an indexed extension and no
folder on the way to it is excluded. It reports nothing, finds no file twice, and gives the paths in
the order of their octets, whatever the order in which folders list their entries.
-/

namespace CodeIndex

namespace Path

theorem extension?_of_notMem {name : String} (h : '.' ∉ name.toList) : extension? name = none := by
  have hnil : name.toList.reverse.dropWhile (· ≠ '.') = [] := by
    rw [List.dropWhile_eq_nil_iff]
    intro c hc
    rw [List.mem_reverse] at hc
    exact decide_eq_true fun heq => h (heq ▸ hc)
  simp only [extension?, hnil]

/-- The last dot of a name ends what stands in front of the extension. -/
theorem extension?_of_reverse_eq {name : String} {ext front : List Char}
    (h : name.toList.reverse = ext ++ '.' :: front) (hext : '.' ∉ ext) :
    extension? name = if front = [] then none else some (String.ofList ext.reverse) := by
  have hpos : ∀ c ∈ ext, decide (c ≠ '.') = true := fun c hc =>
    decide_eq_true fun heq => hext (heq ▸ hc)
  rw [extension?, h, List.dropWhile_append_of_pos hpos, List.takeWhile_append_of_pos hpos,
    List.dropWhile_cons_of_neg (by simp), List.takeWhile_cons_of_neg (by simp), List.append_nil]
  cases front <;> rfl

/-- The extension of a name is what follows its last dot, where something stands in front of that
dot. -/
theorem extension?_eq_some_iff {name ext : String} :
    extension? name = some ext ↔
      ∃ stem, name = stem ++ "." ++ ext ∧ stem ≠ "" ∧ '.' ∉ ext.toList := by
  constructor
  · intro h
    by_cases hdot : '.' ∈ name.toList.reverse
    · obtain ⟨ext', front, hname, hext'⟩ := List.eq_append_cons_of_mem hdot
      rw [extension?_of_reverse_eq hname hext'] at h
      by_cases hfront : front = []
      · rw [if_pos hfront] at h
        cases h
      · rw [if_neg hfront, Option.some_inj] at h
        subst h
        refine ⟨String.ofList front.reverse, ?_, by simpa using hfront, by simpa using hext'⟩
        rw [← String.toList_inj, ← List.reverse_inj, hname]
        simp
    · rw [extension?_of_notMem (by simpa using hdot)] at h
      cases h
  · rintro ⟨stem, rfl, hstem, hext⟩
    have hreverse : (stem ++ "." ++ ext).toList.reverse =
        ext.toList.reverse ++ '.' :: stem.toList.reverse := by
      simp
    rw [extension?_of_reverse_eq hreverse (by simpa using hext), if_neg (by simpa using hstem),
      List.reverse_reverse, String.ofList_toList]

end Path

namespace Discovery

/-- Whether names are those of a path: there is one, and none of them holds a slash. -/
structure MakePath (names : List String) : Prop where
  ne_nil : names ≠ []
  slash_notMem : ∀ name ∈ names, '/' ∉ name.toList

theorem toList_pathOf_cons (name : String) (names : List String) :
    (pathOf (name :: names)).toList =
      name.toList ++ (names.map String.toList).flatMap ('/' :: ·) := by
  induction names generalizing name with
  | nil => simp [pathOf]
  | cons next names ih =>
    have hnext : ("/".intercalate (next :: names)).toList =
        next.toList ++ (names.map String.toList).flatMap ('/' :: ·) := ih next
    rw [pathOf, String.intercalate_cons_cons, String.toList_append, String.toList_append, hnext]
    simp

theorem names_pathOf {names : List String} (h : MakePath names) :
    Path.names (pathOf names) = names := by
  obtain ⟨name, rest, rfl⟩ := List.exists_cons_of_ne_nil h.ne_nil
  obtain ⟨hname, hrest⟩ := List.forall_mem_cons.mp h.slash_notMem
  have hsegments : Text.segments '/' (pathOf (name :: rest)).toList =
      name.toList :: rest.map String.toList := by
    rw [toList_pathOf_cons]
    exact Text.segments_flatMap (by simpa using hrest) hname
  rw [Path.names, hsegments]
  simp

/-! ## Indexed files -/

/-- Whether names lead to a file that settings want indexed: something stands in front of the last
dot of its name, one of the extensions stands behind it, and no folder on the way to the file has an
excluded name. -/
structure IsIndexed (s : Settings) (e : Entry) (names : List String) : Prop where
  holdsFile : e.HoldsFile names
  extension : ∃ stem ext, names.getLast? = some (stem ++ "." ++ ext) ∧ stem ≠ "" ∧
    '.' ∉ ext.toList ∧ ext ∈ s.extensions
  folders : ∀ folder ∈ names.dropLast, folder ∉ s.excludedDirs

theorem isIndexed_folder_iff {s : Settings} {es : List (String × Entry)}
    (h : (es.map (·.1)).Nodup) {names : List String} :
    IsIndexed s (.folder es) names ↔ ∃ name e below, names = name :: below ∧ (name, e) ∈ es ∧
      IsIndexed s (.folder [(name, e)]) (name :: below) := by
  constructor
  · rintro ⟨hfile, hextension, hfolders⟩
    cases names with
    | nil => exact absurd hfile (Entry.not_holdsFile_folder_nil es)
    | cons name below =>
      obtain ⟨e, he, hbelow⟩ := (Entry.holdsFile_folder_cons h).mp hfile
      refine ⟨name, e, below, rfl, he, ?_, hextension, hfolders⟩
      exact Entry.holdsFile_singleton.mpr hbelow
  · rintro ⟨name, e, below, rfl, he, hfile, hextension, hfolders⟩
    have hbelow := Entry.holdsFile_singleton.mp hfile
    exact ⟨(Entry.holdsFile_folder_cons h).mpr ⟨e, he, hbelow⟩, hextension, hfolders⟩

theorem IsIndexed.makePath {s : Settings} {es : List (String × Entry)}
    (htree : (Entry.folder es).IsTree) {names : List String} (h : IsIndexed s (.folder es) names) :
    MakePath names := by
  refine ⟨?_, h.holdsFile.slash_notMem htree⟩
  rintro rfl
  exact Entry.not_holdsFile_folder_nil es h.holdsFile

theorem IsIndexed.congr {s : Settings} {e e' : Entry}
    (h : ∀ names, e'.HoldsFile names ↔ e.HoldsFile names) (names : List String) :
    IsIndexed s e' names ↔ IsIndexed s e names :=
  ⟨fun hi => ⟨(h names).mp hi.holdsFile, hi.extension, hi.folders⟩,
    fun hi => ⟨(h names).mpr hi.holdsFile, hi.extension, hi.folders⟩⟩

/-- A file below a folder is indexed if it is indexed there and the folder is not excluded. -/
theorem isIndexed_below_iff {s : Settings} {name : String} {es : List (String × Entry)}
    {below : List String} :
    IsIndexed s (.folder [(name, .folder es)]) (name :: below) ↔
      name ∉ s.excludedDirs ∧ IsIndexed s (.folder es) below := by
  cases below with
  | nil =>
    refine iff_of_false (fun h => ?_) fun h => Entry.not_holdsFile_folder_nil es h.2.holdsFile
    exact Entry.not_holdsFile_folder_nil es (Entry.holdsFile_singleton.mp h.holdsFile)
  | cons next below =>
    constructor
    · rintro ⟨hfile, hextension, hfolders⟩
      rw [List.getLast?_cons_cons] at hextension
      rw [List.dropLast_cons_cons, List.forall_mem_cons] at hfolders
      exact ⟨hfolders.1, Entry.holdsFile_singleton.mp hfile, hextension, hfolders.2⟩
    · rintro ⟨hname, hfile, hextension, hfolders⟩
      refine ⟨Entry.holdsFile_singleton.mpr hfile, ?_, ?_⟩
      · rwa [List.getLast?_cons_cons]
      · rw [List.dropLast_cons_cons, List.forall_mem_cons]
        exact ⟨hname, hfolders⟩

/-! ## Findings -/

/-- Findings of files below `here`, each once, under the names that have a property. -/
structure Finds (found : List Finding) (here : List String) (p : List String → Prop) : Prop where
  mem : ∀ x, x ∈ found ↔ ∃ names, x = .file (here ++ names) ∧ p names
  nodup : found.Nodup

theorem Finds.congr {found : List Finding} {here : List String} {p q : List String → Prop}
    (h : Finds found here p) (hpq : ∀ names, p names ↔ q names) : Finds found here q := by
  have heq : p = q := funext fun names => propext (hpq names)
  exact heq ▸ h

theorem finds_nil (here : List String) {p : List String → Prop} (h : ∀ names, ¬ p names) :
    Finds [] here p where
  mem x := by simp [h]
  nodup := List.nodup_nil

/-- What is found in a folder is what is found under each of its names. -/
theorem finds_inNameOrder {here : List String} {es : List (String × Entry)}
    (hnodup : (es.map (·.1)).Nodup) {found : String → Entry → List Finding}
    {p : String → Entry → List String → Prop}
    (h : ∀ x ∈ es, Finds (found x.1 x.2) (here ++ [x.1]) (p x.1 x.2)) :
    Finds (inNameOrder (es.map fun x => (x.1, found x.1 x.2))) here fun names =>
      ∃ name e below, names = name :: below ∧ (name, e) ∈ es ∧ p name e below := by
  have hperm : (inNameOrder (es.map fun x => (x.1, found x.1 x.2))).Perm
      (es.flatMap fun x => found x.1 x.2) := by
    have hsorted := (List.mergeSort_perm (es.map fun x => (x.1, found x.1 x.2))
      fun a b => a.1 ≤ b.1).flatMap_right (·.2)
    rwa [List.flatMap_map] at hsorted
  constructor
  · intro x
    rw [hperm.mem_iff, List.mem_flatMap]
    constructor
    · rintro ⟨⟨name, e⟩, he, hx⟩
      obtain ⟨below, rfl, hp⟩ := ((h _ he).mem x).mp hx
      exact ⟨name :: below, by simp, name, e, below, rfl, he, hp⟩
    · rintro ⟨-, rfl, name, e, below, rfl, he, hp⟩
      exact ⟨(name, e), he, ((h _ he).mem _).mpr ⟨below, by simp, hp⟩⟩
  · rw [hperm.nodup_iff, List.nodup_flatMap]
    refine ⟨fun x hx => (h x hx).nodup, ?_⟩
    -- what is found under different names differs in them
    refine (List.pairwise_map.mp hnodup).imp_of_mem fun {x y} hx hy hne => ?_
    intro f hfx hfy
    obtain ⟨below, rfl, -⟩ := ((h x hx).mem f).mp hfx
    obtain ⟨below', heq, -⟩ := ((h y hy).mem _).mp hfy
    rw [Finding.file.injEq, List.append_assoc, List.append_assoc,
      List.append_cancel_left_eq] at heq
    exact hne (List.cons.inj heq).1

namespace Walk

variable (w : Walk)

theorem indexes_iff {name : String} :
    w.indexes name ↔ ∃ stem ext, name = stem ++ "." ++ ext ∧ stem ≠ "" ∧ '.' ∉ ext.toList ∧
      ext ∈ w.settings.extensions := by
  simp only [indexes, Option.any_eq_true, Settings.indexes, List.contains_iff_mem,
    Path.extension?_eq_some_iff]
  constructor
  · rintro ⟨ext, ⟨stem, rfl, hstem, hdot⟩, hext⟩
    exact ⟨stem, ext, rfl, hstem, hdot, hext⟩
  · rintro ⟨stem, ext, rfl, hstem, hdot, hext⟩
    exact ⟨ext, ⟨stem, rfl, hstem, hdot⟩, hext⟩

theorem isIndexed_regular_iff {e : Entry} (h : e.isRegular) {name : String} {below : List String} :
    IsIndexed w.settings (.folder [(name, e)]) (name :: below) ↔
      below = [] ∧ w.indexes name := by
  rw [indexes_iff]
  constructor
  · rintro ⟨hfile, hextension, -⟩
    obtain rfl := (Entry.holdsFile_of_isRegular h).mp (Entry.holdsFile_singleton.mp hfile)
    simpa using hextension
  · rintro ⟨rfl, hextension⟩
    refine ⟨Entry.holdsFile_singleton.mpr ((Entry.holdsFile_of_isRegular h).mpr rfl), ?_, nofun⟩
    simpa using hextension

theorem entriesFindings_eq_map (enter : Trail → List (String × Entry) → List Finding)
    (here : Place) (trail : Trail) (es : List (String × Entry)) :
    w.entriesFindings enter here trail es =
      es.map fun x => (x.1, w.entryFindings enter here trail x.1 x.2) := by
  induction es with
  | nil => rw [entriesFindings, List.map_nil]
  | cons x es ih => rw [entriesFindings, ih, List.map_cons]

theorem finds_fileFindings {e : Entry} (h : e.isRegular) (here : List String) (name : String) :
    Finds (w.fileFindings (here ++ [name]) name) (here ++ [name]) fun below =>
      IsIndexed w.settings (.folder [(name, e)]) (name :: below) := by
  refine Finds.congr ?_ fun below => (w.isIndexed_regular_iff h).symm
  unfold fileFindings
  by_cases hname : w.indexes name
  · rw [if_pos hname]
    exact ⟨by simp [hname], List.nodup_singleton _⟩
  · rw [if_neg hname]
    exact finds_nil _ fun _ h => hname h.2

variable (enter : Trail → List (String × Entry) → List Finding)

theorem entryFindings_of_isRegular {e : Entry} (h : e.isRegular) (here : Place) (trail : Trail)
    (name : String) : w.entryFindings enter here trail name e =
      w.fileFindings (here.names ++ [name]) name := by
  cases e with
  | file _ | database _ | program _ => rw [entryFindings] <;> nofun
  | link _ | folder _ | device => cases h

/-- What is found in the entries of a folder, given what is found in each of them. -/
theorem finds_entriesFindings {here : Place} {trail : Trail} {es : List (String × Entry)}
    (hnodup : (es.map (·.1)).Nodup)
    (h : ∀ x ∈ es, Finds (w.entryFindings enter here trail x.1 x.2) (here.names ++ [x.1])
      fun below => IsIndexed w.settings (.folder [x]) (x.1 :: below)) :
    Finds (inNameOrder (w.entriesFindings enter here trail es)) here.names
      (IsIndexed w.settings (.folder es)) := by
  rw [entriesFindings_eq_map]
  exact (finds_inNameOrder hnodup h).congr fun names => (isIndexed_folder_iff hnodup).symm

/-- In a tree, exactly the indexed files are found. -/
theorem finds_entryFindings {e : Entry} (h : e.IsTree) (here : Place) (trail : Trail)
    (name : String) :
    Finds (w.entryFindings enter here trail name e) (here.names ++ [name]) fun below =>
      IsIndexed w.settings (.folder [(name, e)]) (name :: below) := by
  -- folders are entered from everywhere, so the place is general
  induction h generalizing here trail name with
  | @regular e h =>
    rw [w.entryFindings_of_isRegular enter h]
    exact w.finds_fileFindings h here.names name
  | @folder es hnodup _ _ ih =>
    refine Finds.congr ?_ fun below => isIndexed_below_iff.symm
    rw [entryFindings]
    by_cases hname : w.settings.excludes name
    · rw [if_pos hname]
      exact finds_nil _ fun _ h => h.1 (List.contains_iff_mem.mp hname)
    · rw [if_neg hname]
      refine (w.finds_entriesFindings enter hnodup fun x hx => ih x hx _ _ x.1).congr fun below => ?_
      exact (and_iff_right fun h => hname (List.contains_iff_mem.mpr h)).symm

end Walk

/-! ## Paths of what is found -/

section

variable {found : List Finding} {p : List String → Prop} (h : Finds found [] p)

include h

theorem failures_ofFindings : (ofFindings found).failures = [] := by
  refine List.filterMap_eq_nil_iff.mpr fun x hx => ?_
  obtain ⟨names, rfl, -⟩ := (h.mem x).mp hx
  rfl

theorem mem_files_ofFindings {path : String} :
    path ∈ (ofFindings found).files ↔ ∃ names, p names ∧ path = pathOf names := by
  rw [ofFindings, List.mem_mergeSort, List.mem_filterMap]
  constructor
  · rintro ⟨x, hx, hpath⟩
    obtain ⟨names, rfl, hp⟩ := (h.mem x).mp hx
    exact ⟨names, hp, (Option.some.inj hpath).symm⟩
  · rintro ⟨names, hp, rfl⟩
    exact ⟨.file names, (h.mem _).mpr ⟨names, rfl, hp⟩, rfl⟩

/-- Paths come in strictly increasing order. -/
theorem pairwise_files_ofFindings (hp : ∀ names, p names → MakePath names) :
    (ofFindings found).files.Pairwise (· < ·) := by
  have hle : (ofFindings found).files.Pairwise (· ≤ ·) := by
    have htrans : ∀ a b c : String, decide (a ≤ b) → decide (b ≤ c) → decide (a ≤ c) := by
      simpa using fun a b c => le_trans
    have htotal : ∀ a b : String, decide (a ≤ b) || decide (b ≤ a) := by
      simpa using le_total
    have hsorted := List.pairwise_mergeSort htrans htotal (found.filterMap Finding.file?)
    simpa [ofFindings] using hsorted
  have hnodup : (ofFindings found).files.Nodup := by
    rw [ofFindings, (List.mergeSort_perm _ _).nodup_iff]
    refine List.pairwise_filterMap.mpr (h.nodup.imp_of_mem fun {x y} hx hy hne => ?_)
    obtain ⟨names, rfl, hnames⟩ := (h.mem x).mp hx
    obtain ⟨names', rfl, hnames'⟩ := (h.mem y).mp hy
    rintro path hpath path' hpath' rfl
    have heq : pathOf names = pathOf names' := Option.some.inj (hpath.trans hpath'.symm)
    have hback := names_pathOf (hp names hnames)
    rw [heq, names_pathOf (hp names' hnames')] at hback
    exact hne (by rw [hback])
  exact (hle.and hnodup).imp fun h => lt_of_le_of_ne h.1 h.2

/-- What is discovered depends on nothing but the names of the files that are found. -/
theorem ofFindings_eq (hp : ∀ names, p names → MakePath names) {found' : List Finding}
    (h' : Finds found' [] p) : ofFindings found = ofFindings found' := by
  have hfiles : (ofFindings found).files = (ofFindings found').files := by
    refine (pairwise_files_ofFindings h hp).eq_of_mem_iff (pairwise_files_ofFindings h' hp) ?_
    intro path
    rw [mem_files_ofFindings h, mem_files_ofFindings h']
  have hfailures : (ofFindings found).failures = (ofFindings found').failures := by
    rw [failures_ofFindings h, failures_ofFindings h']
  rw [ofFindings, ofFindings, Discovery.mk.injEq]
  exact ⟨hfiles, hfailures⟩

end

end Discovery

namespace Disk

open Discovery

variable (d : Disk) (settings : Settings) (cwd : Location) (repository : String)

/-- A walk through a repository finds its indexed files. -/
theorem exists_discover {location : Location} {entries : List (String × Entry)}
    (hlist : d.list cwd repository = .ok (location, entries))
    (htree : (Entry.folder entries).IsTree) :
    ∃ found, d.discover settings cwd repository = .ok (.ofFindings found) ∧
      Finds found [] (IsIndexed settings (.folder entries)) := by
  obtain ⟨hnodup, -, hbelow⟩ := Entry.isTree_folder_iff.mp htree
  let w : Walk := ⟨settings, d, cwd, repository⟩
  refine ⟨w.findings (d.root.folderCount + 1) [⟨[], location⟩] entries, ?_, ?_⟩
  · rw [discover, hlist]
  · rw [Walk.findings]
    exact w.finds_entriesFindings _ hnodup fun x hx => w.finds_entryFindings _ (hbelow x hx) _ _ _

/-- In a tree of files, exactly the paths of the indexed files are discovered, in strictly
increasing order of their octets, and nothing is reported. The order in which folders list their
entries makes no difference. -/
theorem discovers_indexed_files {location : Location} {entries : List (String × Entry)}
    (hlist : d.list cwd repository = .ok (location, entries))
    (htree : (Entry.folder entries).IsTree) :
    ∃ found, d.discover settings cwd repository = .ok found ∧ found.failures = [] ∧
      found.files.Pairwise (fun path path' => Text.octets path < Text.octets path') ∧
      (∀ path, path ∈ found.files ↔
        ∃ names, IsIndexed settings (.folder entries) names ∧ path = "/".intercalate names) ∧
      ∀ (d' : Disk) (cwd' : Location) (repository' : String) (location' : Location)
        (entries' : List (String × Entry)),
        d'.list cwd' repository' = .ok (location', entries') →
        Entry.Relisted (.folder entries) (.folder entries') →
        d'.discover settings cwd' repository' = .ok found := by
  obtain ⟨found, hdiscover, hfound⟩ := d.exists_discover settings cwd repository hlist htree
  have hnames : ∀ names, IsIndexed settings (.folder entries) names → MakePath names :=
    fun _ h => h.makePath htree
  refine ⟨.ofFindings found, hdiscover, failures_ofFindings hfound, ?_, ?_, ?_⟩
  · exact (pairwise_files_ofFindings hfound hnames).imp Text.octets_lt
  · exact fun path => mem_files_ofFindings hfound
  · intro d' cwd' repository' location' entries' hlist' hrelisted
    obtain ⟨htree', hfiles⟩ := hrelisted.isTree_and_holdsFile htree
    obtain ⟨found', hdiscover', hfound'⟩ :=
      d'.exists_discover settings cwd' repository' hlist' htree'
    rw [hdiscover', ofFindings_eq hfound hnames (hfound'.congr (IsIndexed.congr hfiles))]

-- the repository bears an excluded name itself, and so does one of its files; `.rb` has no
-- extension, and the path of the nested file comes after `b.rb` though the walk meets it first
theorem discovers_indexed_files_reversed :
    ∃ (entries entries' : List (String × Entry)) (settings : Settings),
      settings.extensions = ["rb"] ∧ settings.excludedDirs = ["vendor", "tmp.rb"] ∧
      entries.map (·.1) = [".rb", "b", "b.rb", "tmp.rb"] ∧
      (Entry.folder entries).HoldsFile ["b", "vendor", "c.rb"] ∧
      (Entry.folder entries).IsTree ∧ Entry.Relisted (.folder entries) (.folder entries') ∧
      entries'.map (·.1) = ["tmp.rb", "b.rb", "b", ".rb"] ∧
      discover ⟨.folder [("vendor", .folder entries)]⟩ settings [] "/vendor" =
        .ok { files := ["b.rb", "b/a.rb", "tmp.rb"] } ∧
      discover ⟨.folder [("vendor", .folder entries')]⟩ settings [] "/vendor" =
        .ok { files := ["b.rb", "b/a.rb", "tmp.rb"] } := by
  let file : Entry := .file []
  let below : List (String × Entry) := [("a.rb", file), ("vendor", .folder [("c.rb", file)])]
  let entries : List (String × Entry) :=
    [(".rb", file), ("b", .folder below), ("b.rb", file), ("tmp.rb", file)]
  let entries' : List (String × Entry) :=
    [("tmp.rb", file), ("b.rb", file), ("b", .folder below.reverse), (".rb", file)]
  let settings : Settings := { extensions := ["rb"], excludedDirs := ["vendor", "tmp.rb"] }
  have hlist : ∀ es, list ⟨.folder [("vendor", .folder es)]⟩ [] "/vendor" =
      .ok (["vendor"], es) := by
    intro es
    have hnames : Path.names "/vendor" = ["", "vendor"] := by decide
    have hsize : "vendor".utf8ByteSize ≤ 255 := by decide
    have hlocate : locate ⟨.folder [("vendor", .folder es)]⟩ [] "/vendor" =
        .ok (["vendor"], .folder es) := by
      rw [locate, if_neg (by decide), if_neg (by decide), if_neg (by decide),
        if_pos (by decide), hnames]
      simp [follow, Entry.at?, Entry.entries, maxLinks, maxName, hsize]
    rw [list, hlocate]
    rfl
  have htree : (Entry.folder entries).IsTree := by
    have hfile : file.IsTree := .regular rfl
    simp [entries, below, Entry.isTree_folder_iff, hfile]
  have hrelisted : Entry.Relisted (.folder entries) (.folder entries') := by
    let pairs : List (String × Entry × Entry) := [(".rb", file, file),
      ("b", .folder below, .folder below.reverse), ("b.rb", file, file), ("tmp.rb", file, file)]
    have hbelow : Entry.Relisted (.folder below) (.folder below.reverse) :=
      .of_perm (List.reverse_perm below).symm
    have hreverse : entries'.Perm (pairs.map fun x => (x.1, x.2.2)) :=
      List.reverse_perm (pairs.map fun x : String × Entry × Entry => (x.1, x.2.2))
    refine .folder pairs (.refl _) hreverse ?_
    simp [pairs, hbelow, Entry.Relisted.same]
  have hdiscover : discover ⟨.folder [("vendor", .folder entries)]⟩ settings [] "/vendor" =
      .ok { files := ["b.rb", "b/a.rb", "tmp.rb"] } := by
    have hextension : ["tmp.rb", "b.rb", "a.rb", ".rb"].map Path.extension? =
        [some "rb", some "rb", some "rb", none] := by decide
    simp only [List.map_cons, List.cons.injEq] at hextension
    rw [discover, hlist]
    simp [ofFindings, Walk.findings, Walk.entriesFindings, Walk.entryFindings, inNameOrder,
      List.mergeSort, List.MergeSort.Internal.splitInTwo, Walk.fileFindings, Walk.indexes,
      Settings.excludes, Settings.indexes, Finding.file?, Finding.failure?, pathOf, hextension,
      entries, below, file, settings]
  obtain ⟨found, hfound, -, -, -, hsame⟩ :=
    discovers_indexed_files _ settings [] "/vendor" (hlist entries) htree
  have hdiscover' := hsame _ [] "/vendor" _ _ (hlist entries') hrelisted
  rw [hdiscover] at hfound
  cases hfound
  exact ⟨entries, entries', settings, rfl, rfl, rfl, ⟨file, rfl, rfl⟩, htree, hrelisted, rfl,
    hdiscover, hdiscover'⟩

end Disk

end CodeIndex
