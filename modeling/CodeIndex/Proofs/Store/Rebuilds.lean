import CodeIndex.Proofs.Disk.Databases
import CodeIndex.Proofs.Except
import CodeIndex.Proofs.Repeated
import CodeIndex.Proofs.Store.Calls
import CodeIndex.Disk.StoredIndex
import CodeIndex.Store.Memory
import Mathlib.Data.List.Induction

/-! # Rebuilds

A rebuild is refused for a repeated path and for nothing else. It looks at none of what a store
holds, so what is read afterwards depends on the files of the last rebuild that was not refused,
whatever came before it.
-/

namespace CodeIndex

/-! ## Repeated paths -/

theorem checkDistinctPaths_eq_ok {files : List FileExtraction} :
    checkDistinctPaths files = .ok () ↔ (files.map (·.path)).Nodup := by
  have hnone : firstRepeated? [] (files.map (·.path)) = none ↔ (files.map (·.path)).Nodup := by
    rw [firstRepeated?_eq_none]
    simp
  rw [← hnone, checkDistinctPaths]
  cases firstRepeated? [] (files.map (·.path)) with
  | none => exact ⟨fun _ => rfl, fun _ => rfl⟩
  | some p => exact ⟨nofun, nofun⟩

/-- The file of a refusal is the first whose path a file before it has. -/
theorem of_checkDistinctPaths {files : List FileExtraction} {e : Error}
    (h : checkDistinctPaths files = .error e) :
    ∃ before f rest, files = before ++ f :: rest ∧ (before.map (·.path)).Nodup ∧
      f.path ∈ before.map (·.path) ∧ e = { cause := .duplicatePath, file := some f.path } := by
  unfold checkDistinctPaths at h
  cases hp : firstRepeated? [] (files.map (·.path)) with
  | none =>
    rw [hp] at h
    cases h
  | some p =>
    rw [hp] at h
    cases h
    obtain ⟨paths, rest, hfiles, hnodup, -, hmem⟩ := firstRepeated?_eq_some hp
    obtain ⟨before, tail, rfl, rfl, htail⟩ := List.map_eq_append_iff.mp hfiles
    obtain ⟨f, rest, rfl, rfl, -⟩ := List.map_eq_cons_iff.mp htail
    exact ⟨before, f, rest, rfl, hnodup, hmem.resolve_left List.not_mem_nil, rfl⟩

/-! ## Histories -/

section Histories

variable [IndexStore σ]

def IndexStore.after (s : σ) (calls : List StoreCall) : σ :=
  calls.foldl (fun s c => (c.perform s).1) s

theorem IndexStore.after_concat (s : σ) (calls : List StoreCall) (c : StoreCall) :
    after s (calls ++ [c]) = (c.perform (after s calls)).1 := by
  rw [after, List.foldl_append]
  rfl

/-- The files of a rebuild that is not refused. -/
def StoreCall.accepted? : StoreCall → Option (List FileExtraction)
  | .rebuild files => if (files.map (·.path)).Nodup then some files else none
  | _ => none

/-- The files of the last rebuild that is not refused. -/
def lastAccepted? (calls : List StoreCall) : Option (List FileExtraction) :=
  (calls.filterMap StoreCall.accepted?).getLast?

theorem lastAccepted?_concat (calls : List StoreCall) (c : StoreCall) :
    lastAccepted? (calls ++ [c]) = c.accepted?.or (lastAccepted? calls) := by
  unfold lastAccepted?
  rw [List.filterMap_append]
  cases h : c.accepted? with
  | none => simp [h]
  | some files => simp [h]

/-- Whether a rebuild of a store that is ready is refused for a repeated path alone, and otherwise
makes one of it that reads as `index` says, and that the same rebuild leaves as it is. -/
structure Rebuildable (Ready : σ → Prop) (index : List FileExtraction → IndexReader) : Prop where
  refused : ∀ {s files e}, Ready s → checkDistinctPaths files = .error e →
    IndexStore.rebuild s files = .error e
  accepted : ∀ {s files}, Ready s → checkDistinctPaths files = .ok () →
    ∃ t size, IndexStore.rebuild s files = .ok (t, size) ∧ Ready t ∧
      IndexStore.reader t = index files ∧ IndexStore.rebuild t files = .ok (t, size)

theorem of_lastAccepted? {calls : List StoreCall} {files : List FileExtraction}
    (h : lastAccepted? calls = some files) :
    (files.map (·.path)).Nodup ∧ StoreCall.rebuild files ∈ calls := by
  rcases List.mem_filterMap.mp (List.mem_of_getLast? h) with ⟨c, hc, hfiles⟩
  cases c with
  | rebuild fs =>
    rw [StoreCall.accepted?] at hfiles
    by_cases hnodup : (fs.map (·.path)).Nodup
    · rw [if_pos hnodup] at hfiles
      cases hfiles
      exact ⟨hnodup, hc⟩
    · rw [if_neg hnodup] at hfiles
      cases hfiles
  | _ => cases hfiles

namespace Rebuildable

variable {Ready : σ → Prop} {index : List FileExtraction → IndexReader}

/-- What is known of a store `s` that was `start` before some calls, whose last rebuild that was not
refused came with the files `last`. -/
structure Traces (Ready : σ → Prop) (index : List FileExtraction → IndexReader) (start s : σ)
    (last : Option (List FileExtraction)) : Prop where
  ready : Ready s
  reader : IndexStore.reader s = last.elim (IndexStore.reader start) index
  again : ∀ files ∈ last, ∃ size, IndexStore.rebuild s files = .ok (s, size)

theorem traces_perform (h : Rebuildable Ready index) {start s : σ}
    {last : Option (List FileExtraction)} (hs : Traces Ready index start s last) (c : StoreCall) :
    Traces Ready index start (c.perform s).1 (c.accepted?.or last) := by
  cases c with
  | rebuild files =>
    cases hc : checkDistinctPaths files with
    | error e =>
      have hnodup : ¬ (files.map (·.path)).Nodup := by
        rw [← checkDistinctPaths_eq_ok, hc]
        nofun
      simp only [StoreCall.perform, h.refused hs.ready hc, StoreCall.accepted?, if_neg hnodup]
      exact hs
    | ok u =>
      obtain ⟨t, size, ht, hready, hreader, hagain⟩ := h.accepted hs.ready hc
      simp only [StoreCall.perform, ht, StoreCall.accepted?,
        if_pos (checkDistinctPaths_eq_ok.mp hc)]
      refine ⟨hready, hreader, ?_⟩
      rintro _ ⟨⟩
      exact ⟨size, hagain⟩
  | file | hasFile | filePaths | symbolsInFile | symbolsNamed | referencesNamed | stats => exact hs

/-- What a store holds after some calls is known from their last rebuild that was not refused. -/
theorem traces_after (h : Rebuildable Ready index) {s : σ} (hs : Ready s)
    (calls : List StoreCall) :
    Traces Ready index s (IndexStore.after s calls) (lastAccepted? calls) := by
  induction calls using List.reverseRecOn with
  | nil => exact ⟨hs, rfl, nofun⟩
  | append_singleton calls c ih =>
    rw [IndexStore.after_concat, lastAccepted?_concat]
    exact h.traces_perform ih c

/-- A store that was empty reads as one that was made from the files of its last rebuild that was
not refused. -/
theorem reader_after (h : Rebuildable Ready index) {s : σ} (hs : Ready s)
    (hempty : IndexStore.reader s = index []) (calls : List StoreCall) :
    IndexStore.reader (IndexStore.after s calls) = index ((lastAccepted? calls).getD []) := by
  rw [(h.traces_after hs calls).reader]
  cases lastAccepted? calls with
  | none => exact hempty
  | some files => rfl

end Rebuildable

/-- Whether a rebuild of a store of a sort, once it is ready, replaces all of it or nothing,
whatever was done with it before. -/
structure RebuildsWhole (Ready : σ → Prop) (index : List FileExtraction → IndexReader) : Prop where
  /-- A rebuild succeeds exactly on distinct paths. -/
  succeeds : ∀ {s} (calls files), Ready s →
    ((∃ t size, IndexStore.rebuild (IndexStore.after s calls) files = .ok (t, size)) ↔
      (files.map (·.path)).Nodup)
  /-- A refusal names the first file whose path has come before. -/
  refusal : ∀ {s} (calls files) {e}, Ready s →
    IndexStore.rebuild (IndexStore.after s calls) files = .error e →
    e.kind = .storage ∧ ∃ before f rest, files = before ++ f :: rest ∧
      (before.map (·.path)).Nodup ∧ f.path ∈ before.map (·.path) ∧ e.file = some f.path
  /-- After a refusal all calls are answered as they would have been. -/
  refused : ∀ {s} (calls files later), Ready s → ¬ (files.map (·.path)).Nodup →
    IndexStore.answers (IndexStore.after s (calls ++ [.rebuild files])) later =
      IndexStore.answers (IndexStore.after s calls) later
  /-- What is read is fixed by the last rebuild that succeeded. -/
  determined : ∀ {s} (calls), Ready s →
    IndexStore.reader (IndexStore.after s calls) =
      (lastAccepted? calls).elim (IndexStore.reader s) index
  /-- The last rebuild that succeeded changes nothing when it is made again. -/
  repeated : ∀ {s} (calls) {files}, Ready s → lastAccepted? calls = some files →
    ∃ size, IndexStore.rebuild (IndexStore.after s calls) files =
      .ok (IndexStore.after s calls, size)

theorem Rebuildable.rebuildsWhole {Ready : σ → Prop} {index : List FileExtraction → IndexReader}
    (h : Rebuildable Ready index) : RebuildsWhole Ready index where
  succeeds calls files hs := by
    have hready := (h.traces_after hs calls).ready
    constructor
    · rintro ⟨t, size, ht⟩
      cases hc : checkDistinctPaths files with
      | error e =>
        rw [h.refused hready hc] at ht
        cases ht
      | ok u => exact checkDistinctPaths_eq_ok.mp hc
    · intro hnodup
      obtain ⟨t, size, ht, -⟩ := h.accepted hready (checkDistinctPaths_eq_ok.mpr hnodup)
      exact ⟨t, size, ht⟩
  refusal calls files e hs he := by
    have hready := (h.traces_after hs calls).ready
    cases hc : checkDistinctPaths files with
    | error e' =>
      rw [h.refused hready hc] at he
      cases he
      obtain ⟨before, f, rest, hfiles, hnodup, hmem, rfl⟩ := of_checkDistinctPaths hc
      exact ⟨rfl, before, f, rest, hfiles, hnodup, hmem, rfl⟩
    | ok u =>
      obtain ⟨t, size, ht, -⟩ := h.accepted hready hc
      rw [ht] at he
      cases he
  refused calls files later hs hnodup := by
    have hready := (h.traces_after hs calls).ready
    rw [IndexStore.after_concat]
    cases hc : checkDistinctPaths files with
    | error e => simp only [StoreCall.perform, h.refused hready hc]
    | ok u => exact absurd (checkDistinctPaths_eq_ok.mp hc) hnodup
  determined calls hs := (h.traces_after hs calls).reader
  repeated calls files hs hlast := (h.traces_after hs calls).again files hlast

end Histories

/-! ## The stores -/

theorem MemoryIndex.rebuildable :
    Rebuildable (fun _ : MemoryIndex => True) fun files => (ofFiles files).reader where
  refused := by
    intro s files e _ hc
    simp only [IndexStore.rebuild, hc]
    rfl
  accepted := by
    intro s files _ hc
    refine ⟨ofFiles files, (ofFiles files).stats, ?_, trivial, rfl, ?_⟩ <;>
      simp only [IndexStore.rebuild, hc] <;> rfl

theorem Database.rebuild_eq {s : Database} {files : List FileExtraction}
    (hc : checkDistinctPaths files = .ok ()) :
    IndexStore.rebuild s files = .ok ((fill files).rows, (fill files).counts) := by
  simp only [IndexStore.rebuild, hc]
  rfl

theorem Database.rebuildable :
    Rebuildable (fun _ : Database => True) fun files => (fill files).rows.reader where
  refused := by
    intro s files e _ hc
    simp only [IndexStore.rebuild, hc]
    rfl
  accepted _ hc := ⟨_, _, rebuild_eq hc, trivial, rfl, rebuild_eq hc⟩

namespace StoredIndex

/-- A database that may be changed keeps the rows that were saved last, wherever it is kept. -/
theorem save_eq_ok {s : StoredIndex} (h : s.opened.fixed = false) (rows : Database) :
    ∃ t, s.save rows = .ok t ∧ t.opened = { s.opened with rows } ∧ t.save rows = .ok t := by
  obtain ⟨disk, ⟨old, location, fixed⟩⟩ := s
  obtain rfl : fixed = false := h
  cases location with
  | none => exact ⟨⟨disk, ⟨rows, none, false⟩⟩, rfl, rfl, rfl⟩
  | some l =>
    refine ⟨⟨disk.put l (.database rows), ⟨rows, some l, false⟩⟩, rfl, rfl, ?_⟩
    simp only [save, Disk.OpenDatabase.save, Bool.false_eq_true, if_false, Disk.put_put]

theorem rebuild_eq {s t : StoredIndex} {files : List FileExtraction}
    (hc : checkDistinctPaths files = .ok ()) (ht : s.save (Database.fill files).rows = .ok t) :
    IndexStore.rebuild s files = .ok (t, (Database.fill files).counts) := by
  have hd := Database.rebuild_eq (s := s.opened.rows) hc
  simp only [IndexStore.rebuild] at hd ⊢
  rw [hd]
  simp only [bind, Except.bind, ht]
  rfl

theorem rebuildable :
    Rebuildable (fun s : StoredIndex => s.opened.fixed = false)
      fun files => (Database.fill files).rows.reader where
  refused := by
    intro s files e _ hc
    have hd := Database.rebuildable.refused (s := s.opened.rows) trivial hc
    simp only [IndexStore.rebuild] at hd ⊢
    rw [hd]
    rfl
  accepted := by
    intro s files hs hc
    obtain ⟨t, hsave, hopened, hagain⟩ := save_eq_ok hs (Database.fill files).rows
    refine ⟨t, (Database.fill files).counts, rebuild_eq hc hsave, ?_, ?_, rebuild_eq hc hagain⟩
    · rw [hopened]
      exact hs
    · exact congrArg (fun o : Disk.OpenDatabase => o.rows.reader) hopened

end StoredIndex

/-- Whether a store of any sort, whatever it holds, can be rebuilt from files and then reads as `P`
says. -/
structure AfterRebuild (files : List FileExtraction) (P : IndexReader → Prop) : Prop where
  memory : ∀ s : MemoryIndex,
    ∃ t size, IndexStore.rebuild s files = .ok (t, size) ∧ P (IndexStore.reader t)
  database : ∀ s : Database,
    ∃ t size, IndexStore.rebuild s files = .ok (t, size) ∧ P (IndexStore.reader t)
  stored : ∀ s : StoredIndex, s.opened.fixed = false →
    ∃ t size, IndexStore.rebuild s files = .ok (t, size) ∧ P (IndexStore.reader t)

/-- After a rebuild an index is read as its rows in memory are, or as those in tables. -/
theorem afterRebuild {files : List FileExtraction} {P : IndexReader → Prop}
    (hdistinct : (files.map (·.path)).Nodup) (hmemory : P (MemoryIndex.ofFiles files).reader)
    (htables : P (Database.fill files).rows.reader) : AfterRebuild files P := by
  have hc := checkDistinctPaths_eq_ok.mpr hdistinct
  refine ⟨fun s => ?_, fun s => ?_, fun s hs => ?_⟩
  · obtain ⟨t, size, ht, -, hreader, -⟩ := MemoryIndex.rebuildable.accepted (s := s) trivial hc
    exact ⟨t, size, ht, hreader ▸ hmemory⟩
  · obtain ⟨t, size, ht, -, hreader, -⟩ := Database.rebuildable.accepted (s := s) trivial hc
    exact ⟨t, size, ht, hreader ▸ htables⟩
  · obtain ⟨t, size, ht, -, hreader, -⟩ := StoredIndex.rebuildable.accepted hs hc
    exact ⟨t, size, ht, hreader ▸ htables⟩

/-- Whether a store of any sort that was empty reads after any calls as `P` says of the files of the
last rebuild that was not refused. -/
structure AfterCalls (P : List FileExtraction → IndexReader → Prop) : Prop where
  memory : ∀ calls, P ((lastAccepted? calls).getD [])
    (IndexStore.reader (IndexStore.after ({} : MemoryIndex) calls))
  database : ∀ calls, P ((lastAccepted? calls).getD [])
    (IndexStore.reader (IndexStore.after ({} : Database) calls))
  stored : ∀ (s : StoredIndex) (calls), s.opened.fixed = false → s.opened.rows = {} →
    P ((lastAccepted? calls).getD []) (IndexStore.reader (IndexStore.after s calls))

theorem afterCalls {P : List FileExtraction → IndexReader → Prop}
    (hmemory : ∀ files : List FileExtraction, (files.map (·.path)).Nodup →
      P files (MemoryIndex.ofFiles files).reader)
    (htables : ∀ files : List FileExtraction, (files.map (·.path)).Nodup →
      P files (Database.fill files).rows.reader) : AfterCalls P := by
  have hdistinct : ∀ calls, (((lastAccepted? calls).getD []).map (·.path)).Nodup := by
    intro calls
    cases h : lastAccepted? calls with
    | none => exact List.nodup_nil
    | some files => exact (of_lastAccepted? h).1
  refine ⟨fun calls => ?_, fun calls => ?_, fun s calls hfixed hrows => ?_⟩
  · rw [MemoryIndex.rebuildable.reader_after (s := {}) trivial rfl]
    exact hmemory _ (hdistinct calls)
  · rw [Database.rebuildable.reader_after (s := {}) trivial rfl]
    exact htables _ (hdistinct calls)
  · have hempty : IndexStore.reader s = (Database.fill []).rows.reader :=
      congrArg Database.reader hrows
    rw [StoredIndex.rebuildable.reader_after hfixed hempty]
    exact htables _ (hdistinct calls)

end CodeIndex
