import CodeIndex.Proofs.Store.Agreement
import CodeIndex.Proofs.Store.Rebuilds
import Mathlib.Tactic.Set

/-! # Statements of a rebuild

A database is rebuilt by statements that drop its three tables, make them anew and insert one row
after the other. A statement is refused where a table is missing or a rule of a table would be
broken: numbers are unique in every table and paths among the files, and symbols and references
belong to files that are there. The statements are run in one transaction, which leaves the tables
as they were when a statement is refused.
-/

namespace CodeIndex

/-- The tables of a database, of which any may be missing. -/
structure Tables where
  files : Option (List FileRow) := none
  symbols : Option (List SymbolRow) := none
  references : Option (List ReferenceRow) := none
deriving DecidableEq, Repr

inductive TableName where
  | files
  | symbols
  | references
deriving DecidableEq, Repr

inductive Statement where
  | drop (t : TableName)
  /-- Makes a table without rows, unless there is one. -/
  | create (t : TableName)
  | insertFile (row : FileRow)
  | insertSymbol (row : SymbolRow)
  | insertReference (row : ReferenceRow)
deriving DecidableEq, Repr

namespace Tables

def ofDatabase (d : Database) : Tables :=
  ⟨some d.files, some d.symbols, some d.references⟩

def fileIds (t : Tables) : List Int :=
  (t.files.getD []).map (·.id)

/-- The numbers of the files to which symbols and references belong. -/
def owners (t : Tables) : List Int :=
  (t.symbols.getD []).map (·.fileId) ++ (t.references.getD []).map (·.fileId)

/-- What a statement makes of tables, unless it is refused. -/
def execute (t : Tables) : Statement → Option Tables
  | .drop .files => if ∃ id ∈ t.fileIds, id ∈ t.owners then none else some { t with files := none }
  | .drop .symbols => some { t with symbols := none }
  | .drop .references => some { t with references := none }
  | .create .files => some { t with files := some (t.files.getD []) }
  | .create .symbols => some { t with symbols := some (t.symbols.getD []) }
  | .create .references => some { t with references := some (t.references.getD []) }
  | .insertFile row =>
    t.files.bind fun rows =>
      if ∃ other ∈ rows, other.id = row.id ∨ other.path = row.path then none
      else some { t with files := some (rows ++ [row]) }
  | .insertSymbol row =>
    t.symbols.bind fun rows =>
      if (∃ other ∈ rows, other.id = row.id) ∨ row.fileId ∉ t.fileIds then none
      else some { t with symbols := some (rows ++ [row]) }
  | .insertReference row =>
    t.references.bind fun rows =>
      if (∃ other ∈ rows, other.id = row.id) ∨ row.fileId ∉ t.fileIds then none
      else some { t with references := some (rows ++ [row]) }

def run (t : Tables) (statements : List Statement) : Option Tables :=
  statements.foldlM execute t

/-- The tables after a transaction, and whether it was carried out. -/
def transact (t : Tables) (statements : List Statement) : Tables × Bool :=
  match t.run statements with
  | some t' => (t', true)
  | none => (t, false)

theorem run_cons (t : Tables) (s : Statement) (ss : List Statement) :
    t.run (s :: ss) = (t.execute s).bind (·.run ss) := rfl

theorem run_append (t : Tables) (ss ss' : List Statement) :
    t.run (ss ++ ss') = (t.run ss).bind (·.run ss') := by
  rw [run, List.foldlM_append]
  rfl

end Tables

namespace Statement

def ofSymbols (fileId : Int) (n : Nat) : List ExtractedSymbol → List Statement
  | [] => []
  | s :: ss => .insertSymbol (Database.symbolRow fileId (n + 1) s) :: ofSymbols fileId (n + 1) ss

def ofReferences (fileId : Int) (n : Nat) : List ExtractedReference → List Statement
  | [] => []
  | r :: rs =>
    .insertReference (Database.referenceRow fileId (n + 1) r) :: ofReferences fileId (n + 1) rs

/-- Inserts files with their symbols and references behind as many rows as `n` says. -/
def ofFiles (n : StoreStats) : List FileExtraction → List Statement
  | [] => []
  | f :: fs =>
    let id : Int := n.files + 1
    .insertFile ⟨id, f.path, f.root.compact⟩ ::
      (ofSymbols id n.symbols f.symbols ++ ofReferences id n.references f.references
        ++ ofFiles ⟨n.files + 1, n.symbols + f.symbols.length,
            n.references + f.references.length⟩ fs)

/-- Replaces all tables. Files are dropped last, for no row may be left that belongs to one. -/
def ofRebuild (files : List FileExtraction) : List Statement :=
  [.drop .references, .drop .symbols, .drop .files, .create .files, .create .symbols,
    .create .references] ++ ofFiles {} files

end Statement

namespace Database

/-- Whether no row of tables that are being filled has a number that is still to come. -/
structure Filling.Numbered (f : Filling) : Prop where
  files : ∀ row ∈ f.rows.files, row.id ≤ f.counts.files
  symbols : ∀ row ∈ f.rows.symbols, row.id ≤ f.counts.symbols
  references : ∀ row ∈ f.rows.references, row.id ≤ f.counts.references

open Tables Statement

theorem run_ofSymbols {f : Filling} (hf : f.Numbered) {fileId : Int}
    (hid : fileId ∈ f.rows.files.map (·.id)) (ss : List ExtractedSymbol) :
    (ofDatabase f.rows).run (ofSymbols fileId f.counts.symbols ss) =
        some (ofDatabase (ss.foldl (insertSymbol fileId) f).rows) ∧
      (ss.foldl (insertSymbol fileId) f).Numbered := by
  induction ss generalizing f with
  | nil => exact ⟨rfl, hf⟩
  | cons s ss ih =>
    have hnew : (insertSymbol fileId f s).Numbered := by
      refine ⟨hf.files, ?_, hf.references⟩
      simp only [insertSymbol, List.forall_mem_append, List.forall_mem_singleton, symbolRow]
      refine ⟨fun row hrow => ?_, by omega⟩
      have := hf.symbols row hrow
      omega
    have hstep : (ofDatabase f.rows).execute
        (.insertSymbol (symbolRow fileId (f.counts.symbols + 1) s)) =
          some (ofDatabase (insertSymbol fileId f s).rows) := by
      have hfresh : ¬ ∃ other ∈ f.rows.symbols, other.id = (f.counts.symbols + 1 : Int) := by
        rintro ⟨other, hother, heq⟩
        have := hf.symbols other hother
        omega
      have hrefused : ¬ ((∃ other ∈ f.rows.symbols, other.id = (f.counts.symbols + 1 : Int)) ∨
          fileId ∉ f.rows.files.map (·.id)) := not_or.mpr ⟨hfresh, not_not.mpr hid⟩
      exact if_neg hrefused
    obtain ⟨hrun, hnumbered⟩ := ih hnew hid
    refine ⟨?_, hnumbered⟩
    rw [ofSymbols, run_cons, hstep]
    exact hrun

theorem run_ofReferences {f : Filling} (hf : f.Numbered) {fileId : Int}
    (hid : fileId ∈ f.rows.files.map (·.id)) (rs : List ExtractedReference) :
    (ofDatabase f.rows).run (ofReferences fileId f.counts.references rs) =
        some (ofDatabase (rs.foldl (insertReference fileId) f).rows) ∧
      (rs.foldl (insertReference fileId) f).Numbered := by
  induction rs generalizing f with
  | nil => exact ⟨rfl, hf⟩
  | cons r rs ih =>
    have hnew : (insertReference fileId f r).Numbered := by
      refine ⟨hf.files, hf.symbols, ?_⟩
      simp only [insertReference, List.forall_mem_append, List.forall_mem_singleton, referenceRow]
      refine ⟨fun row hrow => ?_, by omega⟩
      have := hf.references row hrow
      omega
    have hstep : (ofDatabase f.rows).execute
        (.insertReference (referenceRow fileId (f.counts.references + 1) r)) =
          some (ofDatabase (insertReference fileId f r).rows) := by
      have hfresh : ¬ ∃ other ∈ f.rows.references,
          other.id = (f.counts.references + 1 : Int) := by
        rintro ⟨other, hother, heq⟩
        have := hf.references other hother
        omega
      have hrefused : ¬ ((∃ other ∈ f.rows.references,
          other.id = (f.counts.references + 1 : Int)) ∨ fileId ∉ f.rows.files.map (·.id)) :=
        not_or.mpr ⟨hfresh, not_not.mpr hid⟩
      exact if_neg hrefused
    obtain ⟨hrun, hnumbered⟩ := ih hnew hid
    refine ⟨?_, hnumbered⟩
    rw [ofReferences, run_cons, hstep]
    exact hrun

/-- The row of a file is refused for its path alone, since its number is new. -/
theorem execute_insertFile {f : Filling} (hf : f.Numbered) (path root : String) :
    (ofDatabase f.rows).execute (.insertFile ⟨f.counts.files + 1, path, root⟩) =
      if path ∈ f.rows.files.map (·.path) then none
      else some (ofDatabase
        { f.rows with files := f.rows.files ++ [⟨f.counts.files + 1, path, root⟩] }) := by
  have hiff : (∃ other ∈ f.rows.files,
      other.id = (f.counts.files + 1 : Int) ∨ other.path = path) ↔
        path ∈ f.rows.files.map (·.path) := by
    rw [List.mem_map]
    constructor
    · rintro ⟨other, hother, hid | hpath⟩
      · have := hf.files other hother
        omega
      · exact ⟨other, hother, hpath⟩
    · rintro ⟨other, hother, hpath⟩
      exact ⟨other, hother, .inr hpath⟩
  by_cases hp : path ∈ f.rows.files.map (·.path)
  · rw [if_pos hp]
    exact if_pos (hiff.mpr hp)
  · rw [if_neg hp]
    exact if_neg fun h => hp (hiff.mp h)

/-- A file is refused for its path alone, and is else inserted with all that belongs to it. -/
theorem run_file {f : Filling} (hf : f.Numbered) (file : FileExtraction) :
    (ofDatabase f.rows).run
        (.insertFile ⟨f.counts.files + 1, file.path, file.root.compact⟩ ::
          (ofSymbols (f.counts.files + 1) f.counts.symbols file.symbols
            ++ ofReferences (f.counts.files + 1) f.counts.references file.references)) =
        (if file.path ∈ f.rows.files.map (·.path) then none
          else some (ofDatabase (insertFile f file).rows)) ∧
      (insertFile f file).Numbered := by
  set id : Int := f.counts.files + 1 with hid
  let row : FileRow := ⟨id, file.path, file.root.compact⟩
  let g : Filling := {
    rows := { f.rows with files := f.rows.files ++ [row] }
    counts := { f.counts with files := f.counts.files + 1 } }
  have hg : g.Numbered := by
    refine ⟨?_, hf.symbols, hf.references⟩
    simp only [g, row, List.forall_mem_append, List.forall_mem_singleton]
    refine ⟨fun other hother => ?_, by omega⟩
    have := hf.files other hother
    omega
  have hmem : id ∈ g.rows.files.map (·.id) := by simp [g, row]
  obtain ⟨hsymbols, hgs⟩ := run_ofSymbols hg hmem file.symbols
  -- the rows of symbols leave the files and the other counts alone
  have hclosed := foldl_insertSymbol id file.path file.symbols g
  have hmems : id ∈ (file.symbols.foldl (insertSymbol id) g).rows.files.map (·.id) := by
    rw [hclosed]
    exact hmem
  have hcount : (file.symbols.foldl (insertSymbol id) g).counts.references =
      f.counts.references := by
    rw [hclosed]
  obtain ⟨hreferences, hgr⟩ := run_ofReferences hgs hmems file.references
  rw [hcount] at hreferences
  refine ⟨?_, hgr⟩
  rw [run_cons, execute_insertFile hf]
  by_cases hp : file.path ∈ f.rows.files.map (·.path)
  · rw [if_pos hp, if_pos hp]
    rfl
  · rw [if_neg hp, if_neg hp, Option.bind_some, run_append]
    have hs : (ofDatabase { f.rows with files := f.rows.files ++ [row] }).run
        (ofSymbols id f.counts.symbols file.symbols) =
          some (ofDatabase (file.symbols.foldl (insertSymbol id) g).rows) := hsymbols
    rw [hs]
    exact hreferences

theorem counts_insertFile (f : Filling) (file : FileExtraction) :
    (insertFile f file).counts = ⟨f.counts.files + 1, f.counts.symbols + file.symbols.length,
      f.counts.references + file.references.length⟩ := by
  rw [insertFile, foldl_insertSymbol _ file.path, foldl_insertReference _ file.path]

theorem paths_insertFile (f : Filling) (file : FileExtraction) :
    (insertFile f file).rows.files.map (·.path) =
      f.rows.files.map (·.path) ++ [file.path] := by
  rw [insertFile, foldl_insertSymbol _ file.path, foldl_insertReference _ file.path]
  exact List.map_append

/-- Files are inserted one after the other unless a path is there already. -/
theorem run_ofFiles {f : Filling} (hf : f.Numbered) (files : List FileExtraction) :
    (ofDatabase f.rows).run (ofFiles f.counts files) =
      if (files.map (·.path)).Nodup ∧ ∀ p ∈ files.map (·.path), p ∉ f.rows.files.map (·.path) then
        some (ofDatabase (files.foldl insertFile f).rows)
      else none := by
  induction files generalizing f with
  | nil => simp [ofFiles, run]
  | cons file files ih =>
    obtain ⟨hrun, hnumbered⟩ := run_file hf file
    have hrest := ih hnumbered
    rw [counts_insertFile, paths_insertFile] at hrest
    have happend : (ofFiles f.counts (file :: files)) =
        (.insertFile ⟨f.counts.files + 1, file.path, file.root.compact⟩ ::
          (ofSymbols (f.counts.files + 1) f.counts.symbols file.symbols
            ++ ofReferences (f.counts.files + 1) f.counts.references file.references))
        ++ ofFiles ⟨f.counts.files + 1, f.counts.symbols + file.symbols.length,
            f.counts.references + file.references.length⟩ files := rfl
    rw [happend, run_append, hrun]
    by_cases hp : file.path ∈ f.rows.files.map (·.path)
    · rw [if_pos hp, if_neg]
      · rfl
      · rintro ⟨-, h⟩
        exact h file.path (by simp) hp
    · rw [if_neg hp, Option.bind_some, hrest]
      refine if_congr ?_ rfl rfl
      simp only [List.map_cons, List.nodup_cons, List.mem_cons, List.mem_append,
        List.not_mem_nil, or_false, not_or, forall_eq_or_imp]
      constructor
      · rintro ⟨hnodup, h⟩
        exact ⟨⟨fun hmem => (h _ hmem).2 rfl, hnodup⟩, hp, fun p hmem => (h p hmem).1⟩
      · rintro ⟨⟨hmem, hnodup⟩, -, h⟩
        exact ⟨hnodup, fun p hp' => ⟨h p hp', fun he => hmem (he ▸ hp')⟩⟩

end Database

namespace Tables

/-- Dropping all tables and making them again leaves nothing of what was there. -/
theorem run_ofRebuild (t : Tables) (files : List FileExtraction) :
    t.run (Statement.ofRebuild files) =
      (ofDatabase {}).run (Statement.ofFiles {} files) := by
  rw [Statement.ofRebuild, run_append]
  have hdrop : t.run [.drop .references, .drop .symbols, .drop .files, .create .files,
      .create .symbols, .create .references] = some (ofDatabase {}) := by
    simp only [run, List.foldlM_cons, List.foldlM_nil, execute, owners]
    simp [ofDatabase]
  rw [hdrop]
  rfl

/-- The statements of a rebuild fill any tables as empty ones are filled, unless a path is repeated;
then all tables stay as they were. -/
theorem transact_ofRebuild (t : Tables) (files : List FileExtraction) :
    t.transact (Statement.ofRebuild files) =
      if (files.map (·.path)).Nodup then (ofDatabase (Database.fill files).rows, true)
      else (t, false) := by
  have hempty : Database.Filling.Numbered {} :=
    ⟨List.forall_mem_nil _, List.forall_mem_nil _, List.forall_mem_nil _⟩
  have hrun := Database.run_ofFiles hempty files
  rw [transact, run_ofRebuild]
  by_cases h : (files.map (·.path)).Nodup
  · rw [if_pos ⟨h, fun _ _ => List.not_mem_nil⟩] at hrun
    rw [if_pos h, hrun]
    rfl
  · rw [if_neg fun hc => h hc.1] at hrun
    rw [if_neg h, hrun]

end Tables

/-- All stores are rebuilt whole or not at all. From an empty index on, what is read is that of the
files of the last rebuild that succeeded, and the statements of a rebuild do to any tables what the
rebuild does, be the tables there or not. -/
theorem stores_rebuild_whole :
    RebuildsWhole (fun _ : MemoryIndex => True) (fun files => (MemoryIndex.ofFiles files).reader) ∧
    RebuildsWhole (fun _ : Database => True) (fun files => (Database.fill files).rows.reader) ∧
    RebuildsWhole (fun s : StoredIndex => s.opened.fixed = false)
      (fun files => (Database.fill files).rows.reader) ∧
    (∀ calls, IndexStore.reader (IndexStore.after ({} : MemoryIndex) calls) =
      (MemoryIndex.ofFiles ((lastAccepted? calls).getD [])).reader) ∧
    (∀ calls, IndexStore.reader (IndexStore.after ({} : Database) calls) =
      (Database.fill ((lastAccepted? calls).getD [])).rows.reader) ∧
    (∀ (s : StoredIndex) (calls), s.opened.fixed = false → s.opened.rows = {} →
      IndexStore.reader (IndexStore.after s calls) =
        (Database.fill ((lastAccepted? calls).getD [])).rows.reader) ∧
    ∀ (t : Tables) (d : Database) (files),
      t.transact (Statement.ofRebuild files) =
        match IndexStore.rebuild d files with
        | .ok (d', _) => (.ofDatabase d', true)
        | .error _ => (t, false) := by
  have hmemory := MemoryIndex.rebuildable.rebuildsWhole
  have hdatabase := Database.rebuildable.rebuildsWhole
  have hstored := StoredIndex.rebuildable.rebuildsWhole
  have hgetD : ∀ (last : Option (List FileExtraction)) (index : List FileExtraction → IndexReader),
      last.elim (index []) index = index (last.getD []) := by
    intro last index
    cases last <;> rfl
  refine ⟨hmemory, hdatabase, hstored, fun calls => ?_, fun calls => ?_,
    fun s calls hfixed hrows => ?_, fun t d files => ?_⟩
  · rw [hmemory.determined calls trivial, ← hgetD _ fun files => (MemoryIndex.ofFiles files).reader]
    rfl
  · rw [hdatabase.determined calls trivial,
      ← hgetD _ fun files => (Database.fill files).rows.reader]
    rfl
  · have hempty : IndexStore.reader s = (Database.fill []).rows.reader :=
      congrArg Database.reader hrows
    rw [hstored.determined calls hfixed, hempty,
      hgetD _ fun files => (Database.fill files).rows.reader]
  · rw [Tables.transact_ofRebuild]
    cases hc : checkDistinctPaths files with
    | ok u =>
      rw [Database.rebuild_eq hc, if_pos (checkDistinctPaths_eq_ok.mp hc)]
    | error e =>
      have hnodup : ¬ (files.map (·.path)).Nodup := by
        rw [← checkDistinctPaths_eq_ok, hc]
        nofun
      rw [Database.rebuildable.refused trivial hc, if_neg hnodup]

theorem stores_rebuild_whole_repeated :
    ∃ (f g : FileExtraction) (s : StoredIndex), f = ⟨"a.rb", .literal .nil, [], []⟩ ∧
      g = ⟨"b.rb", .literal .nil, [], []⟩ ∧ s = ⟨{}, {}⟩ ∧
      (∃ t size, IndexStore.rebuild (IndexStore.after s [.rebuild [g]]) [f, g] = .ok (t, size)) ∧
      (∀ e, IndexStore.rebuild (IndexStore.after s [.rebuild [g]]) [f, g, f] = .error e →
        e.kind = .storage) ∧
      IndexStore.answers (IndexStore.after s [.rebuild [g], .rebuild [f, g, f]]) [.filePaths] =
        IndexStore.answers (IndexStore.after s [.rebuild [g]]) [.filePaths] ∧
      IndexStore.reader (IndexStore.after s [.rebuild [g], .rebuild [f, g, f], .stats]) =
        (Database.fill [g]).rows.reader ∧
      ∃ size, IndexStore.rebuild (IndexStore.after s [.rebuild [g], .rebuild [f, g, f]]) [g] =
        .ok (IndexStore.after s [.rebuild [g], .rebuild [f, g, f]], size) := by
  refine ⟨_, _, _, rfl, rfl, rfl, ?_⟩
  obtain ⟨-, -, h, -, -, hstored, -⟩ := stores_rebuild_whole
  refine ⟨(h.succeeds _ _ rfl).mpr (by decide), fun e he => (h.refusal _ _ rfl he).1,
    h.refused [_] _ _ rfl (by decide), hstored _ _ rfl rfl, h.repeated _ rfl rfl⟩

end CodeIndex
