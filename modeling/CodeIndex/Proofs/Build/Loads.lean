import CodeIndex.Build.Basic
import CodeIndex.Proofs.Store.Numbering

/-! # What a build makes of its files

A build asks its source for one file after the other. The files that load are indexed as if each of
them were alone, in the order in which they were discovered, and every other one is reported with
the error that kept it from loading. No file is counted twice and none is missing, whatever the
store held before.
-/

namespace CodeIndex

abbrev Loading := String × Except Error ParsedFile

namespace TreeSource

/-- Whether a source gives a file under no other path than the one that it was asked for. -/
def KeepsPaths (source : TreeSource) : Prop :=
  ∀ path d f d', (source path).run d = (.ok f, d') → f.path = path

/-- Files are loaded one after the other, each from the disk that the one before has left. -/
inductive Loads (source : TreeSource) : Disk → List Loading → Disk → Prop where
  | done (d : Disk) : Loads source d [] d
  | next {d d' d'' : Disk} {path : String} {result : Except Error ParsedFile}
      {rest : List Loading} (h : (source path).run d = (result, d'))
      (hrest : Loads source d' rest d'') : Loads source d ((path, result) :: rest) d''

theorem Loads.path_eq {source : TreeSource} (hsource : source.KeepsPaths) {d d' : Disk}
    {results : List Loading} (h : source.Loads d results d') :
    ∀ path f, (path, .ok f) ∈ results → f.path = path := by
  induction h with
  | done => nofun
  | next h _ ih =>
    intro path f hf
    rcases List.mem_cons.mp hf with heq | hf
    · cases heq
      exact hsource _ _ _ _ h
    · exact ih path f hf

theorem path_of_parsedFile {d : Disk} {cwd : Location} {repository path : String}
    {dump : Text.Octets} {f : ParsedFile}
    (h : parsedFile d cwd repository path dump = .ok f) : f.path = path := by
  rcases Except.bind_eq_ok.mp h with ⟨root, -, h⟩
  cases h
  rfl

theorem keepsPaths_sidecar (cwd : Location) (repository suffix : String) :
    (sidecar cwd repository suffix).KeepsPaths := by
  intro path d f d' h
  simp only [sidecar, StateT.run_bind, StateT.run_get, pure_bind] at h
  split at h
  · cases h
  · exact path_of_parsedFile (congrArg Prod.fst h)

theorem keepsPaths_command [Programs] (cwd : Location) (repository program : String)
    (args : List String) : (command cwd repository program args).KeepsPaths := by
  intro path d f d' h
  simp only [command, StateT.run_bind, StateT.run_get, pure_bind] at h
  split at h
  · cases h
  · simp only [StateT.run_bind, StateT.run_set, pure_bind] at h
    split at h
    · exact path_of_parsedFile (congrArg Prod.fst h)
    · cases h

end TreeSource

/-- The sources that settings name keep to the paths that they are asked for. -/
theorem TreeSourceSettings.keepsPaths_source [Programs] (s : TreeSourceSettings) (cwd : Location)
    (repository : String) : (s.source cwd repository).KeepsPaths := by
  cases s with
  | sidecar suffix => exact TreeSource.keepsPaths_sidecar _ _ _
  | command argv =>
    cases argv with
    | nil =>
      intro path d f d' h
      cases h
    | cons program args => exact TreeSource.keepsPaths_command _ _ _ _

namespace Build

def loaded (results : List Loading) : List ParsedFile :=
  results.filterMap (·.2.toOption)

def loadedPaths (results : List Loading) : List String :=
  (results.filter (·.2.isOk)).map (·.1)

def failure? : Loading → Option BuildFailure
  | (_, .ok _) => none
  | (path, .error e) => some ⟨path, e.display⟩

theorem map_path_loaded {results : List Loading}
    (h : ∀ path f, (path, .ok f) ∈ results → f.path = path) :
    (loaded results).map (·.path) = loadedPaths results := by
  induction results with
  | nil => rfl
  | cons r results ih =>
    have hrest := ih fun path f hf => h path f (List.mem_cons_of_mem r hf)
    rcases r with ⟨path, e | f⟩
    · exact hrest
    · have hpath := h path f List.mem_cons_self
      change f.path :: (loaded results).map (·.path) = path :: loadedPaths results
      rw [hpath, hrest]

theorem map_path_extract (extractor : Extractor) (files : List ParsedFile) :
    (files.map extractor.extract).map (·.path) = files.map (·.path) := by
  rw [List.map_map]
  rfl

theorem loadedPaths_sublist (results : List Loading) :
    (loadedPaths results).Sublist (results.map (·.1)) :=
  List.filter_sublist.map _

/-- Every file either loads or is a failure. -/
theorem length_loadedPaths (results : List Loading) :
    (loadedPaths results).length + (results.filterMap failure?).length = results.length := by
  induction results with
  | nil => rfl
  | cons r results ih =>
    rcases r with ⟨path, e | f⟩
    · change (loadedPaths results).length + ((results.filterMap failure?).length + 1) = _
      rw [List.length_cons]
      omega
    · change (loadedPaths results).length + 1 + (results.filterMap failure?).length = _
      rw [List.length_cons]
      omega

/-! ## Runs -/

theorem run_outcomes (source : TreeSource) (extractor : Extractor) (paths : List String)
    (d : Disk) :
    ∃ results d', results.map (·.1) = paths ∧ source.Loads d results d' ∧
      (outcomes source extractor paths).run d =
        (results.map fun r => (r.1, r.2.map extractor.extract), d') := by
  induction paths generalizing d with
  | nil => exact ⟨[], d, rfl, .done d, rfl⟩
  | cons path paths ih =>
    rcases hload : (source path).run d with ⟨result, d₁⟩
    rcases ih d₁ with ⟨results, d', hpaths, hloads, hrun⟩
    refine ⟨(path, result) :: results, d', by rw [List.map_cons, hpaths], .next hload hloads, ?_⟩
    have hcons : (outcomes source extractor (path :: paths)).run d =
        ((path, result.map extractor.extract) :: ((outcomes source extractor paths).run d₁).1,
          ((outcomes source extractor paths).run d₁).2) := by
      simp only [outcomes, List.mapM_cons, StateT.run_bind, bind_assoc, hload]
      rfl
    rw [hcons, hrun]
    rfl

theorem extractions_map (extractor : Extractor) (results : List Loading) :
    extractions (results.map fun r => (r.1, r.2.map extractor.extract)) =
      (loaded results).map extractor.extract := by
  induction results with
  | nil => rfl
  | cons r results ih =>
    rcases r with ⟨path, e | f⟩
    · exact ih
    · exact congrArg (extractor.extract f :: ·) ih

theorem failures_map (extractor : Extractor) (results : List Loading) :
    failures (results.map fun r => (r.1, r.2.map extractor.extract)) =
      results.filterMap failure? := by
  rw [failures, List.filterMap_map]
  apply List.filterMap_congr
  rintro ⟨path, e | f⟩ _ <;> rfl

/-- A build tries all files that were discovered, and then rebuilds its store from those that could
be loaded. -/
theorem run_index [IndexStore σ] {found : Discovery} {source : TreeSource} {extractor : Extractor}
    {s t : σ} {size : StoreStats} {results : List Loading} {d d' : Disk}
    (houtcomes : (outcomes source extractor found.files).run d =
      (results.map fun r => (r.1, r.2.map extractor.extract), d'))
    (ht : IndexStore.rebuild s ((loaded results).map extractor.extract) = .ok (t, size)) :
    (found.index source extractor s).run d =
      (.ok (t, {
        filesDiscovered := found.files.length
        filesIndexed := size.files
        filesSkipped := (found.failures ++ results.filterMap failure?).length
        symbols := size.symbols
        references := size.references
        failures := found.failures ++ results.filterMap failure? }), d') := by
  simp only [Discovery.index, StateT.run_bind, houtcomes]
  change (Except.map _ (IndexStore.rebuild s (extractions _)), d') = _
  rw [extractions_map, ht, failures_map]
  rfl

/-! ## Reports -/

/-- Whether the report of a build agrees with what came of loading each file that was discovered,
and with the reads of the store. -/
structure Reports (found : Discovery) (results : List Loading) (report : BuildReport)
    (r : IndexReader) : Prop where
  filePaths : r.filePaths = .ok (loadedPaths results)
  filesDiscovered : report.filesDiscovered = found.files.length
  filesIndexed : report.filesIndexed = (loadedPaths results).length
  failures : report.failures = found.failures ++ results.filterMap failure?
  filesSkipped : report.filesSkipped = report.failures.length
  /-- No file is lost and none is counted twice. -/
  accounted : report.filesDiscovered + found.failures.length =
    report.filesIndexed + report.filesSkipped
  stats : r.stats = .ok ⟨report.filesIndexed, report.symbols, report.references⟩

/-- Whether a build, from some store and disk, puts an index of the files that load in place of what
the store held, so that `P` holds of the store afterwards. -/
def Completes [IndexStore σ] (found : Discovery) (source : TreeSource) (extractor : Extractor)
    (results : List Loading) (d d' : Disk) (s : σ) (P : σ → Prop) : Prop :=
  ∃ t report, (found.index source extractor s).run d = (.ok (t, report), d') ∧
    Reports found results report (IndexStore.reader t) ∧ P t

end Build

theorem MemoryIndex.length_files_ofFiles (files : List FileExtraction) :
    (ofFiles files).stats.files = files.length := by
  have hlength := congrArg List.length (paths_ofFiles files)
  simpa [stats] using hlength

theorem MemoryIndex.rebuild_eq {s : MemoryIndex} {files : List FileExtraction}
    (hc : checkDistinctPaths files = .ok ()) :
    IndexStore.rebuild s files = .ok (ofFiles files, (ofFiles files).stats) := by
  simp only [IndexStore.rebuild, hc]
  rfl

/-! ## What tables keep -/

def SymbolRow.unnumbered (row : SymbolRow) : SymbolRow :=
  { row with id := 0, fileId := 0 }

def ReferenceRow.unnumbered (row : ReferenceRow) : ReferenceRow :=
  { row with id := 0, fileId := 0 }

namespace Database

/-- Whether tables have the text of the tree of each of some files and rows of all that was
extracted from it, and nothing else. -/
structure Keeps (d : Database) (files : List FileExtraction) : Prop where
  trees : d.files.map (fun row => (row.path, row.root)) =
    files.map fun f => (f.path, f.root.compact)
  symbols : ∀ f ∈ files,
    (d.locatedSymbols.filter (·.1 == f.path)).map (·.2.unnumbered) =
      f.symbols.map (symbolRow 0 0)
  references : ∀ f ∈ files,
    (d.locatedReferences.filter (·.1 == f.path)).map (·.2.unnumbered) =
      f.references.map (referenceRow 0 0)
  stats : d.stats = ⟨files.length, (files.map (·.symbols.length)).sum,
    (files.map (·.references.length)).sum⟩

theorem stats_image (m : MemoryIndex) : (image m).stats = m.stats := by
  simp [image, stats, MemoryIndex.stats]

theorem keeps_fill {files : List FileExtraction} (hdistinct : (files.map (·.path)).Nodup) :
    (fill files).rows.Keeps files := by
  rw [MemoryIndex.fill_eq_image]
  have hlinked := MemoryIndex.linked_ofFiles files
  refine ⟨?_, ?_, ?_, ?_⟩
  · have h := congrArg (List.map fun p : String × Node => (p.1, p.2.compact))
      (MemoryIndex.files_ofFiles files)
    simpa [image, imageOfFile, Function.comp_def] using h
  · intro f hf
    rw [MemoryIndex.locatedSymbols_image hlinked, ← MemoryIndex.symbols_of_path hdistinct hf,
      List.filter_map, List.map_map, List.map_map]
    rfl
  · intro f hf
    rw [MemoryIndex.locatedReferences_image hlinked, ← MemoryIndex.references_of_path hdistinct hf,
      List.filter_map, List.map_map, List.map_map]
    rfl
  · rw [stats_image]
    exact Except.ok.inj (MemoryIndex.holds_ofFiles hdistinct).stats

/-- Whether tables keep what was extracted from files, and their trees are read as they were where
none of them holds a float: a decimal does not tell every float from its neighbours. -/
structure Reads (d : Database) (files : List FileExtraction) : Prop extends Keeps d files where
  holds : (∀ f ∈ files, f.FloatFree) → d.reader.Holds (files.map FileExtraction.settled)

theorem reads_fill {files : List FileExtraction} (hdistinct : (files.map (·.path)).Nodup) :
    (fill files).rows.Reads files :=
  ⟨keeps_fill hdistinct, fun h => (accounts_fill hdistinct h).1⟩

theorem filePaths_fill (files : List FileExtraction) :
    (fill files).rows.reader.filePaths = .ok (files.map (·.path)) := by
  rw [MemoryIndex.fill_eq_image, ← MemoryIndex.paths_ofFiles]
  simp [reader, image, imageOfFile]

theorem stats_fill (files : List FileExtraction) :
    (fill files).rows.reader.stats = .ok (fill files).counts := by
  rw [MemoryIndex.fill_eq_image]
  exact congrArg Except.ok (stats_image _)

theorem length_fill (files : List FileExtraction) :
    (fill files).counts.files = files.length := by
  rw [MemoryIndex.fill_eq_image]
  exact MemoryIndex.length_files_ofFiles files

end Database

/-! ## Builds -/

theorem Settings.run_build [Programs] [IndexStore σ] {settings : Settings} {cwd : Location}
    {repository : String} {d : Disk} {found : Discovery}
    (h : d.discover settings cwd repository = .ok found) (s : σ) :
    (settings.build cwd repository s).run d =
      (found.index (settings.treeSource.source cwd repository) settings.extractor s).run d := by
  rw [build, StateT.run_bind, StateT.run_get, pure_bind, h]

namespace Build

section

variable {found : Discovery} {source : TreeSource} {extractor : Extractor}
  {results : List Loading} {d d' : Disk}

/-- The files that load have distinct paths if the files that were discovered have. -/
theorem nodup_paths_loaded (hfound : found.files.Nodup)
    (hresults : results.map (·.1) = found.files)
    (hpaths : ∀ path f, (path, .ok f) ∈ results → f.path = path) :
    (((loaded results).map extractor.extract).map (·.path)).Nodup := by
  rw [map_path_extract, map_path_loaded hpaths]
  exact (loadedPaths_sublist results).nodup (hresults ▸ hfound)

/-- A build completes once its store has been rebuilt from the files that load. -/
theorem completes_of_rebuild [IndexStore σ] {files : List FileExtraction} {s t : σ}
    {size : StoreStats} {P : σ → Prop} (hresults : results.map (·.1) = found.files)
    (houtcomes : (outcomes source extractor found.files).run d =
      (results.map fun r => (r.1, r.2.map extractor.extract), d'))
    (hfiles : (loaded results).map extractor.extract = files)
    (hloaded : files.map (·.path) = loadedPaths results)
    (ht : IndexStore.rebuild s files = .ok (t, size))
    (hpaths : (IndexStore.reader t).filePaths = .ok (files.map (·.path)))
    (hstats : (IndexStore.reader t).stats = .ok size) (hsize : size.files = files.length)
    (hP : P t) : Completes found source extractor results d d' s P := by
  refine ⟨t, _, run_index houtcomes (hfiles ▸ ht), ?_, hP⟩
  have hindexed : size.files = (loadedPaths results).length := by
    rw [hsize, ← hloaded, List.length_map]
  refine ⟨hloaded ▸ hpaths, rfl, hindexed, rfl, rfl, ?_, hstats⟩
  have hall := length_loadedPaths results
  have hlength := congrArg List.length hresults
  rw [List.length_map] at hlength
  simp only [List.length_append]
  omega

end

/-- Whether each file that was discovered is loaded on its own, and every store, whatever it held,
has exactly the files that loaded after a build, each with what is extracted from it alone. -/
structure IndexesLoaded (found : Discovery) (source : TreeSource) (extractor : Extractor)
    (results : List Loading) (d d' : Disk) : Prop where
  files : results.map (·.1) = found.files
  loads : source.Loads d results d'
  memory : ∀ s : MemoryIndex, Completes found source extractor results d d' s fun t =>
    (IndexStore.reader t).Holds ((loaded results).map extractor.extract)
  tables : ∀ s : Database, Completes found source extractor results d d' s fun t =>
    t.Reads ((loaded results).map extractor.extract)
  stored : ∀ s : StoredIndex, s.opened.fixed = false →
    Completes found source extractor results d d' s fun t =>
      t.opened.rows.Reads ((loaded results).map extractor.extract)

section

variable {found : Discovery} {source : TreeSource} {extractor : Extractor}
  {results : List Loading} {d d' : Disk} {files : List FileExtraction}
  (hresults : results.map (·.1) = found.files)
  (hrun : (outcomes source extractor found.files).run d =
    (results.map fun r => (r.1, r.2.map extractor.extract), d'))
  (hfiles : (loaded results).map extractor.extract = files)
  (hloaded : files.map (·.path) = loadedPaths results)
  (hdistinct : (files.map (·.path)).Nodup)

include hresults hrun hfiles hloaded hdistinct

theorem completes_memory (s : MemoryIndex) :
    Completes found source extractor results d d' s fun t =>
      (IndexStore.reader t).Holds files := by
  have hrebuild := MemoryIndex.rebuild_eq (s := s) (checkDistinctPaths_eq_ok.mpr hdistinct)
  have hholds := MemoryIndex.holds_ofFiles hdistinct
  exact completes_of_rebuild hresults hrun hfiles hloaded hrebuild hholds.filePaths rfl
    (MemoryIndex.length_files_ofFiles files) hholds

theorem completes_tables (s : Database) :
    Completes found source extractor results d d' s fun t => t.Reads files :=
  completes_of_rebuild hresults hrun hfiles hloaded
    (Database.rebuild_eq (checkDistinctPaths_eq_ok.mpr hdistinct)) (Database.filePaths_fill files)
    (Database.stats_fill files) (Database.length_fill files) (Database.reads_fill hdistinct)

theorem completes_stored (s : StoredIndex) (hs : s.opened.fixed = false) :
    Completes found source extractor results d d' s fun t => t.opened.rows.Reads files := by
  rcases StoredIndex.save_eq_ok hs (Database.fill files).rows with ⟨t, hsave, hopened, -⟩
  have hrows : t.opened.rows = (Database.fill files).rows :=
    congrArg Disk.OpenDatabase.rows hopened
  have hreader : IndexStore.reader t = (Database.fill files).rows.reader :=
    congrArg Database.reader hrows
  have hrebuild := StoredIndex.rebuild_eq (checkDistinctPaths_eq_ok.mpr hdistinct) hsave
  apply completes_of_rebuild hresults hrun hfiles hloaded hrebuild
  · rw [hreader, Database.filePaths_fill]
  · rw [hreader, Database.stats_fill]
  · rw [Database.length_fill]
  · rw [hrows]
    exact Database.reads_fill hdistinct

end

/-- A build loses no file: those that load are indexed in their order, each with what is extracted
from it alone, all others are reported with their errors, and the report agrees with the store. -/
theorem build_indexes_loaded_files :
    (∀ {source : TreeSource} {found : Discovery} (extractor : Extractor) (d : Disk),
      source.KeepsPaths → found.files.Nodup →
        ∃ results d', IndexesLoaded found source extractor results d d') ∧
    ∀ [Programs] (settings : Settings) (cwd : Location) (repository : String) (d : Disk)
      (found : Discovery), d.discover settings cwd repository = .ok found →
      (settings.treeSource.source cwd repository).KeepsPaths ∧
      ∀ {σ : Type} [IndexStore σ] (s : σ), (settings.build cwd repository s).run d =
        (found.index (settings.treeSource.source cwd repository) settings.extractor s).run d := by
  constructor
  · intro source found extractor d hsource hfound
    rcases run_outcomes source extractor found.files d with ⟨results, d', hresults, hloads, hrun⟩
    have hpaths := hloads.path_eq hsource
    have hdistinct : (((loaded results).map extractor.extract).map (·.path)).Nodup :=
      nodup_paths_loaded hfound hresults hpaths
    have hloaded : ((loaded results).map extractor.extract).map (·.path) = loadedPaths results := by
      rw [map_path_extract, map_path_loaded hpaths]
    exact ⟨results, d', hresults, hloads,
      completes_memory hresults hrun rfl hloaded hdistinct,
      completes_tables hresults hrun rfl hloaded hdistinct,
      completes_stored hresults hrun rfl hloaded hdistinct⟩
  · intro programs settings cwd repository d found h
    exact ⟨settings.treeSource.keepsPaths_source cwd repository, Settings.run_build h⟩

-- the dump of the first file is discovered as a file too, and has no dump itself
theorem build_indexes_loaded_files_sidecar :
    ∃ (settings : Settings) (d : Disk) (found : Discovery) (source : TreeSource)
      (results : List Loading) (d' : Disk),
      settings = { treeSource := .sidecar "rb" } ∧
      d = ⟨.folder [("ant.rb", .file []), ("ant.rb.rb", .file (Text.octets "\x7b\x7d"))]⟩ ∧
      found = ⟨["ant.rb", "ant.rb.rb"], []⟩ ∧ source = .sidecar [] "/" "rb" ∧
      source.KeepsPaths ∧ found.files.Nodup ∧ IndexesLoaded found source {} results d d' ∧
      ∀ [Programs] (s : MemoryIndex),
        (settings.build [] "/" s).run d = (found.index source {} s).run d := by
  rcases build_indexes_loaded_files with ⟨hindex, hsettings⟩
  let entries : List (String × Entry) :=
    [("ant.rb", .file []), ("ant.rb.rb", .file (Text.octets "\x7b\x7d"))]
  have hdiscover : Disk.discover ⟨.folder entries⟩ { treeSource := .sidecar "rb" } [] "/" =
      .ok ⟨["ant.rb", "ant.rb.rb"], []⟩ := by
    have hlocate : Disk.locate ⟨.folder entries⟩ [] "/" = .ok ([], .folder entries) := by
      have hnames : Path.names "/" = ["", ""] := by decide
      rw [Disk.locate, if_neg (by decide), if_neg (by decide), if_neg (by decide),
        if_pos (by decide), hnames]
      simp [Disk.follow, Entry.at?, Disk.maxLinks, entries]
    have hlist : Disk.list ⟨.folder entries⟩ [] "/" = .ok ([], entries) := by
      rw [Disk.list, hlocate]
      rfl
    have hextension : ["ant.rb", "ant.rb.rb"].map Path.extension? = [some "rb", some "rb"] := by
      decide
    simp only [List.map_cons, List.cons.injEq] at hextension
    rw [Disk.discover, hlist]
    simp [Discovery.ofFindings, Discovery.Walk.findings, Discovery.Walk.entriesFindings,
      Discovery.Walk.entryFindings, Discovery.inNameOrder, List.mergeSort,
      List.MergeSort.Internal.splitInTwo, Discovery.Walk.fileFindings, Discovery.Walk.indexes,
      Settings.indexes, Discovery.Finding.file?, Discovery.Finding.failure?, Discovery.pathOf,
      hextension, entries]
  have hsource := TreeSource.keepsPaths_sidecar [] "/" "rb"
  have hnodup : (⟨["ant.rb", "ant.rb.rb"], []⟩ : Discovery).files.Nodup := by decide
  rcases hindex {} _ hsource hnodup with ⟨results, d', h⟩
  exact ⟨_, _, _, _, results, d', rfl, rfl, rfl, rfl, hsource, hnodup, h,
    fun s => (hsettings _ _ _ _ _ hdiscover).2 s⟩

end Build

end CodeIndex
