import CodeIndex.Store.Reader

/-! # Calls of stores

A store is used by one call after the other, and only a rebuild that is not refused changes it. Two
stores that answer all reads alike, and that are rebuilt alike into such stores, cannot be told apart
by any calls.
-/

namespace CodeIndex

inductive StoreCall where
  | rebuild (files : List FileExtraction)
  | file (path : String)
  | hasFile (path : String)
  | filePaths
  | symbolsInFile (path : String)
  | symbolsNamed (name : String)
  | referencesNamed (name : String)
  | stats

inductive StoreAnswer where
  | rebuilt (r : Except Error StoreStats)
  | file (r : Except Error (Option IndexedFile))
  | hasFile (r : Except Error Bool)
  | filePaths (r : Except Error (List String))
  | symbols (r : Except Error (List SymbolRecord))
  | references (r : Except Error (List ReferenceRecord))
  | stats (r : Except Error StoreStats)

namespace StoreCall

def files : StoreCall → List FileExtraction
  | .rebuild files => files
  | _ => []

/-- What a call makes of a store, and its answer. A store that refuses a rebuild stays as it is. -/
def perform [IndexStore σ] (c : StoreCall) (s : σ) : σ × StoreAnswer :=
  let reader := IndexStore.reader s
  match c with
  | .rebuild files =>
    match IndexStore.rebuild s files with
    | .ok (s, size) => (s, .rebuilt (.ok size))
    | .error e => (s, .rebuilt (.error e))
  | .file path => (s, .file (reader.file path))
  | .hasFile path => (s, .hasFile (reader.hasFile path))
  | .filePaths => (s, .filePaths reader.filePaths)
  | .symbolsInFile path => (s, .symbols (reader.symbolsInFile path))
  | .symbolsNamed name => (s, .symbols (reader.symbolsNamed name))
  | .referencesNamed name => (s, .references (reader.referencesNamed name))
  | .stats => (s, .stats reader.stats)

end StoreCall

def IndexStore.answers [IndexStore σ] (s : σ) : List StoreCall → List StoreAnswer
  | [] => []
  | c :: cs => (c.perform s).2 :: answers (c.perform s).1 cs

/-! ## Stores that cannot be told apart -/

/-- Whether stores related by `R` answer all reads alike, and a rebuild from files that satisfy `P`
is refused by both with the same error or gives the same size and related stores again. -/
structure StoreSimulation [IndexStore σ] [IndexStore τ] (R : σ → τ → Prop)
    (P : FileExtraction → Prop) : Prop where
  reader : ∀ {s t}, R s t → IndexStore.reader s = IndexStore.reader t
  rebuild : ∀ {s t} {files : List FileExtraction}, R s t → (∀ f ∈ files, P f) →
    (∃ e, IndexStore.rebuild s files = .error e ∧ IndexStore.rebuild t files = .error e) ∨
      ∃ s' t' stats, IndexStore.rebuild s files = .ok (s', stats) ∧
        IndexStore.rebuild t files = .ok (t', stats) ∧ R s' t'

namespace StoreSimulation

variable [IndexStore σ] [IndexStore τ] {R : σ → τ → Prop} {P : FileExtraction → Prop}
  {s : σ} {t : τ}

theorem perform (h : StoreSimulation R P) {c : StoreCall} (hc : ∀ f ∈ c.files, P f) (hr : R s t) :
    (c.perform s).2 = (c.perform t).2 ∧ R (c.perform s).1 (c.perform t).1 := by
  have hread := h.reader hr
  cases c with
  | rebuild files =>
    have hp : ∀ f ∈ files, P f := hc
    rcases h.rebuild hr hp with ⟨e, hs, ht⟩ | ⟨s', t', stats, hs, ht, hr'⟩
    · simp only [StoreCall.perform, hs, ht]
      exact ⟨trivial, hr⟩
    · simp only [StoreCall.perform, hs, ht]
      exact ⟨trivial, hr'⟩
  | file | hasFile | filePaths | symbolsInFile | symbolsNamed | referencesNamed | stats =>
    exact ⟨by simp only [StoreCall.perform, hread], hr⟩

theorem answers (h : StoreSimulation R P) {calls : List StoreCall}
    (hcalls : ∀ c ∈ calls, ∀ f ∈ c.files, P f) (hr : R s t) :
    IndexStore.answers s calls = IndexStore.answers t calls := by
  induction calls generalizing s t with
  | nil => rfl
  | cons c calls ih =>
    obtain ⟨ha, hr'⟩ := h.perform (hcalls c List.mem_cons_self) hr
    rw [IndexStore.answers, IndexStore.answers, ha,
      ih (fun d hd => hcalls d (List.mem_cons_of_mem _ hd)) hr']

end StoreSimulation

end CodeIndex
