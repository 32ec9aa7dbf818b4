import CodeIndex.Disk.StoredIndex
import CodeIndex.Proofs.Disk.Databases
import CodeIndex.Proofs.Store.Agreement
import Mathlib.Tactic.Set

/-! # Sessions with stores

An index in memory, one in the tables of a database and one in a database on a disk answer the same
calls alike, refusals included. The database on a disk may be closed and opened again between any two
calls, under any address that leads to it.
-/

namespace CodeIndex

/-- What is done with a store on a disk. -/
inductive StoreUse where
  | call (c : StoreCall)
  /-- Closes the store, and opens the database that an address leads to. -/
  | reopen (cwd : Location) (text : String)

namespace StoreUse

def call? : StoreUse → Option StoreCall
  | .call c => some c
  | .reopen .. => none

/-- Whether files are handed over whose trees were read from texts, and the store is opened again
under addresses that lead to it. -/
def FitsFor (s : StoredIndex) : StoreUse → Prop
  | .call c => ∀ f ∈ c.files, f.FromTexts
  | .reopen cwd text => StoredIndex.ofAddress s.disk cwd text = .ok s

end StoreUse

namespace StoredIndex

/-- The answers to the calls among the uses of a store, unless it cannot be opened again. -/
def answers (s : StoredIndex) : List StoreUse → Except StoreFault (List StoreAnswer)
  | [] => .ok []
  | .call c :: uses => do return (c.perform s).2 :: (← (c.perform s).1.answers uses)
  | .reopen cwd text :: uses => do
    let s ← ofAddress s.disk cwd text
    s.answers uses

/-- Whether rows can be kept, at the same place as in `start`, and every address that leads to
`start` leads here. -/
structure Follows (start s : StoredIndex) : Prop where
  writable : s.opened.fixed = false
  location : ∃ l, s.opened.location = some l
  addresses : ∀ cwd text, ofAddress start.disk cwd text = .ok start →
    ofAddress s.disk cwd text = .ok s

theorem ofAddress_eq_ok {d : Disk} {cwd : Location} {text : String} {s : StoredIndex} :
    ofAddress d cwd text = .ok s ↔ d.openDatabase cwd text = .ok (s.disk, s.opened) := by
  rw [ofAddress, Except.bind_eq_ok]
  constructor
  · rintro ⟨⟨disk, opened⟩, hd, hs⟩
    cases hs
    exact hd
  · exact fun h => ⟨_, h, rfl⟩

/-- Rows are saved in place of those before, and the place stays the same. -/
theorem follows_save {start s : StoredIndex} (h : start.Follows s) (rows : Database) :
    ∃ s', s.save rows = .ok s' ∧ s'.opened.rows = rows ∧ start.Follows s' := by
  obtain ⟨l, hl⟩ := h.location
  refine ⟨⟨s.disk.put l (.database rows), { s.opened with rows }⟩, ?_, rfl, h.writable, ⟨l, hl⟩,
    fun cwd text hstart => ?_⟩
  · simp [save, Disk.OpenDatabase.save, h.writable, hl]
  · have hs := ofAddress_eq_ok.mp (h.addresses cwd text hstart)
    exact ofAddress_eq_ok.mpr (Disk.openDatabase_put hs hl rows)

/-- An index in memory and one on a disk that holds its images cannot be told apart. -/
theorem simulation (start : StoredIndex) :
    StoreSimulation (fun (s : StoredIndex) (m : MemoryIndex) =>
      start.Follows s ∧ m.Sound ∧ s.opened.rows = Database.image m) FileExtraction.FromTexts where
  reader := by
    rintro s m ⟨-, hm⟩
    exact (MemoryIndex.simulation.reader hm).symm
  rebuild := by
    rintro s m files ⟨hs, hm⟩ hfiles
    rcases MemoryIndex.simulation.rebuild hm hfiles with ⟨e, he, hd⟩ | ⟨m', d, stats, hm', hd, hr⟩
    · refine .inl ⟨e, ?_, he⟩
      simp only [IndexStore.rebuild] at hd ⊢
      rw [hd]
      rfl
    · obtain ⟨s', hsave, hrows, hs'⟩ := follows_save hs d
      refine .inr ⟨s', m', stats, ?_, hm', hs', hr.1, hrows.trans hr.2⟩
      simp only [IndexStore.rebuild] at hd ⊢
      rw [hd]
      simp only [bind, Except.bind, hsave]
      rfl

theorem answers_eq {start s : StoredIndex} {m : MemoryIndex} {uses : List StoreUse}
    (huses : ∀ u ∈ uses, u.FitsFor start) (hs : start.Follows s) (hm : m.Sound)
    (hr : s.opened.rows = Database.image m) :
    s.answers uses = .ok (IndexStore.answers m (uses.filterMap StoreUse.call?)) := by
  induction uses generalizing s m with
  | nil => rfl
  | cons u uses ih =>
    have hu := huses u List.mem_cons_self
    have hrest := fun v hv => huses v (List.mem_cons_of_mem _ hv)
    cases u with
    | call c =>
      obtain ⟨ha, hs', hm', hr'⟩ := (simulation start).perform hu ⟨hs, hm, hr⟩
      have hc : (StoreUse.call c :: uses).filterMap StoreUse.call? =
        c :: uses.filterMap StoreUse.call? := rfl
      rw [answers, ih hrest hs' hm' hr', hc, IndexStore.answers, ← ha]
      rfl
    | reopen cwd text =>
      have hc : (StoreUse.reopen cwd text :: uses).filterMap StoreUse.call? =
        uses.filterMap StoreUse.call? := rfl
      rw [answers, hs.addresses cwd text hu, hc, ← ih hrest hs hm hr]
      rfl

end StoredIndex

/-- From empty stores on, the tables of a database answer any calls as an index in memory does, with
the same records, sizes and errors, and so does a database on a disk, however often it is closed and
opened again on the way. -/
theorem stores_agree :
    (∀ calls : List StoreCall, (∀ c ∈ calls, ∀ f ∈ c.files, f.FromTexts) →
      IndexStore.answers ({} : Database) calls = IndexStore.answers ({} : MemoryIndex) calls) ∧
    ∀ (s : StoredIndex) (uses : List StoreUse), s.opened.rows = {} → s.opened.fixed = false →
      s.opened.location.isSome → (∀ u ∈ uses, u.FitsFor s) →
      s.answers uses =
        .ok (IndexStore.answers ({} : MemoryIndex) (uses.filterMap StoreUse.call?)) := by
  have hempty : MemoryIndex.Sound {} ∧ ({} : Database) = Database.image {} :=
    ⟨MemoryIndex.sound_empty, rfl⟩
  refine ⟨fun calls h => (MemoryIndex.simulation.answers h hempty).symm,
    fun s uses hrows hfixed hl huses => ?_⟩
  have hs : s.Follows s := ⟨hfixed, Option.isSome_iff_exists.mp hl, fun _ _ h => h⟩
  exact StoredIndex.answers_eq huses hs hempty.1 (hrows.trans hempty.2)

theorem stores_agree_reopened :
    ∃ (f : FileExtraction) (s : StoredIndex),
      f = ⟨"dog.rb", .branch (some "class") [.literal (.str "Dog")] (some ⟨1, 3⟩),
        [⟨"bark", .callable, "Dog", ⟨2, 2⟩, none, some (.branch (some "def") [] none)⟩],
        [⟨"puts", ⟨2, 2⟩⟩]⟩ ∧
      s = ⟨⟨.folder [("index.db", .database {})]⟩, { location := some ["index.db"] }⟩ ∧
      f.FromTexts ∧ StoredIndex.ofAddress s.disk [] "index.db" = .ok s ∧
      IndexStore.answers ({} : Database) [.rebuild [f], .rebuild [f, f], .symbolsNamed "bark"] =
        IndexStore.answers ({} : MemoryIndex) [.rebuild [f], .rebuild [f, f], .symbolsNamed "bark"] ∧
      s.answers [.call (.rebuild [f]), .reopen [] "index.db", .call (.rebuild [f, f]),
          .reopen [] "index.db", .call (.symbolsNamed "bark")] =
        .ok (IndexStore.answers ({} : MemoryIndex)
          [.rebuild [f], .rebuild [f, f], .symbolsNamed "bark"]) := by
  refine ⟨_, _, rfl, rfl, ?_⟩
  set f : FileExtraction := ⟨"dog.rb", _, _, _⟩
  set s : StoredIndex := ⟨_, _⟩
  have hf : f.FromTexts := by
    have hfree : ∀ n ∈ f.trees, n.FloatFree := by decide
    have hcanonical : ∀ n ∈ f.trees, n.Canonical := by decide
    exact fun n hn =>
      ⟨⟨_, n, [], Node.read_compact (hfree n hn) (hcanonical n hn), rfl⟩, hfree n hn⟩
  have hway : s.disk.wayTo Disk.maxDatabaseLinks [] ["index.db"] = some ["index.db"] := by
    rw [Disk.wayTo_cons, if_neg (by decide), if_neg (by decide), if_neg (by decide)]
    exact Disk.wayTo.eq_1 ..
  have hs : StoredIndex.ofAddress s.disk [] "index.db" = .ok s := by
    have ha : DatabaseAddress.ofText? "index.db" = some { path := "index.db" } := by decide
    have hp : Path.names "index.db" = ["index.db"] := by decide
    rw [StoredIndex.ofAddress_eq_ok, Disk.openDatabase, ha]
    dsimp only
    rw [if_neg (by decide), if_neg (by decide), hp, hway]
    rfl
  refine ⟨hf, hs, stores_agree.1 _ ?_, stores_agree.2 s _ rfl rfl rfl ?_⟩
  · simp [StoreCall.files, hf]
  · simp [StoreUse.FitsFor, StoreCall.files, hf, hs]

end CodeIndex
