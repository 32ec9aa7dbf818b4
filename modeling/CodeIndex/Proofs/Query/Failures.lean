import CodeIndex.Proofs.Query.Requests
import CodeIndex.Proofs.Tree.Ancestors

/-! # Failures of reads

A query asks an index for one thing after the other and stops at the first that fails. Which reads
it makes is decided by its inputs and by what the reads before gave, so the first failure among them
and nothing else makes a query fail for a reason other than a miss or a mistake of the caller.
-/

namespace CodeIndex

open Json (Value)

/-- A thing for which an index is asked. -/
inductive IndexRead where
  | file (path : String)
  | hasFile (path : String)
  | filePaths
  | symbolsInFile (path : String)
  | symbolsNamed (name : String)
  | referencesNamed (name : String)
  | stats
deriving DecidableEq, Repr

namespace IndexRead

def error? (r : IndexReader) : IndexRead → Option Error
  | .file path => (r.file path).error?
  | .hasFile path => (r.hasFile path).error?
  | .filePaths => r.filePaths.error?
  | .symbolsInFile path => (r.symbolsInFile path).error?
  | .symbolsNamed name => (r.symbolsNamed name).error?
  | .referencesNamed name => (r.referencesNamed name).error?
  | .stats => r.stats.error?

end IndexRead

def enclosing? (line : UInt32) (rows : List SymbolRecord) : Option SymbolRecord :=
  narrowest? (rows.filter fun s => s.kind.isCallable && s.span.containsLine line)

namespace Query

/-- What a query asks an index for, in its order. A mistake of the caller is noticed before the
first of these, and what a read gives decides on the next. -/
def reads (r : IndexReader) : Query → List IndexRead
  | .symbols path =>
    .hasFile path :: match r.hasFile path with
      | .ok true => [.symbolsInFile path]
      | _ => []
  | .tree path | .nodeDetails path _ | .ancestors path _ => [.file path]
  | .nodes path kind => if kind.isEmpty then [] else [.file path]
  | .definition name => if name.isEmpty then [] else [.symbolsNamed name]
  | .references name => if name.isEmpty then [] else [.referencesNamed name]
  | .callHierarchy path line =>
    if line = 0 then []
    else .hasFile path :: match r.hasFile path with
      | .ok true =>
        .symbolsInFile path :: match (r.symbolsInFile path).map (enclosing? line) with
          | .ok (some symbol) => [.referencesNamed symbol.name]
          | _ => []
      | _ => []
  | .files => [.filePaths]
  | .stats => [.stats]

def firstFailure? (r : IndexReader) (q : Query) : Option Error :=
  (q.reads r).findSome? (·.error? r)

/-- Whether a result tells of the first failure of a query, and of no failure otherwise. -/
def Reports (q : Query) (failed : Option Error) (x : Except Error α) : Prop :=
  match failed with
  | some s => x = .error (q.failure s)
  | none => ∀ err, x = .error err → err.isExpected

@[simp] theorem read_ok (q : Query) (a : α) : q.read (.ok a) = .ok a := rfl

@[simp] theorem read_error (q : Query) (s : Error) :
    q.read (.error s : Except Error α) = .error (q.failure s) := rfl

theorem reports_read (q : Query) (x : Except Error α) : q.Reports x.error? (q.read x) := by
  cases x with
  | error s => exact rfl
  | ok a => exact nofun

/-- What comes after the reads of a query may still tell of a miss or a mistake. -/
theorem Reports.bind {q : Query} {failed : Option Error} {x : Except Error α}
    (h : q.Reports failed x) {f : α → Except Error β}
    (hf : ∀ a err, f a = .error err → err.isExpected) : q.Reports failed (x >>= f) := by
  cases failed with
  | some s =>
    have hx : x = .error (q.failure s) := h
    rw [hx]
    exact rfl
  | none =>
    intro err herr
    rcases Except.bind_eq_error.mp herr with hx | ⟨a, -, hnext⟩
    · exact h err hx
    · exact hf a err hnext

theorem Reports.map {α β : Type} {q : Query} {failed : Option Error} {x : Except Error α}
    (h : q.Reports failed x) (f : α → β) : q.Reports failed (x.map f) := by
  have hmap : x.map f = x >>= fun a => .ok (f a) := by cases x <;> rfl
  rw [hmap]
  exact h.bind nofun

/-- A step that has succeeded leaves it to the rest of a query to report. -/
theorem Reports.bind_ok {q : Query} {failed : Option Error} {x : Except Error α} {a : α}
    {f : α → Except Error β} (hx : x = .ok a) (h : q.Reports failed (f a)) :
    q.Reports failed (x >>= f) := by
  rw [hx]
  exact h

theorem reports_expected {q : Query} {err : Error} (h : err.isExpected) :
    q.Reports none (.error err : Except Error α) := by
  rintro _ ⟨⟩
  exact h

end Query

namespace QueryEngine

open Query

variable (e : QueryEngine)

theorem loadTree_reports (q : Query) (path : String) :
    q.Reports ((IndexRead.file path).error? e.reader) (e.loadTree q path) := by
  unfold loadTree
  simp only [IndexRead.error?]
  cases e.reader.file path with
  | error s => exact rfl
  | ok file =>
    cases file with
    | none => exact reports_expected rfl
    | some file => exact nofun

/-- A file is asked for before anything else about it. -/
theorem requireFile_reports {q : Query} {path : String} {rest : List IndexRead}
    {next : Except Error α}
    (h : e.reader.hasFile path = .ok true → q.Reports (rest.findSome? (·.error? e.reader)) next) :
    q.Reports
      ((IndexRead.hasFile path :: match e.reader.hasFile path with
        | .ok true => rest
        | _ => []).findSome? (·.error? e.reader))
      (do e.requireFile q path; next) := by
  unfold requireFile
  rw [List.findSome?_cons, IndexRead.error?]
  cases hf : e.reader.hasFile path with
  | error s => exact rfl
  | ok known =>
    cases known with
    | false => exact reports_expected rfl
    | true => exact h hf

/-- A tree is looked at only once it has been loaded, and then only misses are left. -/
theorem loadTree_bind_reports {q : Query} {path : String} {next : Node → Except Error α}
    (h : ∀ root err, next root = .error err → err.isExpected) :
    q.Reports ([IndexRead.file path].findSome? (·.error? e.reader))
      (do let root ← e.loadTree q path; next root) := by
  rw [List.findSome?_singleton]
  exact (e.loadTree_reports q path).bind h

theorem expected_of_found {a : Address} {x : Option α} {err : Error} (h : a.found x = .error err) :
    err.isExpected := by
  obtain ⟨-, rfl⟩ := Address.found_eq_error.mp h
  rfl

theorem expected_of_atText {root : Node} {path text : String} {err : Error}
    (h : (root.atText text).mapError (·.inFile path) = .error err) : err.isExpected := by
  unfold Node.atText at h
  split at h
  · cases h
    rfl
  · next a _ =>
    cases hat : root.at? a with
    | none =>
      rw [Node.lookup, hat] at h
      cases h
      rfl
    | some m =>
      rw [Node.lookup, hat] at h
      cases h

/-- Where the calls out of a tree are not found, this is a miss. -/
theorem expected_of_outboundCalls {r : LanguageRules} {tree : Option Node} {err : Error}
    (h : tree.elim (.ok []) r.outboundCalls = .error err) : err.isExpected := by
  cases tree with
  | none => cases h
  | some n =>
    rcases Except.bind_eq_error.mp h with hbelow | ⟨calls, -, h⟩
    · exact expected_of_found hbelow
    · cases h

/-- An empty argument is refused before anything is read. -/
theorem nonempty_reports {q : Query} {name value : String} {rest : List IndexRead}
    {next : Except Error α} (h : q.Reports (rest.findSome? (·.error? e.reader)) next) :
    q.Reports ((if value.isEmpty then [] else rest).findSome? (·.error? e.reader))
      (do q.nonempty name value; next) := by
  unfold nonempty
  by_cases hv : value.isEmpty
  · rw [if_pos hv, if_pos hv]
    exact reports_expected rfl
  · rw [if_neg hv, if_neg hv]
    exact h

theorem last_reports (q : Query) (c : IndexRead) {x : Except Error α}
    (h : c.error? e.reader = x.error?) :
    q.Reports ([c].findSome? (·.error? e.reader)) (q.read x) := by
  rw [List.findSome?_singleton, h]
  exact q.reports_read x

theorem symbols_reports (path : String) :
    (Query.symbols path).Reports ((Query.symbols path).firstFailure? e.reader)
      (e.symbols path) :=
  e.requireFile_reports fun _ => e.last_reports _ _ rfl

theorem nodes_reports (path kind : String) :
    (Query.nodes path kind).Reports ((Query.nodes path kind).firstFailure? e.reader)
      (e.nodes path kind) :=
  e.nonempty_reports (e.loadTree_bind_reports nofun)

theorem nodeDetails_reports (path id : String) :
    (Query.nodeDetails path id).Reports ((Query.nodeDetails path id).firstFailure? e.reader)
      (e.nodeDetails path id) := by
  refine e.loadTree_bind_reports fun root err herr => ?_
  rcases Except.bind_eq_error.mp herr with h | ⟨_, -, h⟩
  · exact expected_of_atText h
  · cases h

theorem ancestors_reports (path id : String) :
    (Query.ancestors path id).Reports ((Query.ancestors path id).firstFailure? e.reader)
      (e.ancestors path id) := by
  refine e.loadTree_bind_reports fun root err herr => ?_
  rcases Except.bind_eq_error.mp herr with h | ⟨⟨a, n⟩, -, h⟩
  · exact expected_of_atText h
  · rcases Except.bind_eq_error.mp h with h | ⟨above, -, h⟩
    · exact expected_of_found h
    · cases h

theorem callHierarchy_reports (path : String) (line : UInt32) :
    (Query.callHierarchy path line).Reports ((Query.callHierarchy path line).firstFailure? e.reader)
      (e.callHierarchy path line) := by
  by_cases hl : line = 0
  · subst hl
    exact reports_expected rfl
  · have hreads : (Query.callHierarchy path line).reads e.reader = _ := if_neg hl
    unfold callHierarchy firstFailure?
    rw [hreads]
    simp only [if_neg hl]
    refine e.requireFile_reports fun _ => ?_
    rw [List.findSome?_cons, IndexRead.error?]
    cases e.reader.symbolsInFile path with
    | error s => exact rfl
    | ok rows =>
      have hs : enclosing? line rows = narrowest? (rows.filter fun s =>
        s.kind.isCallable && s.span.containsLine line) := rfl
      simp only [Except.error?_ok, read_ok, Except.map]
      cases hn : enclosing? line rows with
      | none =>
        rw [hn] at hs
        refine Reports.bind_ok rfl ?_
        rw [← hs]
        exact reports_expected rfl
      | some symbol =>
        rw [hn] at hs
        refine Reports.bind_ok rfl ?_
        rw [← hs]
        refine (e.last_reports _ (.referencesNamed symbol.name) rfl).bind fun inbound err herr => ?_
        rcases Except.bind_eq_error.mp herr with houtbound | ⟨outbound, -, h⟩
        · exact expected_of_outboundCalls houtbound
        · cases h

/-- A query fails as the first of its reads that fails; where none does, only a miss or a mistake of
the caller is left to tell. -/
theorem answer_reports (q : Query) : q.Reports (q.firstFailure? e.reader) (e.answer q) := by
  cases q with
  | symbols path => exact (e.symbols_reports path).map _
  | tree path =>
    have h : (Query.tree path).Reports ((Query.tree path).firstFailure? e.reader)
        (e.loadTree (.tree path) path >>= pure) := e.loadTree_bind_reports nofun
    rw [bind_pure] at h
    exact h.map _
  | nodes path kind => exact (e.nodes_reports path kind).map _
  | nodeDetails path id => exact (e.nodeDetails_reports path id).map _
  | ancestors path id => exact (e.ancestors_reports path id).map _
  | definition name => exact Reports.map (e.nonempty_reports (e.last_reports _ _ rfl)) _
  | references name => exact Reports.map (e.nonempty_reports (e.last_reports _ _ rfl)) _
  | callHierarchy path line => exact (e.callHierarchy_reports path line).map _
  | files => exact Reports.map (e.last_reports _ _ rfl) _
  | stats => exact Reports.map (e.last_reports _ _ rfl) _

end QueryEngine

namespace MethodRegistry

def firstFailure? (r : IndexReader) (name : String) (params : Value) : Option Error :=
  match Query.ofRequest name params with
  | .error _ => none
  | .ok q => q.firstFailure? r

theorem message_readFailed (s : Error) (operation : Option String) :
    Error.message { cause := .readFailed s, operation := operation } =
      "Index read failed: " ++ s.message := by
  rw [Error.message]
  unfold Cause.message
  rfl

/-- What a request comes to when its first failing read is known. -/
theorem dispatch_of_firstFailure? {e : QueryEngine} {name : String} {params : Value} {s : Error}
    (h : firstFailure? e.reader name params = some s) :
    ∃ m ∈ QueryMethod.builtIn, m.name = name ∧
      builtIn.dispatch e name params = .error
        (if s.isExpected then s
          else { cause := .readFailed s, operation := some (m.callText params) }) := by
  unfold firstFailure? at h
  rw [dispatch_eq]
  cases hq : Query.ofRequest name params with
  | error err =>
    rw [hq] at h
    cases h
  | ok q =>
    simp only [hq] at h
    have hanswer := e.answer_reports q
    rw [h] at hanswer
    obtain ⟨m, hm, hname, htext, -⟩ := Query.of_ofRequest hq
    refine ⟨m, hm, hname, ?_⟩
    rw [htext]
    exact hanswer

/-- Where no read fails, only a miss or a mistake of the caller is reported. -/
theorem expected_of_firstFailure? {e : QueryEngine} {name : String} {params : Value} {err : Error}
    (h : firstFailure? e.reader name params = none)
    (herr : builtIn.dispatch e name params = .error err) : err.isExpected := by
  unfold firstFailure? at h
  rw [dispatch_eq] at herr
  cases hq : Query.ofRequest name params with
  | error e' =>
    rw [hq] at herr
    cases herr
    have hk := Query.kind_of_ofRequest hq
    simp [Error.isExpected, hk]
  | ok q =>
    simp only [hq] at h
    rw [hq] at herr
    have hanswer := e.answer_reports q
    rw [h] at hanswer
    exact hanswer err herr

/-- A request that no method can take is refused alike whatever is indexed. -/
theorem dispatch_of_not_wellFormed {name : String} {params : Value}
    (h : ∀ m ∈ QueryMethod.builtIn, m.name = name → ¬ m.WellFormed params) :
    ∃ err : Error, err.kind = .invalidArgument ∧
      ∀ e : QueryEngine, builtIn.dispatch e name params = .error err := by
  cases hq : Query.ofRequest name params with
  | error err =>
    refine ⟨err, Query.kind_of_ofRequest hq, fun e => ?_⟩
    rw [dispatch_eq, hq]
    rfl
  | ok q =>
    obtain ⟨m, hm, hname, -, hform⟩ := Query.of_ofRequest hq
    cases hb : q.blank? with
    | none => exact absurd (hform hb) (h m hm hname)
    | some p =>
      obtain ⟨err, hkind, herr⟩ := Query.kind_of_blank hb
      refine ⟨err, hkind, fun e => ?_⟩
      rw [dispatch_eq, hq]
      exact herr e

/-- Whatever an index answers, a request ends in a miss, in a mistake of the caller or in a failed
query, and it fails just when the first of its reads that fails does so for another reason than a
miss or a mistake. The failure then names the method with its inputs and keeps the error of the
index, whose misses and mistakes are passed on as they are. A request that no method can take is a
mistake of the caller, whatever is indexed. -/
theorem dispatch_errors (name : String) (params : Value) :
    ((∀ m ∈ QueryMethod.builtIn, m.name = name → ¬ m.WellFormed params) →
      ∃ err : Error, err.kind = .invalidArgument ∧
        ∀ e : QueryEngine, builtIn.dispatch e name params = .error err) ∧
    ∀ e : QueryEngine,
      (∀ err, builtIn.dispatch e name params = .error err →
        (err.kind = .notFound ∨ err.kind = .invalidArgument ∨ err.kind = .internal) ∧
        (err.kind = .internal ↔ ∃ s, firstFailure? e.reader name params = some s ∧
          s.kind ≠ .notFound ∧ s.kind ≠ .invalidArgument)) ∧
      (∀ s, firstFailure? e.reader name params = some s →
        s.kind ≠ .notFound → s.kind ≠ .invalidArgument →
        ∃ err, builtIn.dispatch e name params = .error err ∧ err.kind = .internal ∧
          err.message = "Index read failed: " ++ s.message ∧ err.cause = .readFailed s ∧
          ∃ m ∈ QueryMethod.builtIn, m.name = name ∧
            err.operation = some (m.callText params)) ∧
      ∀ s, firstFailure? e.reader name params = some s →
        s.kind = .notFound ∨ s.kind = .invalidArgument →
        builtIn.dispatch e name params = .error s := by
  have hexpected : ∀ s : Error, s.isExpected = true ↔
      s.kind = .notFound ∨ s.kind = .invalidArgument := by
    intro s
    simp [Error.isExpected]
  refine ⟨dispatch_of_not_wellFormed, fun e => ⟨fun err herr => ?_, fun s hs hn hi => ?_,
    fun s hs hk => ?_⟩⟩
  · cases hs : firstFailure? e.reader name params with
    | none =>
      have hk := (hexpected err).mp (expected_of_firstFailure? hs herr)
      refine ⟨hk.imp_right .inl, fun h => ?_, nofun⟩
      rcases hk with hk | hk <;> rw [h] at hk <;> cases hk
    | some s =>
      obtain ⟨m, -, -, hm⟩ := dispatch_of_firstFailure? hs
      obtain rfl := Except.error.inj (herr.symm.trans hm)
      by_cases hx : s.isExpected
      · have hk := (hexpected s).mp hx
        simp only [if_pos hx]
        refine ⟨hk.imp_right .inl, fun h => ?_, ?_⟩
        · rcases hk with hk | hk <;> rw [h] at hk <;> cases hk
        · rintro ⟨_, ⟨⟩, hn, hi⟩
          exact absurd hk (not_or.mpr ⟨hn, hi⟩)
      · rw [hexpected, not_or] at hx
        simp only [hexpected, hx.1, hx.2, or_self, if_false]
        exact ⟨.inr (.inr rfl), fun _ => ⟨s, rfl, hx⟩, fun _ => rfl⟩
  · obtain ⟨m, hm, hname, h⟩ := dispatch_of_firstFailure? hs
    rw [if_neg (by rw [hexpected, not_or]; exact ⟨hn, hi⟩)] at h
    exact ⟨_, h, rfl, message_readFailed s _, rfl, m, hm, hname, rfl⟩
  · obtain ⟨m, -, -, h⟩ := dispatch_of_firstFailure? hs
    rw [h, if_pos ((hexpected s).mpr hk)]

def unreadable (s : Error) : IndexReader where
  file _ := .error s
  hasFile _ := .error s
  filePaths := .error s
  symbolsInFile _ := .error s
  symbolsNamed _ := .error s
  referencesNamed _ := .error s
  stats := .error s

theorem dispatch_errors_unreadable :
    ∃ (params : Value) (s : Error),
      params = .object [("file_path", .string "a.rb")] ∧ s = { cause := .store .noRows } ∧
      (∃ err, builtIn.dispatch ⟨unreadable s, .ruby⟩ "getSymbols" params = .error err ∧
        err.kind = .internal ∧ err.cause = .readFailed s) ∧
      builtIn.dispatch ⟨unreadable (notIndexed "a.rb"), .ruby⟩ "getSymbols" params =
        .error (notIndexed "a.rb") ∧
      ∃ err : Error, err.kind = .invalidArgument ∧
        ∀ e : QueryEngine, builtIn.dispatch e "queryNodes" params = .error err := by
  have hfirst : ∀ s, firstFailure? (unreadable s) "getSymbols"
      (.object [("file_path", .string "a.rb")]) = some s := by
    intro s
    unfold firstFailure? Query.ofRequest
    rw [get?_builtIn]
    rfl
  refine ⟨_, _, rfl, rfl, ?_, ?_, (dispatch_errors "queryNodes" _).1 ?_⟩
  · obtain ⟨err, herr, hkind, -, hcause, -⟩ :=
      ((dispatch_errors "getSymbols" _).2 ⟨unreadable _, .ruby⟩).2.1
        { cause := .store .noRows } (hfirst _) (by decide) (by decide)
    exact ⟨err, herr, hkind, hcause⟩
  · exact ((dispatch_errors "getSymbols" _).2 ⟨unreadable _, .ruby⟩).2.2 _ (hfirst _) (.inl rfl)
  · intro m hm hname hform
    simp only [QueryMethod.builtIn, List.mem_cons, List.not_mem_nil, or_false] at hm
    rcases hm with rfl | rfl | rfl | rfl | rfl | rfl | rfl | rfl | rfl | rfl <;>
      simp at hname
    obtain ⟨v, hv, -⟩ := hform.inputs "kind" (by simp)
    simp [Value.field?, List.lookup_cons, List.lookup_nil] at hv

end MethodRegistry

end CodeIndex
