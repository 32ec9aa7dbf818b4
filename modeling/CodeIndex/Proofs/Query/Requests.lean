import CodeIndex.Proofs.Except
import CodeIndex.Query.Methods

/-! # Requests

A request names a method and brings its parameters as a JSON value. From the two a query is made
before any store is asked, and the answer to the request is the answer to that query. A request
from which none can be made is refused as a mistake of the caller.
-/

namespace CodeIndex

open Json (Value)

/-! ## Methods by name -/

namespace MethodRegistry

theorem get?_insert (r : MethodRegistry) (m : QueryMethod) (name : String) :
    (r.insert m).get? name = if m.name = name then some m else r.get? name := by
  obtain ⟨ms⟩ := r
  simp only [insert, get?]
  induction ms with
  | nil => by_cases h : m.name = name <;> simp [insertByName, h]
  | cons other ms ih =>
    rw [insertByName]
    split
    · by_cases h : m.name = name <;> simp [List.find?_cons, h]
    split
    · next ho =>
      by_cases h : m.name = name
      · simp [h]
      · simp [h, ← ho]
    · next ho =>
      rw [List.find?_cons, ih, List.find?_cons]
      by_cases h : m.name = name
      · have hne : (other.name == name) = false := by simp [← h, Ne.symm ho]
        simp only [hne, if_pos h]
      · simp only [if_neg h]

theorem get?_builtIn (name : String) :
    builtIn.get? name = QueryMethod.builtIn.reverse.find? (·.name == name) := by
  have h : ∀ (ms : List QueryMethod) (r : MethodRegistry),
      (ms.foldl insert r).get? name = (ms.reverse.find? (·.name == name)).or (r.get? name) := by
    intro ms
    induction ms with
    | nil => intro r; rfl
    | cons m ms ih =>
      intro r
      rw [List.foldl_cons, ih, get?_insert, List.reverse_cons, List.find?_append, Option.or_assoc]
      by_cases hm : m.name = name <;> simp [hm]
  rw [builtIn, h]
  exact Option.or_none

/-- A method that is found is one of those built in, and has the name. -/
theorem of_get?_builtIn {name : String} {m : QueryMethod} (h : builtIn.get? name = some m) :
    m ∈ QueryMethod.builtIn ∧ m.name = name := by
  rw [get?_builtIn] at h
  exact ⟨List.mem_reverse.mp (List.mem_of_find?_eq_some h), by simpa using List.find?_some h⟩

end MethodRegistry

/-! ## Parameters -/

namespace Params

theorem string_eq_ok {params : Value} {name s : String} :
    string params name = .ok s ↔ params.field? name = some (.string s) := by
  unfold string find
  cases params.field? name with
  | none => exact ⟨nofun, nofun⟩
  | some v => cases v <;> simp [bind, Except.bind, pure, Except.pure]

theorem kind_of_string {params : Value} {name : String} {e : Error}
    (h : string params name = .error e) : e.kind = .invalidArgument := by
  unfold string find at h
  cases hv : params.field? name with
  | none => rw [hv] at h; cases h; rfl
  | some v => rw [hv] at h; cases v <;> cases h <;> rfl

theorem word?_eq_some {v : Value} {n : UInt32} : v.word? = some n ↔ v = .nat n.toNat := by
  constructor
  · intro h
    obtain ⟨k, hk, rfl⟩ := Option.map_eq_some_iff.mp h
    unfold Value.natBelow? at hk
    split at hk
    · next i hi =>
      split at hk
      · next hlt =>
        cases hk
        match v, hi with
        | .number (.int _), rfl =>
          rw [UInt32.toNat_ofNat_of_lt' hlt]
          rfl
      · cases hk
    · cases hk
  · rintro rfl
    have h : (Value.nat n.toNat).natBelow? UInt32.size = some n.toNat := if_pos n.toNat_lt
    rw [Value.word?, h, Option.map_some, UInt32.ofNat_toNat]

theorem line_eq_ok {params : Value} {name : String} {n : UInt32} :
    line params name = .ok n ↔ n ≠ 0 ∧ params.field? name = some (.nat n.toNat) := by
  unfold line find
  cases params.field? name with
  | none => exact ⟨nofun, nofun⟩
  | some v =>
    simp only [bind, Except.bind, Option.some.injEq, ← word?_eq_some (v := v)]
    cases v.word? with
    | none => exact ⟨nofun, nofun⟩
    | some k =>
      by_cases hk : k = 0
      · simp only [hk, if_true]
        exact ⟨nofun, fun ⟨h, he⟩ => absurd (Option.some.inj he).symm h⟩
      · simp only [if_neg hk, pure, Except.pure, Except.ok.injEq, Option.some.injEq]
        exact ⟨fun h => ⟨h ▸ hk, h⟩, fun h => h.2⟩

theorem kind_of_line {params : Value} {name : String} {e : Error}
    (h : line params name = .error e) : e.kind = .invalidArgument := by
  unfold line find at h
  cases hv : params.field? name with
  | none => rw [hv] at h; cases h; rfl
  | some v =>
    simp only [hv, bind, Except.bind] at h
    split at h
    · split at h <;> cases h
      rfl
    · cases h
      rfl

theorem ensureObject_eq_ok {params : Value} :
    ensureObject params = .ok () ↔ params = .null ∨ ∃ fields, params = .object fields := by
  cases params <;> simp [ensureObject]

theorem kind_of_ensureObject {params : Value} {e : Error} (h : ensureObject params = .error e) :
    e.kind = .invalidArgument := by
  cases params <;> cases h <;> rfl

end Params

/-! ## Queries of requests -/

namespace Query

def ofParams (params : Value) : String → Except Error Query
  | "getSymbols" => return .symbols (← Params.string params "file_path")
  | "getTree" => return .tree (← Params.string params "file_path")
  | "queryNodes" => do
    let path ← Params.string params "file_path"
    return .nodes path (← Params.string params "kind")
  | "getNodeDetails" => do
    let path ← Params.string params "file_path"
    return .nodeDetails path (← Params.string params "id")
  | "getAncestors" => do
    let path ← Params.string params "file_path"
    return .ancestors path (← Params.string params "id")
  | "findDefinition" => return .definition (← Params.string params "name")
  | "findReferences" => return .references (← Params.string params "name")
  | "getCallHierarchy" => do
    let path ← Params.string params "file_path"
    return .callHierarchy path (← Params.line params "line")
  | "listFiles" => return .files
  | "getStats" => return .stats
  | name => .error { cause := .unknownMethod name }

def ofRequest (name : String) (params : Value) : Except Error Query :=
  match MethodRegistry.builtIn.get? name with
  | none => .error { cause := .unknownMethod name }
  | some _ => do
    Params.ensureObject params
    ofParams params name

end Query

namespace QueryEngine

open QueryMethod (answers)

def answer (e : QueryEngine) : Query → Except Error Value
  | .symbols path => (e.symbols path).map (answers SymbolRecord.toJson)
  | .tree path => (e.tree path).map Node.toJson
  | .nodes path kind => (e.nodes path kind).map (answers NodeMatch.toJson)
  | .nodeDetails path id => (e.nodeDetails path id).map Node.toJson
  | .ancestors path id => (e.ancestors path id).map (answers NodeMatch.toJson)
  | .definition name => (e.definition name).map (answers SymbolRecord.toJson)
  | .references name => (e.references name).map (answers ReferenceRecord.toJson)
  | .callHierarchy path line => (e.callHierarchy path line).map CallHierarchy.toJson
  | .files => e.files.map (answers Value.string)
  | .stats => e.stats.map StoreStats.toJson

end QueryEngine

/-- A method answers the query that its parameters make. -/
theorem QueryMethod.run_eq {m : QueryMethod} (hm : m ∈ builtIn) (e : QueryEngine) (params : Value) :
    m.run e params = (Query.ofParams params m.name).bind e.answer := by
  have hpure : ∀ {α β : Type} (x : Except Error α) (f : α → β),
      (x >>= fun a => pure (f a)) = x.map f := by
    intro α β x f
    cases x <;> rfl
  have hmap : ∀ {α β γ : Type} (x : Except Error α) (f : α → β) (g : β → Except Error γ),
      (x.map f).bind g = x >>= fun a => g (f a) := by
    intro α β γ x f g
    cases x <;> rfl
  have hbind : ∀ {α β γ : Type} (x : Except Error α) (f : α → Except Error β)
      (g : β → Except Error γ), (x >>= f).bind g = x >>= fun a => (f a).bind g := by
    intro α β γ x f g
    cases x <;> rfl
  simp only [builtIn, List.mem_cons, List.not_mem_nil, or_false] at hm
  rcases hm with rfl | rfl | rfl | rfl | rfl | rfl | rfl | rfl | rfl | rfl <;>
    simp only [Query.ofParams, hpure, hmap, hbind] <;> rfl

/-- A request is answered as the query for which it asks. -/
theorem MethodRegistry.dispatch_eq (e : QueryEngine) (name : String) (params : Value) :
    builtIn.dispatch e name params = (Query.ofRequest name params).bind e.answer := by
  unfold dispatch Query.ofRequest
  cases hm : builtIn.get? name with
  | none => rfl
  | some m =>
    obtain ⟨hmem, rfl⟩ := of_get?_builtIn hm
    simp only [QueryMethod.run_eq hmem]
    cases Params.ensureObject params <;> rfl

/-! ## Well-formed requests -/

namespace QueryMethod

/-- Whether a parameter takes a value. A line is an integer of 32 bits and at least one; anything
else is a text, and kinds and names are not empty. -/
def Takes (param : String) (v : Value) : Prop :=
  if param = "line" then ∃ n : Nat, 1 ≤ n ∧ n < UInt32.size ∧ v = .nat n
  else ∃ s, v = .string s ∧ (param = "kind" ∨ param = "name" → s ≠ "")

structure WellFormed (m : QueryMethod) (params : Value) : Prop where
  object : params = .null ∨ ∃ fields, params = .object fields
  inputs : ∀ p ∈ m.params, ∃ v, params.field? p = some v ∧ Takes p v

def inputText : Option Value → String
  | some (.string s) => s
  | some v => v.compact
  | none => ""

/-- How a call is named: its method with the inputs in the order of the parameters. -/
def callText (m : QueryMethod) (params : Value) : String :=
  m.name ++ "(" ++ ", ".intercalate (m.params.map fun p => p ++ "=" ++ inputText (params.field? p))
    ++ ")"

theorem inputText_string (s : String) : inputText (some (.string s)) = s := by
  rw [inputText]

theorem inputText_nat (n : Nat) : inputText (some (.nat n)) = toString n := by
  rw [inputText]
  · rfl
  · nofun

theorem callText_one {m : QueryMethod} {params : Value} {p : String} {v : Value}
    (hm : m.params = [p]) (hv : params.field? p = some v) :
    m.callText params = m.name ++ "(" ++ p ++ "=" ++ inputText (some v) ++ ")" := by
  rw [callText, hm, List.map_singleton, String.intercalate_singleton, hv]
  simp only [String.append_assoc]

theorem callText_two {m : QueryMethod} {params : Value} {p p' : String} {v v' : Value}
    (hm : m.params = [p, p']) (hv : params.field? p = some v)
    (hv' : params.field? p' = some v') :
    m.callText params = m.name ++ "(" ++ p ++ "=" ++ inputText (some v) ++ (", " ++ p' ++ "=")
      ++ inputText (some v') ++ ")" := by
  rw [callText, hm, List.map_cons, List.map_singleton, String.intercalate_cons_cons,
    String.intercalate_singleton, hv, hv']
  simp only [String.append_assoc]

end QueryMethod

namespace Query

open QueryMethod

/-- The parameter that is empty although it may not be. -/
def blank? : Query → Option String
  | .nodes _ kind => if kind.isEmpty then some "kind" else none
  | .definition name | .references name => if name.isEmpty then some "name" else none
  | _ => none

theorem of_ofParams {params : Value} {m : QueryMethod} (hm : m ∈ builtIn) {q : Query}
    (h : ofParams params m.name = .ok q) :
    m.callText params = q.text ∧
      (q.blank? = none → ∀ p ∈ m.params, ∃ v, params.field? p = some v ∧ Takes p v) := by
  have hmap : ∀ {α β : Type} {x : Except Error α} {f : α → β} {b : β},
      (x >>= fun a => pure (f a)) = .ok b → ∃ a, x = .ok a ∧ b = f a := by
    intro α β x f b h
    cases x with
    | error e => cases h
    | ok a => cases h; exact ⟨a, rfl, rfl⟩
  have hstring : ∀ {p s}, params.field? p = some (.string s) →
      p ≠ "line" → (p = "kind" ∨ p = "name" → s ≠ "") →
      ∃ v, params.field? p = some v ∧ Takes p v := by
    intro p s hp hline hs
    exact ⟨_, hp, by rw [Takes, if_neg hline]; exact ⟨s, rfl, hs⟩⟩
  simp only [builtIn, List.mem_cons, List.not_mem_nil, or_false] at hm
  rcases hm with rfl | rfl | rfl | rfl | rfl | rfl | rfl | rfl | rfl | rfl
  all_goals simp only [ofParams] at h
  -- A path.
  case inl | inr.inl =>
    obtain ⟨path, hp, rfl⟩ := hmap h
    rw [Params.string_eq_ok] at hp
    constructor
    · rw [callText_one rfl hp, inputText_string]
      simp only [String.reduceAppend]
      rfl
    · intro _ p hp'
      obtain rfl := List.mem_singleton.mp hp'
      exact hstring hp (by decide) (by simp)
  -- A name.
  case inr.inr.inr.inr.inr.inl | inr.inr.inr.inr.inr.inr.inl =>
    obtain ⟨s, hs, rfl⟩ := hmap h
    rw [Params.string_eq_ok] at hs
    constructor
    · rw [callText_one rfl hs, inputText_string]
      simp only [String.reduceAppend]
      rfl
    · intro hb p hp'
      obtain rfl := List.mem_singleton.mp hp'
      refine hstring hs (by decide) fun _ => ?_
      simpa [blank?] using hb
  -- A path and another text.
  case inr.inr.inl | inr.inr.inr.inl | inr.inr.inr.inr.inl =>
    obtain ⟨path, hp, h⟩ := Except.bind_eq_ok.mp h
    obtain ⟨s, hs, rfl⟩ := hmap h
    rw [Params.string_eq_ok] at hp hs
    constructor
    · rw [callText_two rfl hp hs, inputText_string, inputText_string]
      simp only [String.reduceAppend]
      rfl
    · intro hb p hp'
      simp only [List.mem_cons, List.not_mem_nil, or_false] at hp'
      rcases hp' with rfl | rfl
      · exact hstring hp (by decide) (by simp)
      · refine hstring hs (by decide) fun hkind => ?_
        rcases hkind with hkind | hkind
        all_goals first | (exact absurd hkind (by decide)) | simpa [blank?] using hb
  -- A path and a line.
  case inr.inr.inr.inr.inr.inr.inr.inl =>
    obtain ⟨path, hp, h⟩ := Except.bind_eq_ok.mp h
    obtain ⟨line, hl, rfl⟩ := hmap h
    rw [Params.string_eq_ok] at hp
    rw [Params.line_eq_ok] at hl
    constructor
    · rw [callText_two rfl hp hl.2, inputText_string, inputText_nat]
      simp only [String.reduceAppend]
      rfl
    · intro _ p hp'
      simp only [List.mem_cons, List.not_mem_nil, or_false] at hp'
      rcases hp' with rfl | rfl
      · exact hstring hp (by decide) (by simp)
      · have hpos : line.toNat ≠ 0 := fun h0 => hl.1 (UInt32.toNat_inj.mp h0)
        exact ⟨_, hl.2, line.toNat, by omega, line.toNat_lt, rfl⟩
  -- Nothing.
  all_goals
    cases h
    exact ⟨rfl, fun _ p hp => absurd hp List.not_mem_nil⟩

theorem kind_of_ofParams {params : Value} {m : QueryMethod} (hm : m ∈ builtIn) {e : Error}
    (h : ofParams params m.name = .error e) : e.kind = .invalidArgument := by
  simp only [builtIn, List.mem_cons, List.not_mem_nil, or_false] at hm
  rcases hm with rfl | rfl | rfl | rfl | rfl | rfl | rfl | rfl | rfl | rfl
  all_goals simp only [ofParams] at h
  case inl | inr.inl | inr.inr.inr.inr.inr.inl | inr.inr.inr.inr.inr.inr.inl =>
    rcases Except.bind_eq_error.mp h with h | ⟨s, -, h⟩
    · exact Params.kind_of_string h
    · cases h
  case inr.inr.inl | inr.inr.inr.inl | inr.inr.inr.inr.inl =>
    rcases Except.bind_eq_error.mp h with h | ⟨path, -, h⟩
    · exact Params.kind_of_string h
    rcases Except.bind_eq_error.mp h with h | ⟨s, -, h⟩
    · exact Params.kind_of_string h
    · cases h
  case inr.inr.inr.inr.inr.inr.inr.inl =>
    rcases Except.bind_eq_error.mp h with h | ⟨path, -, h⟩
    · exact Params.kind_of_string h
    rcases Except.bind_eq_error.mp h with h | ⟨line, -, h⟩
    · exact Params.kind_of_line h
    · cases h
  all_goals cases h

/-- A request for a query names its method and brings its inputs, and only an empty kind or name
can be wrong with it. -/
theorem of_ofRequest {name : String} {params : Value} {q : Query}
    (h : ofRequest name params = .ok q) :
    ∃ m ∈ builtIn, m.name = name ∧ m.callText params = q.text ∧
      (q.blank? = none → m.WellFormed params) := by
  unfold ofRequest at h
  cases hm : MethodRegistry.builtIn.get? name with
  | none => rw [hm] at h; cases h
  | some m =>
    rw [hm] at h
    obtain ⟨hmem, rfl⟩ := MethodRegistry.of_get?_builtIn hm
    obtain ⟨_, hobject, h⟩ := Except.bind_eq_ok.mp h
    obtain ⟨htext, hinputs⟩ := of_ofParams hmem h
    exact ⟨m, hmem, rfl, htext, fun hb => ⟨Params.ensureObject_eq_ok.mp hobject, hinputs hb⟩⟩

theorem kind_of_ofRequest {name : String} {params : Value} {e : Error}
    (h : ofRequest name params = .error e) : e.kind = .invalidArgument := by
  unfold ofRequest at h
  cases hm : MethodRegistry.builtIn.get? name with
  | none => rw [hm] at h; cases h; rfl
  | some m =>
    rw [hm] at h
    obtain ⟨hmem, rfl⟩ := MethodRegistry.of_get?_builtIn hm
    cases ho : Params.ensureObject params with
    | error e' =>
      simp only [ho] at h
      cases h
      exact Params.kind_of_ensureObject ho
    | ok _ =>
      simp only [ho] at h
      exact kind_of_ofParams hmem h

/-- An empty kind or name is a mistake of the caller, whatever is indexed. -/
theorem kind_of_blank {q : Query} {p : String} (h : q.blank? = some p) :
    ∃ err : Error, err.kind = .invalidArgument ∧ ∀ e : QueryEngine, e.answer q = .error err := by
  refine ⟨{ cause := .emptyArgument p, operation := some q.text }, rfl, fun e => ?_⟩
  cases q with
  | nodes path kind =>
    by_cases hk : kind.isEmpty
    · obtain rfl : "kind" = p := by simpa [blank?, hk] using h
      simp only [QueryEngine.answer, QueryEngine.nodes, nonempty, hk, if_true]
      rfl
    · simp [blank?, hk] at h
  | definition name =>
    by_cases hk : name.isEmpty
    · obtain rfl : "name" = p := by simpa [blank?, hk] using h
      simp only [QueryEngine.answer, QueryEngine.definition, nonempty, hk, if_true]
      rfl
    · simp [blank?, hk] at h
  | references name =>
    by_cases hk : name.isEmpty
    · obtain rfl : "name" = p := by simpa [blank?, hk] using h
      simp only [QueryEngine.answer, QueryEngine.references, nonempty, hk, if_true]
      rfl
    · simp [blank?, hk] at h
  | symbols | tree | nodeDetails | ancestors | callHierarchy | files | stats => cases h

end Query

end CodeIndex
