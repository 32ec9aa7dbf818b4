import CodeIndex.Proofs.Query.CallGraph

/-! # The calls out of a callable

A call hierarchy lists each name that is called anywhere in the stored tree of its callable once,
with the location of the first call of it, in the order of these first calls. One walk decides this
with the names that it has seen so far. A call whose name is only known when it runs is passed over,
and the names that come behind it stay new.
-/

namespace CodeIndex

namespace LanguageRules

variable {r : LanguageRules} {n m : Node} {name : String}

/-- Whether a node calls a name: its rule is one for calls, and the child that the rule points to
stands for the name. -/
def Calls (r : LanguageRules) (n : Node) (name : String) : Prop :=
  ∃ i, r.roleOf? n = some (.call, i) ∧ r.nameOf? n i = some name

/-- Whether `m`, which has the address `a`, is the first node of a tree in preorder that calls a
name. -/
def FirstCall (r : LanguageRules) (n : Node) (name : String) (a : Address) (m : Node) : Prop :=
  ∃ before after, n.preorder = before ++ (a, m) :: after ∧ r.Calls m name ∧
    ∀ x ∈ before, ¬ r.Calls x.2 name

/-- Whether calls are those of the names called in a tree, one for each name, with the locations of
the first nodes that call them and in the order of these nodes. -/
structure ListsFirstCalls (r : LanguageRules) (n : Node) (calls : List OutboundCall) : Prop where
  nodup : (calls.map (·.name)).Nodup
  mem_names : ∀ name, name ∈ calls.map (·.name) ↔ ∃ a m, n.at? a = some m ∧ r.Calls m name
  first : ∃ firsts : List (Address × Node), firsts.Sublist n.preorder ∧
    List.Forall₂ (fun c x => r.FirstCall n c.name x.1 x.2 ∧ c.location = x.2.location?) calls firsts

end LanguageRules

/-! ## First calls of a list -/

theorem mem_names_firstCalls {seen : List String} {calls : List OutboundCall} {name : String} :
    name ∈ (firstCalls seen calls).map (·.name) ↔
      name ∈ calls.map (·.name) ∧ name ∉ seen := by
  induction calls generalizing seen with
  | nil => simp [firstCalls]
  | cons c calls ih =>
    rw [firstCalls]
    by_cases hc : c.name ∈ seen
    · rw [if_pos (List.contains_iff_mem.mpr hc), ih, List.map_cons, List.mem_cons]
      constructor
      · rintro ⟨hname, hseen⟩
        exact ⟨.inr hname, hseen⟩
      · rintro ⟨rfl | hname, hseen⟩
        · exact absurd hc hseen
        · exact ⟨hname, hseen⟩
    · rw [if_neg (mt List.contains_iff_mem.mp hc), List.map_cons, List.mem_cons, ih, List.map_cons,
        List.mem_cons, List.mem_cons, not_or]
      constructor
      · rintro (rfl | ⟨hname, -, hseen⟩)
        · exact ⟨.inl rfl, hc⟩
        · exact ⟨.inr hname, hseen⟩
      · rintro ⟨hname, hseen⟩
        by_cases heq : name = c.name
        · exact .inl heq
        · exact .inr ⟨hname.resolve_left heq, heq, hseen⟩

theorem nodup_names_firstCalls (seen : List String) (calls : List OutboundCall) :
    ((firstCalls seen calls).map (·.name)).Nodup := by
  induction calls generalizing seen with
  | nil => exact List.nodup_nil
  | cons c calls ih =>
    rw [firstCalls]
    split
    · exact ih seen
    · refine List.nodup_cons.mpr ⟨fun hmem => ?_, ih _⟩
      exact (mem_names_firstCalls.mp hmem).2 List.mem_cons_self

/-- Whether `x` is the first entry from which a call of its name comes, a name that is not among
those in `seen`. -/
structure FirstFrom (call? : α → Option OutboundCall) (seen : List String) (xs : List α)
    (c : OutboundCall) (x : α) : Prop where
  call : call? x = some c
  unseen : c.name ∉ seen
  first : ∃ before after, xs = before ++ x :: after ∧
    ∀ y ∈ before, ∀ d, call? y = some d → d.name ≠ c.name

namespace FirstFrom

variable {call? : α → Option OutboundCall} {seen : List String} {xs : List α} {c d : OutboundCall}
  {x y : α}

theorem head (h : call? x = some c) (hc : c.name ∉ seen) : FirstFrom call? seen (x :: xs) c x :=
  ⟨h, hc, [], xs, rfl, List.forall_mem_nil _⟩

/-- An entry from which no call comes, or one of another name, may stand in front. -/
theorem cons (h : FirstFrom call? seen xs c x) (hy : ∀ d, call? y = some d → d.name ≠ c.name) :
    FirstFrom call? seen (y :: xs) c x := by
  obtain ⟨before, after, rfl, hbefore⟩ := h.first
  exact ⟨h.call, h.unseen, y :: before, after, rfl, List.forall_mem_cons.mpr ⟨hy, hbefore⟩⟩

/-- An entry whose call is of a name seen before may stand in front. -/
theorem cons_seen (h : FirstFrom call? seen xs c x) (hy : call? y = some d) (hd : d.name ∈ seen) :
    FirstFrom call? seen (y :: xs) c x := by
  refine h.cons fun d' hd' heq => h.unseen ?_
  obtain rfl := Option.some.inj (hy.symm.trans hd')
  exact heq ▸ hd

theorem cons_new (h : FirstFrom call? (d.name :: seen) xs c x) (hy : call? y = some d) :
    FirstFrom call? seen (y :: xs) c x := by
  have hseen := h.cons_seen hy List.mem_cons_self
  exact ⟨hseen.call, List.not_mem_of_not_mem_cons h.unseen, hseen.first⟩

end FirstFrom

/-- The calls that are kept come, in order, from the first entries for their names. -/
theorem exists_firsts (call? : α → Option OutboundCall) (seen : List String) (xs : List α) :
    ∃ firsts, firsts.Sublist xs ∧
      List.Forall₂ (FirstFrom call? seen xs) (firstCalls seen (xs.filterMap call?)) firsts := by
  -- the entry in front is passed over, or has a name seen before, or is the first for its name
  induction xs generalizing seen with
  | nil => exact ⟨[], .slnil, .nil⟩
  | cons y xs ih =>
    cases hy : call? y with
    | none =>
      obtain ⟨firsts, hsub, hfirsts⟩ := ih seen
      rw [List.filterMap_cons_none hy]
      exact ⟨firsts, hsub.cons y, hfirsts.imp fun c x h => h.cons fun d hd => by simp [hy] at hd⟩
    | some d =>
      rw [List.filterMap_cons_some hy, firstCalls]
      by_cases hd : d.name ∈ seen
      · obtain ⟨firsts, hsub, hfirsts⟩ := ih seen
        rw [if_pos (List.contains_iff_mem.mpr hd)]
        exact ⟨firsts, hsub.cons y, hfirsts.imp fun c x h => h.cons_seen hy hd⟩
      · obtain ⟨firsts, hsub, hfirsts⟩ := ih (d.name :: seen)
        rw [if_neg (mt List.contains_iff_mem.mp hd)]
        exact ⟨y :: firsts, hsub.cons_cons y,
          .cons (.head hy hd) (hfirsts.imp fun c x h => h.cons_new hy)⟩

/-! ## First calls of a tree -/

namespace LanguageRules

variable {r : LanguageRules} {n : Node} {c : OutboundCall}

/-- The call that a node makes if its kind is one of calls. -/
def kindCall? (r : LanguageRules) (n : Node) : Option OutboundCall :=
  if n.kind?.any fun kind => r.callKinds.contains kind then r.call? n else none

theorem outboundCalls_eq_filterMap (n : Node) :
    r.outboundCalls n = .ok (firstCalls [] (n.preorder.filterMap fun x => r.kindCall? x.2)) := by
  rw [outboundCalls_eq, List.filterMap_filter]
  rfl

/-- The call that a node makes is one of the name that it calls, at its location. -/
theorem kindCall?_eq_some (hrules : r.duplicateKinds = []) :
    r.kindCall? n = some c ↔ r.Calls n c.name ∧ c.location = n.location? := by
  have hkind : (n.kind?.any fun kind => r.callKinds.contains kind) = true ↔
      ∃ i, r.roleOf? n = some (.call, i) := by
    simp only [Option.any_eq_true, List.contains_iff_mem, mem_callKinds_iff hrules, roleOf?,
      Option.bind_eq_some_iff]
    constructor
    · rintro ⟨kind, hkind, i, hrole⟩
      exact ⟨i, kind, hkind, hrole⟩
    · rintro ⟨i, kind, hkind, hrole⟩
      exact ⟨kind, hkind, i, hrole⟩
  rw [kindCall?, Option.ite_none_right_eq_some, hkind]
  constructor
  · rintro ⟨⟨i, hrole⟩, hcall⟩
    rw [call?_of_roleOf? hrole] at hcall
    obtain ⟨name, hname, rfl⟩ := Option.map_eq_some_iff.mp hcall
    exact ⟨⟨i, hrole, hname⟩, rfl⟩
  · rintro ⟨⟨i, hrole, hname⟩, hlocation⟩
    refine ⟨⟨i, hrole⟩, ?_⟩
    rw [call?_of_roleOf? hrole, hname, ← hlocation]
    rfl

theorem firstCall_of_firstFrom (hrules : r.duplicateKinds = []) {x : Address × Node}
    (h : FirstFrom (fun x => r.kindCall? x.2) [] n.preorder c x) :
    r.FirstCall n c.name x.1 x.2 ∧ c.location = x.2.location? := by
  obtain ⟨hcalls, hlocation⟩ := (kindCall?_eq_some hrules).mp h.call
  obtain ⟨before, after, hpreorder, hbefore⟩ := h.first
  refine ⟨⟨before, after, hpreorder, hcalls, fun y hy hname => ?_⟩, hlocation⟩
  exact hbefore y hy ⟨c.name, y.2.location?⟩ ((kindCall?_eq_some hrules).mpr ⟨hname, rfl⟩) rfl

theorem listsFirstCalls_outboundCalls (hrules : r.duplicateKinds = []) {calls : List OutboundCall}
    (h : r.outboundCalls n = .ok calls) : r.ListsFirstCalls n calls := by
  rw [outboundCalls_eq_filterMap] at h
  obtain rfl := Except.ok.inj h
  refine ⟨nodup_names_firstCalls _ _, fun name => ?_, ?_⟩
  · rw [mem_names_firstCalls, List.mem_map]
    constructor
    · rintro ⟨⟨c, hc, rfl⟩, -⟩
      obtain ⟨⟨a, m⟩, hm, hcall⟩ := List.mem_filterMap.mp hc
      exact ⟨a, m, Node.mem_preorder.mp hm, ((kindCall?_eq_some hrules).mp hcall).1⟩
    · rintro ⟨a, m, hm, hname⟩
      refine ⟨⟨⟨name, m.location?⟩, List.mem_filterMap.mpr ⟨(a, m), Node.mem_preorder.mpr hm, ?_⟩,
        rfl⟩, List.not_mem_nil⟩
      exact (kindCall?_eq_some hrules).mpr ⟨hname, rfl⟩
  · obtain ⟨firsts, hsub, hfirsts⟩ := exists_firsts (fun x => r.kindCall? x.2) [] n.preorder
    exact ⟨firsts, hsub, hfirsts.imp fun c x h => firstCall_of_firstFrom hrules h⟩

end LanguageRules

/-- A call hierarchy lists the names that are called in the stored tree of its callable, each once
and with its first call, in the order of the first calls. -/
theorem callHierarchy_lists_first_calls {e : QueryEngine} (hrules : e.rules.duplicateKinds = [])
    {path : String} {line : UInt32} {h : CallHierarchy} (hok : e.callHierarchy path line = .ok h)
    {n : Node} (hn : h.symbol.subtree = some n) : e.rules.ListsFirstCalls n h.outbound := by
  obtain ⟨-, -, houtbound⟩ := QueryEngine.of_callHierarchy hok
  rw [hn] at houtbound
  exact LanguageRules.listsFirstCalls_outboundCalls hrules houtbound

theorem callHierarchy_lists_first_calls_nested :
    ∃ (m : MemoryIndex) (h : CallHierarchy) (n inner : Node),
      m = MemoryIndex.ofFiles [({} : Extractor).extract ⟨"dog.rb", n, none⟩] ∧
      n = .branch (some "def") [.literal (.str "bark"),
        .branch (some "send") [.literal .nil, .branch (some "lvar") [.literal (.str "m")] none]
          (some ⟨2, 2⟩),
        .branch (some "send") [.literal .nil, .literal (.str "breathe")] (some ⟨3, 3⟩),
        inner,
        .branch (some "csend") [.literal .nil, .literal (.str "breathe")] (some ⟨7, 7⟩)]
        (some ⟨1, 8⟩) ∧
      inner = .branch (some "def") [.literal (.str "growl"),
        .branch (some "send") [.literal .nil, .literal (.str "rest")] none] (some ⟨4, 6⟩) ∧
      QueryEngine.callHierarchy ⟨m.reader, .ruby⟩ "dog.rb" 3 = .ok h ∧
      h.symbol.subtree = some n ∧
      h.outbound = [⟨"breathe", some ⟨3, 3⟩⟩, ⟨"rest", none⟩] ∧
      LanguageRules.ruby.ListsFirstCalls n h.outbound := by
  let inner : Node := .branch (some "def") [.literal (.str "growl"),
    .branch (some "send") [.literal .nil, .literal (.str "rest")] none] (some ⟨4, 6⟩)
  let n : Node := .branch (some "def") [.literal (.str "bark"),
    .branch (some "send") [.literal .nil, .branch (some "lvar") [.literal (.str "m")] none]
      (some ⟨2, 2⟩),
    .branch (some "send") [.literal .nil, .literal (.str "breathe")] (some ⟨3, 3⟩),
    inner,
    .branch (some "csend") [.literal .nil, .literal (.str "breathe")] (some ⟨7, 7⟩)]
    (some ⟨1, 8⟩)
  have hextract : ({} : Extractor).extract ⟨"dog.rb", n, none⟩ = ⟨"dog.rb", n,
      [⟨"bark", .callable, "global", ⟨1, 8⟩, none, some n⟩,
        ⟨"growl", .callable, "global", ⟨4, 6⟩, none, some inner⟩],
      [⟨"breathe", ⟨3, 3⟩⟩, ⟨"breathe", ⟨7, 7⟩⟩]⟩ := by
    rw [Extractor.extract, Extractor.run_start]
    rfl
  have houtbound : LanguageRules.ruby.outboundCalls n =
      .ok [⟨"breathe", some ⟨3, 3⟩⟩, ⟨"rest", none⟩] := by
    rw [LanguageRules.outboundCalls_eq, Node.preorder_eq]
    rfl
  let symbol : SymbolRecord :=
    ⟨1, 1, "dog.rb", "bark", .callable, "global", ⟨1, 8⟩, none, some n⟩
  have hok : QueryEngine.callHierarchy
      ⟨(MemoryIndex.ofFiles [({} : Extractor).extract ⟨"dog.rb", n, none⟩]).reader, .ruby⟩
      "dog.rb" 3 = .ok ⟨symbol, [], [⟨"breathe", some ⟨3, 3⟩⟩, ⟨"rest", none⟩]⟩ := by
    rw [hextract]
    exact QueryEngine.callHierarchy_eq_ok (by decide) rfl rfl rfl rfl houtbound
  exact ⟨_, _, n, inner, rfl, rfl, rfl, hok, rfl, rfl,
    callHierarchy_lists_first_calls (by decide) hok rfl⟩

end CodeIndex
