import CodeIndex.Rules
import CodeIndex.Store.Reader
import Mathlib.Data.List.Nodup

/-! # Repeated entries

A list without repeated keys holds one entry for each key, and looking for a key finds that entry.
So of files with distinct paths each is found by its path, and where no kind is claimed by two rules
its role is that of the one rule for it.
-/

namespace CodeIndex

theorem find?_of_nodup_keys {key : α → String} {xs : List α} (h : (xs.map key).Nodup) {x : α}
    (hx : x ∈ xs) : xs.find? (key · == key x) = some x := by
  cases hfound : xs.find? (key · == key x) with
  | none =>
    have hnone := List.find?_eq_none.mp hfound x hx
    simp at hnone
  | some y =>
    have hkey : key y = key x := by simpa using List.find?_some hfound
    rw [List.inj_on_of_nodup_map h (List.mem_of_find?_eq_some hfound) hx hkey]

/-- What is kept under a key are the entries with that key. -/
theorem lookup_eq_some_iff_mem {es : List (String × α)} (h : (es.map (·.1)).Nodup) {name : String}
    {e : α} : es.lookup name = some e ↔ (name, e) ∈ es := by
  induction es with
  | nil => simp
  | cons x es ih =>
    obtain ⟨first, e'⟩ := x
    rw [List.map_cons, List.nodup_cons] at h
    rw [List.lookup_cons, List.mem_cons, Prod.mk.injEq]
    by_cases hname : name = first
    · subst hname
      have hnone : (name, e) ∉ es := fun he => h.1 (List.mem_map.mpr ⟨_, he, rfl⟩)
      simp [hnone, eq_comm]
    · simp [beq_eq_false_iff_ne.mpr hname, hname, ih h.2]

/-- Where all entries have one key, those under a key are all of them or none. -/
theorem filter_of_forall_key {key : α → String} {xs : List α} {k : String}
    (h : ∀ x ∈ xs, key x = k) (k' : String) :
    xs.filter (key · == k') = if k = k' then xs else [] := by
  by_cases hk : k = k'
  · rw [if_pos hk, List.filter_eq_self]
    intro x hx
    rw [h x hx, beq_iff_eq, hk]
  · rw [if_neg hk, List.filter_eq_nil_iff]
    intro x hx
    rwa [h x hx, beq_iff_eq]

/-- Of what comes from entries without repeated keys, the part under a key is what comes from the
entry with that key. -/
theorem filter_flatMap_of_nodup_keys {key : α → String} {g : α → List β} {xs : List α}
    (h : (xs.map key).Nodup) {x : α} (hx : x ∈ xs) :
    (xs.flatMap fun y => (g y).map fun b => (key y, b)).filter (·.1 == key x) =
      (g x).map fun b => (key x, b) := by
  have hother : ∀ ys : List α, key x ∉ ys.map key →
      (ys.flatMap fun y => (g y).map fun b => (key y, b)).filter (·.1 == key x) = [] := by
    intro ys hys
    rw [List.filter_eq_nil_iff]
    rintro ⟨k, b⟩ hmem hkey
    rcases List.mem_flatMap.mp hmem with ⟨y, hy, hb⟩
    rcases List.mem_map.mp hb with ⟨b', -, heq⟩
    cases heq
    exact hys (List.mem_map.mpr ⟨y, hy, beq_iff_eq.mp hkey⟩)
  induction xs with
  | nil => cases hx
  | cons y ys ih =>
    rw [List.map_cons, List.nodup_cons] at h
    rw [List.flatMap_cons, List.filter_append]
    rcases List.mem_cons.mp hx with rfl | hx
    · rw [hother ys h.1, List.append_nil, List.filter_eq_self]
      simp
    · have hne : key y ≠ key x := fun he => h.1 (he ▸ List.mem_map_of_mem hx)
      have hnone : ((g y).map fun b => (key y, b)).filter (·.1 == key x) = [] := by
        rw [List.filter_eq_nil_iff]
        simp [hne]
      rw [hnone, List.nil_append, ih h.2 hx]

/-- In a list without repetitions, a block is what a filter keeps if it holds exactly the entries
that the filter lets through. -/
theorem filter_eq_of_infix {p : α → Bool} {block xs : List α} (h : block <:+: xs)
    (hnodup : xs.Nodup) (hp : ∀ x ∈ xs, p x ↔ x ∈ block) : xs.filter p = block := by
  obtain ⟨before, after, rfl⟩ := h
  simp only [List.mem_append] at hp
  rw [List.nodup_append', List.nodup_append'] at hnodup
  obtain ⟨⟨-, -, hfront⟩, -, hback⟩ := hnodup
  have hbefore : before.filter p = [] := by
    rw [List.filter_eq_nil_iff]
    exact fun x hx hpx => hfront hx ((hp x (.inl (.inl hx))).mp hpx)
  have hafter : after.filter p = [] := by
    rw [List.filter_eq_nil_iff]
    exact fun x hx hpx => hback (List.mem_append_right _ ((hp x (.inr hx)).mp hpx)) hx
  have hblock : block.filter p = block := by
    rw [List.filter_eq_self]
    exact fun x hx => (hp x (.inl (.inr hx))).mpr hx
  rw [List.filter_append, List.filter_append, hbefore, hblock, hafter, List.nil_append,
    List.append_nil]

/-! ## Paths -/

theorem firstRepeated?_eq_none {seen ps : List String} :
    firstRepeated? seen ps = none ↔ ps.Nodup ∧ ∀ p ∈ ps, p ∉ seen := by
  induction ps generalizing seen with
  | nil => simp [firstRepeated?]
  | cons p ps ih =>
    rw [firstRepeated?]
    by_cases hp : p ∈ seen
    · simp [hp]
    · simp only [List.contains_iff_mem, hp, if_false, ih, List.nodup_cons, List.mem_cons]
      constructor
      · rintro ⟨hnodup, hseen⟩
        refine ⟨⟨fun hmem => hseen p hmem (.inl rfl), hnodup⟩, ?_⟩
        rintro q (rfl | hq)
        · exact hp
        · exact fun h => hseen q hq (.inr h)
      · rintro ⟨⟨hmem, hnodup⟩, hseen⟩
        refine ⟨hnodup, fun q hq => ?_⟩
        rintro (rfl | h)
        · exact hmem hq
        · exact hseen q (.inr hq) h

/-- Before the first entry that has come before, no entry has. -/
theorem firstRepeated?_eq_some {seen ps : List String} {p : String}
    (h : firstRepeated? seen ps = some p) :
    ∃ before rest, ps = before ++ p :: rest ∧ before.Nodup ∧ (∀ q ∈ before, q ∉ seen) ∧
      (p ∈ seen ∨ p ∈ before) := by
  induction ps generalizing seen with
  | nil => cases h
  | cons q ps ih =>
    rw [firstRepeated?] at h
    by_cases hq : q ∈ seen
    · obtain rfl : q = p := by simpa [hq] using h
      exact ⟨[], ps, rfl, List.nodup_nil, nofun, .inl hq⟩
    · simp only [List.contains_iff_mem, hq, if_false] at h
      obtain ⟨before, rest, rfl, hnodup, hseen, hp⟩ := ih h
      refine ⟨q :: before, rest, rfl, ?_, ?_, ?_⟩
      · exact List.nodup_cons.mpr ⟨fun hmem => hseen q hmem List.mem_cons_self, hnodup⟩
      · intro r hr
        rcases List.mem_cons.mp hr with rfl | hr
        · exact hq
        · exact fun hs => hseen r hr (List.mem_cons_of_mem _ hs)
      · rcases hp with hp | hp
        · rcases List.mem_cons.mp hp with rfl | hp
          · exact .inr List.mem_cons_self
          · exact .inl hp
        · exact .inr (List.mem_cons_of_mem _ hp)

/-! ## Kinds -/

namespace LanguageRules

theorem secondOccurrences_eq_nil {seen ks : List String} (hseen : seen.Nodup) :
    secondOccurrences seen ks = [] ↔ ks.Nodup ∧ ∀ k ∈ ks, k ∉ seen := by
  induction ks generalizing seen with
  | nil => simp [secondOccurrences]
  | cons k ks ih =>
    rw [secondOccurrences]
    by_cases hk : k ∈ seen
    · rw [if_pos (List.count_eq_one_of_mem hseen hk)]
      simp [hk]
    · have hcount : ¬ seen.count k = 1 := by
        rw [List.count_eq_zero.mpr hk]
        decide
      rw [if_neg hcount, ih (List.nodup_cons.mpr ⟨hk, hseen⟩), List.nodup_cons]
      constructor
      · rintro ⟨hnodup, hnew⟩
        refine ⟨⟨fun hmem => hnew k hmem List.mem_cons_self, hnodup⟩, ?_⟩
        intro j hj
        rcases List.mem_cons.mp hj with rfl | hj
        · exact hk
        · exact fun hmem => hnew j hj (List.mem_cons_of_mem k hmem)
      · rintro ⟨⟨hmem, hnodup⟩, hnew⟩
        refine ⟨hnodup, fun j hj => ?_⟩
        rw [List.mem_cons, not_or]
        exact ⟨fun heq => hmem (heq ▸ hj), hnew j (List.mem_cons_of_mem k hj)⟩

variable {r : LanguageRules}

theorem duplicateKinds_eq_nil :
    r.duplicateKinds = [] ↔ (r.roles.map fun (_, rule) => rule.kind).Nodup := by
  rw [duplicateKinds, secondOccurrences_eq_nil List.nodup_nil]
  simp

theorem lookup_withNew (key key' : String) (value : α) (table : List (String × α)) :
    (withNew key value table).lookup key' =
      (table.lookup key').or (if key = key' then some value else none) := by
  unfold withNew
  by_cases h : (table.lookup key).isSome
  · rw [if_pos h]
    by_cases hkey : key = key'
    · obtain ⟨v, hv⟩ := Option.isSome_iff_exists.mp h
      rw [← hkey, hv, Option.some_or]
    · rw [if_neg hkey, Option.or_none]
  · rw [if_neg h, List.lookup_cons]
    by_cases hkey : key = key'
    · rw [← hkey, Option.not_isSome_iff_eq_none.mp h, Option.none_or, if_pos rfl, beq_self_eq_true]
    · rw [if_neg hkey, Option.or_none, beq_eq_false_iff_ne.mpr (Ne.symm hkey)]

/-- The entry of a kind is that of its first rule, whatever rules come behind. -/
theorem lookup_foldl_withNew (rules : List (NodeRole × NodeRule))
    (table : List (String × NodeRole × Nat)) (kind : String) :
    (rules.foldl (fun table (role, rule) => withNew rule.kind (role, rule.nameChild) table)
        table).lookup kind =
      (table.lookup kind).or
        ((rules.find? fun (_, rule) => rule.kind == kind).map
          fun (role, rule) => (role, rule.nameChild)) := by
  induction rules generalizing table with
  | nil => simp
  | cons q rules ih =>
    rw [List.foldl_cons, ih, lookup_withNew, List.find?_cons, Option.or_assoc]
    by_cases hkind : q.2.kind = kind
    · simp [hkind]
    · simp [hkind, beq_eq_false_iff_ne.mpr hkind]

theorem roleOfKind?_eq (kind : String) :
    r.roleOfKind? kind = (r.roles.find? fun (_, rule) => rule.kind == kind).map
      fun (role, rule) => (role, rule.nameChild) := by
  rw [roleOfKind?, roleTable, lookup_foldl_withNew, List.lookup_nil, Option.none_or]

theorem roleOfKind?_of_mem (h : r.duplicateKinds = []) {role : NodeRole} {rule : NodeRule}
    (hrule : (role, rule) ∈ r.roles) :
    r.roleOfKind? rule.kind = some (role, rule.nameChild) := by
  have hfound := find?_of_nodup_keys (duplicateKinds_eq_nil.mp h) hrule
  rw [roleOfKind?_eq, hfound]
  rfl

theorem roleOfKind?_of_mem_callKinds (h : r.duplicateKinds = []) {kind : String}
    (hkind : kind ∈ r.callKinds) : ∃ i, r.roleOfKind? kind = some (.call, i) := by
  obtain ⟨rule, hrule, rfl⟩ := List.mem_map.mp hkind
  have hrole : (NodeRole.call, rule) ∈ r.roles := by
    rw [roles]
    exact List.mem_append_right _ (List.mem_map_of_mem hrule)
  exact ⟨rule.nameChild, roleOfKind?_of_mem h hrole⟩

/-- Where no kind is claimed twice, the kinds of calls are those whose role is to call. -/
theorem mem_callKinds_iff (h : r.duplicateKinds = []) {kind : String} :
    kind ∈ r.callKinds ↔ ∃ i, r.roleOfKind? kind = some (.call, i) := by
  refine ⟨roleOfKind?_of_mem_callKinds h, ?_⟩
  rintro ⟨i, hrole⟩
  rw [roleOfKind?_eq] at hrole
  obtain ⟨⟨role, rule⟩, hrule, heq⟩ := Option.map_eq_some_iff.mp hrole
  obtain ⟨rfl, -⟩ := Prod.mk.inj heq
  obtain rfl : rule.kind = kind := by simpa using List.find?_some hrule
  have hmem : rule ∈ r.calls := by simpa [roles] using List.mem_of_find?_eq_some hrule
  exact List.mem_map_of_mem hmem

end LanguageRules

end CodeIndex
