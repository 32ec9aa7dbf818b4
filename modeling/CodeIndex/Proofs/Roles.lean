import CodeIndex.Proofs.Repeated
import CodeIndex.Settings.Document

/-! # Roles of kinds

Of several rules for one kind the first one decides, and those kinds are listed as duplicates in the
order in which they are claimed again. Settings with duplicates are refused. In all others each rule
decides for its kind, so that the order of rules does not matter, and the kinds of calls are those
that have the role of a call.
-/

namespace CodeIndex

namespace LanguageRules

variable {r r' : LanguageRules}

/-! ## The first rule -/

theorem roleOf?_eq_some_iff {n : Node} {role : NodeRole} {i : Nat} :
    r.roleOf? n = some (role, i) ↔
      ∃ before rule after, r.roles = before ++ (role, rule) :: after ∧
        n.kind? = some rule.kind ∧ rule.nameChild = i ∧ ∀ q ∈ before, q.2.kind ≠ rule.kind := by
  rw [roleOf?, Option.bind_eq_some_iff]
  constructor
  · rintro ⟨kind, hkind, h⟩
    rw [roleOfKind?_eq] at h
    obtain ⟨⟨role', rule⟩, hfound, heq⟩ := Option.map_eq_some_iff.mp h
    obtain ⟨rfl, rfl⟩ := Prod.mk.inj heq
    obtain ⟨hrule, before, after, hroles, hbefore⟩ := List.find?_eq_some_iff_append.mp hfound
    obtain rfl : rule.kind = kind := by simpa using hrule
    exact ⟨before, rule, after, hroles, hkind, rfl, fun q hq => by simpa using hbefore q hq⟩
  · rintro ⟨before, rule, after, hroles, hkind, rfl, hbefore⟩
    refine ⟨rule.kind, hkind, ?_⟩
    have hfound : r.roles.find? (fun q => q.2.kind == rule.kind) = some (role, rule) := by
      rw [List.find?_eq_some_iff_append]
      exact ⟨by simp, before, after, hroles, fun q hq => by simpa using hbefore q hq⟩
    rw [roleOfKind?_eq, hfound, Option.map_some]

theorem roleOf?_eq_none_iff {n : Node} :
    r.roleOf? n = none ↔ ∀ q ∈ r.roles, n.kind? ≠ some q.2.kind := by
  rw [roleOf?, Option.bind_eq_none_iff]
  constructor
  · intro h q hq hkind
    have hnone := h _ hkind
    rw [roleOfKind?_eq, Option.map_eq_none_iff, List.find?_eq_none] at hnone
    exact hnone q hq (by simp)
  · intro h kind hkind
    rw [roleOfKind?_eq, Option.map_eq_none_iff, List.find?_eq_none]
    intro q hq hkind'
    exact h q hq (by rw [hkind, eq_of_beq hkind'])

/-! ## Duplicates -/

/-- Whether an entry has come exactly once before a position. -/
def SecondAt (ks : List String) (i : Nat) (k : String) : Prop :=
  ks[i]? = some k ∧ (ks.take i).count k = 1

/-- No entry occurs for the second time at two positions. -/
theorem SecondAt.not_lt {ks : List String} {k : String} {i j : Nat} (hi : SecondAt ks i k)
    (hj : SecondAt ks j k) : ¬ i < j := by
  intro hij
  have hsub : (ks.take (i + 1)).Sublist (ks.take j) :=
    (List.take_prefix_take_left hij).sublist
  have hcount := hsub.count_le k
  rw [List.take_add_one, List.count_append, hi.1, hi.2, hj.2] at hcount
  simp at hcount

theorem mem_secondOccurrences {seen ks : List String} {k : String} :
    k ∈ secondOccurrences seen ks ↔ seen.count k ≤ 1 ∧ 2 ≤ seen.count k + ks.count k := by
  induction ks generalizing seen with
  | nil =>
    rw [secondOccurrences, List.count_nil]
    exact ⟨fun h => absurd h List.not_mem_nil, fun h => by omega⟩
  | cons x ks ih =>
    rw [secondOccurrences]
    by_cases hx : x = k
    · subst hx
      have hcons : (x :: seen).count x = seen.count x + 1 := List.count_cons_self
      have hcons' : (x :: ks).count x = ks.count x + 1 := List.count_cons_self
      by_cases hone : seen.count x = 1
      · rw [if_pos hone]
        exact ⟨fun _ => by omega, fun _ => List.mem_cons_self⟩
      · rw [if_neg hone, ih]
        omega
    · have hcons : (x :: seen).count k = seen.count k := List.count_cons_of_ne hx
      have hcons' : (x :: ks).count k = ks.count k := List.count_cons_of_ne hx
      split
      · rw [List.mem_cons, ih, hcons, hcons', or_iff_right (Ne.symm hx)]
      · rw [ih, hcons, hcons']

/-- Second occurrences are listed from the front to the back, those behind `before` last. -/
theorem secondOccurrences_ordered (before ks : List String) :
    (∀ k ∈ secondOccurrences before.reverse ks,
      ∃ i, before.length ≤ i ∧ SecondAt (before ++ ks) i k) ∧
    (secondOccurrences before.reverse ks).Pairwise fun k k' =>
      ∃ i j, SecondAt (before ++ ks) i k ∧ SecondAt (before ++ ks) j k' ∧ i < j := by
  induction ks generalizing before with
  | nil => exact ⟨nofun, .nil⟩
  | cons x ks ih =>
    obtain ⟨hmem, hpairwise⟩ := ih (before ++ [x])
    rw [List.reverse_concat, List.append_assoc, List.singleton_append] at hmem hpairwise
    have hlater : ∀ k ∈ secondOccurrences (x :: before.reverse) ks,
        ∃ i, before.length < i ∧ SecondAt (before ++ x :: ks) i k := by
      intro k hk
      obtain ⟨i, hi, hsecond⟩ := hmem k hk
      rw [List.length_append, List.length_singleton] at hi
      exact ⟨i, hi, hsecond⟩
    rw [secondOccurrences]
    by_cases hone : before.reverse.count x = 1
    · have hx : SecondAt (before ++ x :: ks) before.length x := by
        constructor
        · simp
        · rwa [List.take_left, ← List.count_reverse]
      rw [if_pos hone]
      constructor
      · intro k hk
        rcases List.mem_cons.mp hk with rfl | hk
        · exact ⟨_, Nat.le_refl _, hx⟩
        · obtain ⟨i, hi, hsecond⟩ := hlater k hk
          exact ⟨i, Nat.le_of_lt hi, hsecond⟩
      · refine List.pairwise_cons.mpr ⟨fun k hk => ?_, hpairwise⟩
        obtain ⟨i, hi, hsecond⟩ := hlater k hk
        exact ⟨_, i, hx, hsecond, hi⟩
    · rw [if_neg hone]
      refine ⟨fun k hk => ?_, hpairwise⟩
      obtain ⟨i, hi, hsecond⟩ := hlater k hk
      exact ⟨i, Nat.le_of_lt hi, hsecond⟩

/-- Whether a list has the entries that occur more than once in another one, each once and in the
order of their second occurrences. -/
structure ListsRepeated (ks duplicates : List String) : Prop where
  mem_iff : ∀ k, k ∈ duplicates ↔ 2 ≤ ks.count k
  nodup : duplicates.Nodup
  ordered : duplicates.Pairwise fun k k' => ∃ i j, SecondAt ks i k ∧ SecondAt ks j k' ∧ i < j

theorem listsRepeated_secondOccurrences (ks : List String) :
    ListsRepeated ks (secondOccurrences [] ks) := by
  obtain ⟨-, hordered⟩ := secondOccurrences_ordered [] ks
  refine ⟨fun k => ?_, hordered.imp ?_, hordered⟩
  · rw [mem_secondOccurrences, List.count_nil]
    omega
  · rintro k k' ⟨i, j, hi, hj, hij⟩ rfl
    exact hi.not_lt hj hij

example : secondOccurrences [] ["class", "def", "send", "def", "def", "class"] = ["def", "class"] := by
  decide

/-! ## Settings that are accepted -/

/-- Whether rules are those of `r` in another order within their groups. -/
structure Reorders (r' r : LanguageRules) : Prop where
  typeDefinitions : r'.typeDefinitions.Perm r.typeDefinitions
  callables : r'.callables.Perm r.callables
  singletonCallables : r'.singletonCallables.Perm r.singletonCallables
  constantReferences : r'.constantReferences.Perm r.constantReferences
  calls : r'.calls.Perm r.calls

theorem Reorders.roles (h : r'.Reorders r) : r'.roles.Perm r.roles :=
  ((((h.typeDefinitions.map _).append (h.callables.map _)).append
    (h.singletonCallables.map _)).append (h.constantReferences.map _)).append (h.calls.map _)

/-- Without duplicates the order of rules makes no difference. -/
theorem Reorders.roleOf?_eq (h : r'.Reorders r) (hr : r.duplicateKinds = []) (n : Node) :
    r'.roleOf? n = r.roleOf? n := by
  have hr' : r'.duplicateKinds = [] := by
    rw [duplicateKinds_eq_nil] at hr ⊢
    exact (h.roles.map _).nodup_iff.mpr hr
  cases hn : r.roleOf? n with
  | none =>
    rw [roleOf?_eq_none_iff] at hn ⊢
    exact fun q hq => hn q (h.roles.mem_iff.mp hq)
  | some x =>
    obtain ⟨before, rule, after, hroles, hkind, hchild, -⟩ := roleOf?_eq_some_iff.mp hn
    have hmem : (x.1, rule) ∈ r'.roles := by
      rw [h.roles.mem_iff, hroles]
      exact List.mem_append_right _ List.mem_cons_self
    rw [roleOf?, hkind, Option.bind_some, roleOfKind?_of_mem hr' hmem, hchild]

/-- Whether every rule decides for its kind. -/
structure Unambiguous (r : LanguageRules) : Prop where
  live : ∀ role rule, (role, rule) ∈ r.roles →
    ∀ n : Node, n.kind? = some rule.kind → r.roleOf? n = some (role, rule.nameChild)
  reordered : ∀ r' : LanguageRules, r'.Reorders r → ∀ n, r'.roleOf? n = r.roleOf? n
  callKinds : ∀ (kind : String) (n : Node), n.kind? = some kind →
    (kind ∈ r.callKinds ↔ ∃ i, r.roleOf? n = some (.call, i))

theorem unambiguous (h : r.duplicateKinds = []) : r.Unambiguous := by
  refine ⟨fun role rule hrule n hn => ?_, fun r' hr' => hr'.roleOf?_eq h, fun kind n hn => ?_⟩
  · rw [roleOf?, hn, Option.bind_some, roleOfKind?_of_mem h hrule]
  · rw [roleOf?, hn, Option.bind_some, mem_callKinds_iff h]

end LanguageRules

namespace Settings

variable {s : Settings}

theorem flaw?_of_validate (h : s.validate = .ok ()) : s.flaw? = none := by
  unfold validate at h
  split at h
  · cases h
  · assumption

/-- Settings without a flaw have no duplicates. -/
theorem duplicateKinds_of_flaw?_eq_none (h : s.flaw? = none) : s.language.duplicateKinds = [] := by
  simp only [flaw?] at h
  split at h
  · cases h
  split at h
  · cases h
  split at h
  · cases h
  split at h
  · cases h
  split at h
  · cases h
  · next hnone => simpa using hnone

/-- Settings that are refused for their kinds have duplicates, and all of them are named. -/
theorem duplicateKinds_of_flaw?_eq_some {ks : List String}
    (h : s.flaw? = some (.ambiguousKinds ks)) : ks = s.language.duplicateKinds ∧ ks ≠ [] := by
  simp only [flaw?] at h
  split at h
  · cases h
  split at h
  · cases h
  split at h
  · cases h
  split at h
  · cases h
  split at h
  · next hsome =>
    cases h
    exact ⟨rfl, by simpa using hsome⟩
  split at h
  · cases h
  split at h <;> split at h <;> cases h

end Settings

namespace LanguageRules

/-- The role of a node is that of the first rule for its kind, and duplicates are the kinds that
several rules claim. Settings are refused for duplicates only where there are some, and in those that
are accepted every rule counts. -/
theorem roles_are_unambiguous (r : LanguageRules) :
    (∀ (n : Node) role i, r.roleOf? n = some (role, i) ↔
      ∃ before rule after, r.roles = before ++ (role, rule) :: after ∧
        n.kind? = some rule.kind ∧ rule.nameChild = i ∧ ∀ q ∈ before, q.2.kind ≠ rule.kind) ∧
    (∀ n : Node, r.roleOf? n = none ↔ ∀ q ∈ r.roles, n.kind? ≠ some q.2.kind) ∧
    ListsRepeated (r.roles.map (·.2.kind)) r.duplicateKinds ∧
    ∀ s : Settings, s.language = r →
      (s.validate = .ok () → r.Unambiguous) ∧
      ∀ ks, s.validate = .error (.flaw (.ambiguousKinds ks)) → ks = r.duplicateKinds ∧ ks ≠ [] := by
  refine ⟨fun _ _ _ => roleOf?_eq_some_iff, fun _ => roleOf?_eq_none_iff,
    listsRepeated_secondOccurrences _, ?_⟩
  rintro s rfl
  constructor
  · intro h
    exact unambiguous (Settings.duplicateKinds_of_flaw?_eq_none (Settings.flaw?_of_validate h))
  · intro ks h
    refine Settings.duplicateKinds_of_flaw?_eq_some ?_
    unfold Settings.validate at h
    split at h
    · next reason hreason =>
      cases h
      exact hreason
    · split at h
      · split at h <;> cases h
      · cases h

-- the groups with more than one rule are turned round
theorem roles_are_unambiguous_reversed :
    ∃ (s : Settings) (r' : LanguageRules), s = {} ∧
      r' = { s.language with
        typeDefinitions := s.language.typeDefinitions.reverse
        calls := s.language.calls.reverse } ∧
      s.validate = .ok () ∧ s.language.Unambiguous ∧ r'.Reorders s.language ∧
      ∀ n, r'.roleOf? n = s.language.roleOf? n := by
  have hvalid : ({} : Settings).validate = .ok () := by decide +kernel
  obtain ⟨-, -, -, hsettings⟩ := roles_are_unambiguous .ruby
  have hunambiguous := (hsettings {} rfl).1 hvalid
  have hreorders : Reorders { LanguageRules.ruby with
      typeDefinitions := LanguageRules.ruby.typeDefinitions.reverse
      calls := LanguageRules.ruby.calls.reverse } .ruby :=
    ⟨List.reverse_perm _, .refl _, .refl _, .refl _, List.reverse_perm _⟩
  exact ⟨_, _, rfl, rfl, hvalid, hunambiguous, hreorders, hunambiguous.reordered _ hreorders⟩

end LanguageRules

end CodeIndex
