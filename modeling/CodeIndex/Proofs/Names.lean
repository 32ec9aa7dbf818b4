import CodeIndex.Proofs.Extraction.Wrappers
import CodeIndex.Proofs.Tree.Size

/-! # Chains that end in names

The name of a node is looked for along a chain: it begins at a child of the node and goes on from
each reference to a constant to the child that the rule of its kind points to. Whatever the rules
say, each step goes down in the tree, so that every search ends. Where the chain ends in a string,
this is the name, and otherwise there is none.
-/

namespace CodeIndex

namespace LanguageRules

variable {r : LanguageRules} {n m c e : Node} {i : Nat}

/-! ## Steps -/

def LeadsTo (r : LanguageRules) (n m : Node) : Prop :=
  ∃ i, r.roleOf? n = some (.constantReference, i) ∧ n.child? i = some m

theorem LeadsTo.weight_lt (h : r.LeadsTo n m) : m.weight < n.weight := by
  obtain ⟨i, -, hm⟩ := h
  have hle : i + m.weight ≤ Node.weights n.children := Node.lt_weights_of_getElem? hm
  have hn := Node.weight_eq n
  omega

theorem string?_of_roleOf? {x : NodeRole × Nat} (h : r.roleOf? n = some x) : n.string? = none := by
  cases n with
  | branch kind children location => rfl
  | literal value => cases h

theorem nameFor?_of_string? {s : String} (h : n.string? = some s) : r.nameFor? n = some s := by
  cases n with
  | branch kind children location => cases h
  | literal value => cases value <;> exact h

/-- A reference to a constant has the name of the child that its rule points to. -/
theorem nameFor?_of_reference (h : r.roleOf? n = some (.constantReference, i)) :
    r.nameFor? n = (n.child? i).bind r.nameFor? := by
  cases n with
  | branch kind children location =>
    have hkind : kind.bind r.roleOfKind? = some (.constantReference, i) := h
    rw [nameFor?, hkind]
    exact nameAt?_eq children i
  | literal value => cases h

theorem nameFor?_of_other (hs : n.string? = none)
    (h : ∀ i, r.roleOf? n ≠ some (.constantReference, i)) : r.nameFor? n = none := by
  cases n with
  | branch kind children location =>
    rw [nameFor?]
    split
    · next i hkind => exact absurd hkind (h i)
    · rfl
  | literal value => cases value <;> first | rfl | cases hs

theorem LeadsTo.nameFor?_eq (h : r.LeadsTo n m) : r.nameFor? n = r.nameFor? m := by
  obtain ⟨i, hrole, hm⟩ := h
  rw [nameFor?_of_reference hrole, hm, Option.bind_some]

/-- Where a search cannot go on, only a string is a name. -/
theorem nameFor?_of_not_leadsTo (h : ∀ m, ¬ r.LeadsTo e m) : r.nameFor? e = e.string? := by
  cases hs : e.string? with
  | some s => exact nameFor?_of_string? hs
  | none =>
    by_cases hrole : ∃ i, r.roleOf? e = some (.constantReference, i)
    · obtain ⟨i, hi⟩ := hrole
      rw [nameFor?_of_reference hi]
      cases hchild : e.child? i with
      | none => rfl
      | some m => exact absurd ⟨i, hi, hchild⟩ (h m)
    · exact nameFor?_of_other hs (not_exists.mp hrole)

/-! ## Chains -/

def ChainTo (r : LanguageRules) (c e : Node) : Prop :=
  ∃ chain : List Node, chain.head? = some c ∧ chain.IsChain r.LeadsTo ∧ chain.getLast? = some e

theorem chainTo_self (c : Node) : r.ChainTo c c :=
  ⟨[c], rfl, .singleton c, rfl⟩

theorem LeadsTo.chainTo (h : r.LeadsTo c m) (hm : r.ChainTo m e) : r.ChainTo c e := by
  obtain ⟨chain, hhead, hchain, hlast⟩ := hm
  obtain ⟨rest, rfl⟩ := List.head?_eq_some_iff.mp hhead
  exact ⟨c :: m :: rest, rfl, hchain.cons_cons h, by rw [List.getLast?_cons_cons, hlast]⟩

theorem ChainTo.nameFor?_eq (h : r.ChainTo c e) : r.nameFor? c = r.nameFor? e := by
  obtain ⟨chain, hhead, hchain, hlast⟩ := h
  obtain ⟨rest, rfl⟩ := List.head?_eq_some_iff.mp hhead
  clear hhead
  induction rest generalizing c with
  | nil =>
    obtain rfl : c = e := by simpa using hlast
    rfl
  | cons m rest ih =>
    obtain ⟨hstep, hrest⟩ := List.isChain_cons_cons.mp hchain
    rw [List.getLast?_cons_cons] at hlast
    rw [hstep.nameFor?_eq, ih hrest hlast]

/-- Every chain can be followed to a node from which it does not go on. -/
theorem exists_chainTo_end (c : Node) : ∃ e, r.ChainTo c e ∧ ∀ m, ¬ r.LeadsTo e m := by
  induction hw : c.weight using Nat.strongRecOn generalizing c with
  | ind w ih =>
    by_cases hend : ∃ m, r.LeadsTo c m
    · obtain ⟨m, hm⟩ := hend
      obtain ⟨e, he, hstop⟩ := ih m.weight (hw ▸ hm.weight_lt) m rfl
      exact ⟨e, hm.chainTo he, hstop⟩
    · exact ⟨c, chainTo_self c, not_exists.mp hend⟩

/-- Whether a chain comes to a reference to a constant that points to no child. -/
def IsDangling (r : LanguageRules) (e : Node) : Prop :=
  ∃ i, r.roleOf? e = some (.constantReference, i) ∧ e.child? i = none

/-- Whether a node is neither a string nor a reference to a constant. -/
def IsNameless (r : LanguageRules) (e : Node) : Prop :=
  e.string? = none ∧ ∀ i, r.roleOf? e ≠ some (.constantReference, i)

theorem nameFor?_eq_some_iff {s : String} :
    r.nameFor? c = some s ↔ r.ChainTo c (.literal (.str s)) := by
  constructor
  · intro h
    obtain ⟨e, he, hstop⟩ := r.exists_chainTo_end c
    rw [he.nameFor?_eq, nameFor?_of_not_leadsTo hstop] at h
    obtain rfl : e = .literal (.str s) := by
      cases e with
      | branch kind children location => cases h
      | literal value => cases value <;> simp_all [Node.string?]
    exact he
  · intro h
    rw [h.nameFor?_eq]
    rfl

theorem nameFor?_eq_none_iff :
    r.nameFor? c = none ↔ ∃ e, r.ChainTo c e ∧ (r.IsDangling e ∨ r.IsNameless e) := by
  constructor
  · intro h
    obtain ⟨e, he, hstop⟩ := r.exists_chainTo_end c
    rw [he.nameFor?_eq, nameFor?_of_not_leadsTo hstop] at h
    refine ⟨e, he, ?_⟩
    by_cases hrole : ∃ i, r.roleOf? e = some (.constantReference, i)
    · obtain ⟨i, hi⟩ := hrole
      refine .inl ⟨i, hi, ?_⟩
      cases hchild : e.child? i with
      | none => rfl
      | some m => exact absurd ⟨i, hi, hchild⟩ (hstop m)
    · exact .inr ⟨h, not_exists.mp hrole⟩
  · rintro ⟨e, he, ⟨i, hrole, hchild⟩ | ⟨hstring, hrole⟩⟩
    · have hstop : ∀ m, ¬ r.LeadsTo e m := by
        rintro m ⟨j, hj, hm⟩
        obtain rfl : i = j := by simpa [hrole] using hj
        simp [hchild] at hm
      rw [he.nameFor?_eq, nameFor?_of_not_leadsTo hstop, string?_of_roleOf? hrole]
    · have hstop : ∀ m, ¬ r.LeadsTo e m := fun m ⟨j, hj, _⟩ => hrole j hj
      rw [he.nameFor?_eq, nameFor?_of_not_leadsTo hstop, hstring]

/-! ## Searches -/

/-- Searches for the name that a node stands for, in at most `passes` passes. There is no outcome if
these are not enough, and else it is the name, if there is one. -/
def search? (r : LanguageRules) : Nat → Node → Option (Option String)
  | 0, _ => none
  | passes + 1, n =>
    match n.string? with
    | some s => some (some s)
    | none =>
      match r.roleOf? n with
      | some (.constantReference, i) =>
        match n.child? i with
        | some m => r.search? passes m
        | none => some none
      | _ => some none

/-- A search ends after no more passes than the tree has nodes. -/
theorem search?_eq {passes : Nat} (h : c.weight ≤ passes) :
    r.search? passes c = some (r.nameFor? c) := by
  induction passes generalizing c with
  | zero =>
    have hpos := Node.weight_eq c
    omega
  | succ passes ih =>
    rw [search?]
    split
    · next s hs => rw [nameFor?_of_string? hs]
    · next hs =>
      split
      · next i hrole =>
        rw [nameFor?_of_reference hrole]
        split
        · next m hchild =>
          have hlt := LeadsTo.weight_lt ⟨i, hrole, hchild⟩
          rw [hchild, Option.bind_some, ih (by omega)]
        · next hchild => rw [hchild, Option.bind_none]
      · next hrole => rw [nameFor?_of_other hs fun i hi => hrole i hi]

/-- The search for the name of a node ends, after no more passes than there are nodes. It gives a
name exactly where a chain leads from the child at the given position to that string, and none
exactly where there is no such child or a chain leads from it out of the tree or to a node that no
name can be got from. -/
theorem names_are_ends_of_chains (r : LanguageRules) (n : Node) (i : Nat) :
    (∀ c, n.child? i = some c → ∀ passes, c.size ≤ passes →
      r.search? passes c = some (r.nameOf? n i)) ∧
    (∀ s, r.nameOf? n i = some s ↔
      ∃ c, n.child? i = some c ∧ r.ChainTo c (.literal (.str s))) ∧
    (r.nameOf? n i = none ↔
      n.child? i = none ∨
        ∃ c e, n.child? i = some c ∧ r.ChainTo c e ∧ (r.IsDangling e ∨ r.IsNameless e)) := by
  have hname : r.nameOf? n i = (n.child? i).bind r.nameFor? := nameAt?_eq n.children i
  rw [hname]
  cases n.child? i with
  | none => simp
  | some c =>
    refine ⟨?_, fun s => ?_, ?_⟩
    · intro c' hc passes hpasses
      obtain rfl := Option.some.inj hc
      exact search?_eq (Node.size_eq_weight c ▸ hpasses)
    · rw [Option.bind_some, nameFor?_eq_some_iff]
      exact ⟨fun h => ⟨c, rfl, h⟩, fun ⟨_, hc, h⟩ => Option.some.inj hc ▸ h⟩
    · rw [Option.bind_some, nameFor?_eq_none_iff]
      constructor
      · rintro ⟨e, he⟩
        exact .inr ⟨c, e, rfl, he⟩
      · rintro (h | ⟨_, e, hc, he⟩)
        · cases h
        · obtain rfl := Option.some.inj hc
          exact ⟨e, he⟩

-- the later rule for the kind is passed over
example : search? { LanguageRules.ruby with calls := [⟨"const", 0⟩] } 2
    (.branch (some "const") [.literal .nil, .literal (.str "Dog")] none) = some (some "Dog") := by
  cbv

end LanguageRules

end CodeIndex
