import CodeIndex.Proofs.Tree.Preorder
import CodeIndex.Tree.Lookup

/-! # Ways to nodes

On the way to the node at an address lie the nodes at its strict prefixes. A way is known as soon
as the address is known to lead to a node, so it cannot get lost between two lookups; its last node
is the parent of the one that it leads to.
-/

namespace CodeIndex

namespace Address

theorem exists_eq_child {a : Address} (h : a ≠ .root) : ∃ (b : Address) (i : Nat), a = b.child i := by
  obtain ⟨path⟩ := a
  have hpath : path ≠ [] := fun hnil => h (congrArg Address.mk hnil)
  exact ⟨⟨path.dropLast⟩, path.getLast hpath,
    congrArg Address.mk (List.dropLast_append_getLast hpath).symm⟩

/-- Strictly above a child lie its parent and what is strictly above the parent. -/
theorem strictPrefixes_child (b : Address) (i : Nat) :
    (b.child i).strictPrefixes = b.strictPrefixes ++ [b] := by
  have htake : ∀ k ∈ List.range b.path.length,
      (⟨(b.path ++ [i]).take k⟩ : Address) = ⟨b.path.take k⟩ := by
    intro k hk
    rw [List.take_append_of_le_length (Nat.le_of_lt (List.mem_range.mp hk))]
  rw [strictPrefixes, strictPrefixes, depth, depth, child, List.length_append,
    List.length_singleton, List.range_succ, List.map_append, List.map_singleton,
    List.map_congr_left htake, List.take_left]

theorem getLast?_path_child (b : Address) (i : Nat) : (b.child i).path.getLast? = some i :=
  List.getLast?_concat

end Address

namespace Node

theorem follow?_append (n : Node) (path rest : List Nat) :
    n.follow? (path ++ rest) = (n.follow? path).bind (·.follow? rest) := by
  induction path generalizing n with
  | nil => rfl
  | cons i path ih =>
    rw [List.cons_append, follow?_cons, follow?_cons, Option.bind_assoc]
    congr 1
    funext c
    exact ih c

/-- A path that leads to a node passes the nodes to which its beginnings lead. -/
theorem passed?_of_follow? {n m : Node} {path : List Nat} (above : Address)
    (h : n.follow? path = some m) :
    ∃ passed, n.passed? above path = some passed ∧
      passed.map (fun x => (x.1, some x.2)) =
        (List.range path.length).map fun k =>
          (above.join ⟨path.take k⟩, n.follow? (path.take k)) := by
  induction path generalizing n above with
  | nil => exact ⟨[], rfl, rfl⟩
  | cons i path ih =>
    rw [follow?_cons] at h
    obtain ⟨c, hc, h⟩ := Option.bind_eq_some_iff.mp h
    obtain ⟨passed, hp, hmap⟩ := ih (above.child i) h
    refine ⟨(above, n) :: passed, ?_, ?_⟩
    · rw [passed?, hc]
      show (c.passed? (above.child i) path >>= fun rest => some ((above, n) :: rest)) = _
      rw [hp]
      rfl
    · rw [List.map_cons, hmap, List.length_cons, List.range_succ_eq_map, List.map_cons,
        List.map_map]
      refine List.cons_eq_cons.mpr ⟨?_, List.map_congr_left fun k _ => ?_⟩
      · simp [Address.join]
      · simp [Address.join, Address.child, hc]

theorem follow?_of_passed? {n : Node} {path : List Nat} {above : Address}
    {passed : List (Address × Node)} (h : n.passed? above path = some passed) :
    ∃ m, n.follow? path = some m := by
  induction path generalizing n above passed with
  | nil => exact ⟨n, rfl⟩
  | cons i path ih =>
    obtain ⟨c, hc, h⟩ := Option.bind_eq_some_iff.mp h
    obtain ⟨rest, hr, -⟩ := Option.bind_eq_some_iff.mp h
    obtain ⟨m, hm⟩ := ih hr
    exact ⟨m, by rw [follow?_cons, hc]; exact hm⟩

/-- The way to an address is known exactly where a node has the address. -/
theorem isSome_ancestors? (n : Node) (a : Address) :
    (n.ancestors? a).isSome = (n.at? a).isSome := by
  rw [Bool.eq_iff_iff, Option.isSome_iff_exists, Option.isSome_iff_exists]
  constructor
  · rintro ⟨passed, h⟩
    exact follow?_of_passed? h
  · rintro ⟨m, h⟩
    obtain ⟨passed, hp, -⟩ := passed?_of_follow? .root h
    exact ⟨passed, hp⟩

/-- On the way to an address lie the nodes at its strict prefixes. -/
theorem ancestors?_eq_some {n : Node} {a : Address} {above : List (Address × Node)}
    (h : n.ancestors? a = some above) :
    above.map (fun x => (x.1, some x.2)) = a.strictPrefixes.map fun b => (b, n.at? b) := by
  obtain ⟨m, hm⟩ := follow?_of_passed? h
  obtain ⟨passed, hp, hmap⟩ := passed?_of_follow? .root hm
  obtain rfl := Option.some.inj (hp.symm.trans h)
  rw [hmap, Address.strictPrefixes, List.map_map]
  rfl

/-- Each node on the way is the one at the address that it is listed with. -/
theorem at?_of_mem_ancestors? {n m : Node} {a b : Address} {above : List (Address × Node)}
    (h : n.ancestors? a = some above) (hm : (b, m) ∈ above) : n.at? b = some m := by
  have hmem : (b, some m) ∈ a.strictPrefixes.map fun b => (b, n.at? b) := by
    rw [← ancestors?_eq_some h]
    exact List.mem_map_of_mem hm
  obtain ⟨b', -, heq⟩ := List.mem_map.mp hmem
  obtain ⟨rfl, hat⟩ := Prod.mk.inj heq
  exact hat

/-! ## Lookups -/

theorem at?_join (n : Node) (a b : Address) : n.at? (a.join b) = (n.at? a).bind (·.at? b) :=
  n.follow?_append a.path b.path

theorem at?_child (n : Node) (b : Address) (i : Nat) :
    n.at? (b.child i) = (n.at? b).bind (·.child? i) := by
  rw [at?, Address.child, follow?_append]
  congr 1
  funext m
  exact Option.bind_fun_some (m.child? i)

variable {n m : Node} {a b : Address} {above : List (Address × Node)}

theorem lookup_eq_ok : n.lookup a = .ok m ↔ n.at? a = some m :=
  Address.found_eq_ok

theorem lookupAncestors_eq_ok : n.lookupAncestors a = .ok above ↔ n.ancestors? a = some above :=
  Address.found_eq_ok

theorem ancestors?_eq_none : n.ancestors? a = none ↔ n.at? a = none := by
  rw [← Option.not_isSome_iff_eq_none, ← Option.not_isSome_iff_eq_none, isSome_ancestors?]

theorem getLast?_ancestors? {i : Nat} (h : n.ancestors? (b.child i) = some above) :
    ∃ parent, above.getLast? = some (b, parent) ∧ n.at? b = some parent := by
  have hlast := congrArg List.getLast? (ancestors?_eq_some h)
  rw [Address.strictPrefixes_child, List.map_append, List.map_singleton, List.getLast?_concat,
    List.getLast?_map] at hlast
  obtain ⟨⟨c, parent⟩, hparent, heq⟩ := Option.map_eq_some_iff.mp hlast
  obtain ⟨rfl, hat⟩ := Prod.mk.inj heq
  exact ⟨parent, hparent, hat.symm⟩

/-- The ways to addresses fit the lookups: a way is known exactly where the lookup of its address
finds a node, and is missed as that node is. It passes the strict prefixes of the address in order,
each with the node that is found there, and its last node has the one at the address as a child. -/
theorem ancestors_lead_to_node (n : Node) (a : Address) :
    ((∃ above, n.lookupAncestors a = .ok above) ↔ ∃ m, n.lookup a = .ok m) ∧
      (∀ e, n.lookupAncestors a = .error e ↔ n.lookup a = .error e) ∧
      (∀ e, n.lookup a = .error e → e.kind = .notFound) ∧
      ∀ above, n.lookupAncestors a = .ok above →
        above.map (fun x => (x.1, Except.ok x.2)) =
          a.strictPrefixes.map (fun b => (b, n.lookup b)) ∧
        (a ≠ .root → ∃ last i m, above.getLast? = some last ∧ a.path.getLast? = some i ∧
          last.2.child? i = some m ∧ n.lookup a = .ok m) := by
  refine ⟨?_, ?_, ?_, ?_⟩
  · simp only [lookupAncestors_eq_ok, lookup_eq_ok, ← Option.isSome_iff_exists, isSome_ancestors?]
  · intro e
    rw [lookupAncestors, lookup, Address.found_eq_error, Address.found_eq_error, ancestors?_eq_none]
  · intro e he
    obtain ⟨-, rfl⟩ := Address.found_eq_error.mp he
    rfl
  intro above h
  rw [lookupAncestors_eq_ok] at h
  constructor
  · have hmap := congrArg (List.map fun x => (x.1, x.1.found x.2)) (ancestors?_eq_some h)
    rw [List.map_map, List.map_map] at hmap
    exact hmap
  · intro hroot
    obtain ⟨b, i, rfl⟩ := Address.exists_eq_child hroot
    obtain ⟨m, hm⟩ := follow?_of_passed? h
    obtain ⟨parent, hlast, hparent⟩ := getLast?_ancestors? h
    have hchild : n.at? (b.child i) = some m := hm
    rw [at?_child, hparent] at hchild
    exact ⟨_, i, m, hlast, b.getLast?_path_child i, hchild, lookup_eq_ok.mpr hm⟩

theorem ancestors_lead_to_node_nested :
    ∃ (n body method : Node) (above : List (Address × Node)) (e : Error),
      n = .branch (some "class") [.literal (.str "Dog"), body] (some ⟨1, 4⟩) ∧
      body = .branch (some "begin") [method] none ∧
      method = .branch (some "def") [.literal (.str "bark")] (some ⟨2, 3⟩) ∧
      n.lookupAncestors ⟨[1, 0]⟩ = .ok above ∧
      above.map (fun x => (x.1, Except.ok (ε := Error) x.2)) = [(⟨[]⟩, .ok n), (⟨[1]⟩, .ok body)] ∧
      (∃ last i m, above.getLast? = some last ∧ [1, 0].getLast? = some i ∧
        last.2.child? i = some m ∧ n.lookup ⟨[1, 0]⟩ = .ok m) ∧
      n.lookupAncestors ⟨[1, 0, 5]⟩ = .error e ∧ n.lookup ⟨[1, 0, 5]⟩ = .error e ∧
      e.kind = .notFound := by
  let method : Node := .branch (some "def") [.literal (.str "bark")] (some ⟨2, 3⟩)
  let body : Node := .branch (some "begin") [method] none
  let n : Node := .branch (some "class") [.literal (.str "Dog"), body] (some ⟨1, 4⟩)
  obtain ⟨hknown, -, -, hway⟩ := ancestors_lead_to_node n ⟨[1, 0]⟩
  obtain ⟨-, hmissed, hkind, -⟩ := ancestors_lead_to_node n ⟨[1, 0, 5]⟩
  obtain ⟨above, habove⟩ := hknown.mpr ⟨method, rfl⟩
  obtain ⟨hmap, hlast⟩ := hway above habove
  have herror : n.lookup ⟨[1, 0, 5]⟩ = .error { cause := .noNode ⟨[1, 0, 5]⟩ } := rfl
  exact ⟨n, body, method, above, _, rfl, rfl, rfl, habove, hmap, hlast (by decide),
    (hmissed _).mpr herror, herror, hkind _ herror⟩

end Node

end CodeIndex
