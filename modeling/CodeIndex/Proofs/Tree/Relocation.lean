import CodeIndex.Proofs.Repeated
import CodeIndex.Proofs.Tree.Ancestors

/-! # Subtrees in their trees

A subtree is a tree of its own, and an address in it becomes one in the whole tree behind the
address of its root. A walk through the whole tree passes it in one go: the walk through the
subtree, with all addresses put behind that of its root, is a block of the walk through the tree.
-/

namespace CodeIndex

namespace Address

variable {a b c : Address}

@[simp] theorem join_root (a : Address) : a.join .root = a :=
  congrArg Address.mk (List.append_nil a.path)

theorem join_eq_self_iff : a.join b = a ↔ b = .root := by
  cases a
  cases b
  simp [join, root]

/-- The addresses strictly below an address are longer and begin with it. -/
theorem exists_join_iff :
    (∃ r, r ≠ .root ∧ c = a.join r) ↔ a.path.length < c.path.length ∧ a.path <+: c.path := by
  constructor
  · rintro ⟨⟨rest⟩, hne, rfl⟩
    have hrest : rest ≠ [] := fun h => hne (congrArg Address.mk h)
    have hpos := List.length_pos_iff.mpr hrest
    have hlength : (a.path ++ rest).length = a.path.length + rest.length := List.length_append
    exact ⟨by change _ < (a.path ++ rest).length; omega, List.prefix_append a.path rest⟩
  · rintro ⟨hlength, rest, hrest⟩
    refine ⟨⟨rest⟩, ?_, congrArg Address.mk hrest.symm⟩
    rintro ⟨⟩
    rw [← hrest, List.append_nil] at hlength
    exact Nat.lt_irrefl _ hlength

theorem isAncestorOf_iff : a.isAncestorOf c ↔ ∃ r, r ≠ .root ∧ c = a.join r := by
  rw [exists_join_iff, isAncestorOf, Bool.and_eq_true, decide_eq_true_iff,
    List.isPrefixOf_iff_prefix, depth, depth]

theorem mem_strictPrefixes_iff : a ∈ c.strictPrefixes ↔ ∃ r, r ≠ .root ∧ c = a.join r := by
  rw [exists_join_iff, strictPrefixes, List.mem_map]
  constructor
  · rintro ⟨k, hk, rfl⟩
    have hlength : k < c.path.length := List.mem_range.mp hk
    exact ⟨Nat.lt_of_le_of_lt (List.length_take_le k c.path) hlength, List.take_prefix k c.path⟩
  · rintro ⟨hlength, hprefix⟩
    refine ⟨a.path.length, List.mem_range.mpr hlength, ?_⟩
    exact congrArg Address.mk (List.prefix_iff_eq_take.mp hprefix).symm

/-- An address lies at or below another one exactly if it goes on from it. -/
theorem eq_or_isAncestorOf_iff : (c = a ∨ a.isAncestorOf c) ↔ ∃ r, c = a.join r := by
  rw [isAncestorOf_iff]
  constructor
  · rintro (rfl | ⟨r, -, hr⟩)
    · exact ⟨.root, (join_root c).symm⟩
    · exact ⟨r, hr⟩
  · rintro ⟨r, rfl⟩
    by_cases hr : r = .root
    · exact .inl (join_eq_self_iff.mpr hr)
    · exact .inr ⟨r, hr, rfl⟩

end Address

namespace Node

variable {n m : Node} {a : Address}

/-- The walk through a subtree as it appears in the walk through its tree. -/
def relocated (a : Address) (m : Node) : List (Address × Node) :=
  m.preorder.map fun x => (a.join x.1, x.2)

theorem mem_relocated {c : Address} {k : Node} :
    (c, k) ∈ m.relocated a ↔ ∃ r, c = a.join r ∧ m.at? r = some k := by
  rw [relocated, List.mem_map]
  constructor
  · rintro ⟨⟨r, k'⟩, hmem, heq⟩
    obtain ⟨rfl, rfl⟩ := Prod.mk.inj heq
    exact ⟨r, rfl, mem_preorder.mp hmem⟩
  · rintro ⟨r, rfl, hr⟩
    exact ⟨(r, k), mem_preorder.mpr hr, rfl⟩

theorem toList_start_eq_relocated (a : Address) (m : Node) :
    (PreorderWalk.start a m).toList = m.relocated a := by
  rw [PreorderWalk.toList_start, PreorderWalk.listing, relocated, preorder_eq, List.map_map]
  rfl

/-- The paths of a subtree, behind the one to its root, stand next to each other. -/
theorem infix_paths {path : List Nat} (h : n.follow? path = some m) :
    (m.paths.map fun x => (path ++ x.1, x.2)) <:+: n.paths := by
  induction path generalizing n with
  | nil =>
    obtain rfl : n = m := Option.some.inj h
    simp
  | cons i path ih =>
    obtain ⟨c, hc, h⟩ := Option.bind_eq_some_iff.mp h
    -- the child that the path enters first has a block of its own, and the subtree lies in it
    have hchild : (c.paths.map fun x => (i :: x.1, x.2)) <:+: pathsFrom 0 n.children := by
      have hmem : (c, i) ∈ n.children.zipIdx := List.mem_zipIdx_iff_getElem?.mpr hc
      rw [pathsFrom_eq, List.flatMap_def]
      exact List.infix_of_mem_flatten (List.mem_map_of_mem hmem)
    have hsubtree := (ih h).map fun x : List Nat × Node => (i :: x.1, x.2)
    rw [List.map_map] at hsubtree
    rw [paths_eq n]
    exact (hsubtree.trans hchild).trans (List.suffix_cons _ _).isInfix

theorem relocated_infix_preorder (h : n.at? a = some m) : m.relocated a <:+: n.preorder := by
  have hinfix := (infix_paths h).map fun x : List Nat × Node => ((⟨x.1⟩ : Address), x.2)
  rw [List.map_map] at hinfix
  rw [preorder_eq n, relocated, preorder_eq m, List.map_map]
  exact hinfix

/-- The block of a subtree holds all nodes at or below the address of its root, and no others. -/
theorem filter_preorder_eq_relocated (h : n.at? a = some m) :
    (n.preorder.filter fun x => x.1 = a || a.isAncestorOf x.1) = m.relocated a := by
  refine filter_eq_of_infix (relocated_infix_preorder h) (n.nodup_preorder.of_map _) ?_
  rintro ⟨c, k⟩ hx
  rw [Bool.or_eq_true, decide_eq_true_iff, Address.eq_or_isAncestorOf_iff, mem_relocated]
  constructor
  · rintro ⟨r, rfl⟩
    have hk := mem_preorder.mp hx
    rw [at?_join, h] at hk
    exact ⟨r, rfl, hk⟩
  · rintro ⟨r, hr, -⟩
    exact ⟨r, hr⟩

theorem below?_of_at? (h : n.at? a = some m) (kinds : List String) :
    n.below? a kinds =
      some ((m.relocated a).filter fun x => ∃ kind ∈ kinds, x.2.kind? = some kind) := by
  have hkinds : ∀ x : Address × Node, (x.2.kind?.any fun kind => kinds.contains kind) =
      decide (∃ kind ∈ kinds, x.2.kind? = some kind) := by
    intro x
    rw [Bool.eq_iff_iff, Option.any_eq_true, decide_eq_true_iff]
    constructor
    · rintro ⟨kind, hkind, hmem⟩
      exact ⟨kind, List.contains_iff_mem.mp hmem, hkind⟩
    · rintro ⟨kind, hmem, hkind⟩
      exact ⟨kind, hkind, List.contains_iff_mem.mpr hmem⟩
  rw [below?, h, ← toList_start_eq_relocated]
  exact congrArg some (List.filter_congr fun x _ => hkinds x)

theorem below?_eq_none {kinds : List String} : n.below? a kinds = none ↔ n.at? a = none := by
  cases h : n.at? a with
  | none =>
    rw [below?, h]
    simp
  | some m => simp [below?_of_at? h]

theorem lookup_join {k : Node} {b : Address} :
    n.lookup (a.join b) = .ok k ↔ ∃ m, n.lookup a = .ok m ∧ m.lookup b = .ok k := by
  simp only [lookup_eq_ok, at?_join, Option.bind_eq_some_iff]

theorem lookupBelow_notFound_iff {kinds : List String} :
    (∃ e, n.lookupBelow a kinds = .error e ∧ e.kind = .notFound) ↔
      ¬ ∃ m, n.lookup a = .ok m := by
  simp only [lookup_eq_ok, ← Option.isSome_iff_exists, Option.not_isSome_iff_eq_none, lookupBelow,
    Address.found_eq_error, below?_eq_none]
  constructor
  · rintro ⟨e, ⟨hnone, -⟩, -⟩
    exact hnone
  · intro hnone
    exact ⟨_, ⟨hnone, rfl⟩, rfl⟩

/-- Addresses in a subtree are those in the whole tree but for the address of its root in front,
whether nodes are looked up or listed. The walk through a subtree is the block of the nodes at or
below its root, so that a search below an address picks its nodes from this block; the search is a
miss exactly where the address leads to no node. -/
theorem subtrees_are_blocks (n : Node) (a : Address) :
    (∀ b k, n.lookup (a.join b) = .ok k ↔ ∃ m, n.lookup a = .ok m ∧ m.lookup b = .ok k) ∧
      (∀ m, n.lookup a = .ok m →
        m.relocated a = (n.preorder.filter fun x => x.1 = a || a.isAncestorOf x.1) ∧
        m.relocated a <:+: n.preorder ∧
        ∀ kinds, n.lookupBelow a kinds =
          .ok ((m.relocated a).filter fun x => ∃ kind ∈ kinds, x.2.kind? = some kind)) ∧
      (∀ kinds, (∃ e, n.lookupBelow a kinds = .error e ∧ e.kind = .notFound) ↔
        ¬ ∃ m, n.lookup a = .ok m) ∧
      ∀ c, (a.isAncestorOf c ↔ ∃ r, r ≠ .root ∧ c = a.join r) ∧
        (a.isAncestorOf c ↔ a ∈ c.strictPrefixes) := by
  refine ⟨fun b k => lookup_join, ?_, fun kinds => lookupBelow_notFound_iff, fun c => ?_⟩
  · intro m hm
    have hat := lookup_eq_ok.mp hm
    refine ⟨(filter_preorder_eq_relocated hat).symm, relocated_infix_preorder hat, fun kinds => ?_⟩
    rw [lookupBelow, below?_of_at? hat]
    rfl
  · exact ⟨Address.isAncestorOf_iff,
      Address.isAncestorOf_iff.trans Address.mem_strictPrefixes_iff.symm⟩

theorem subtrees_are_blocks_method :
    ∃ n method call : Node,
      n = .branch (some "class") [.literal (.str "Dog"), method, .literal .nil] (some ⟨1, 4⟩) ∧
      method = .branch (some "def") [.literal (.str "bark"), call] (some ⟨2, 3⟩) ∧
      call = .branch (some "send") [.literal .nil, .literal (.str "breathe")] (some ⟨3, 3⟩) ∧
      n.lookup ⟨[1]⟩ = .ok method ∧
      method.relocated ⟨[1]⟩ = [(⟨[1]⟩, method), (⟨[1, 0]⟩, .literal (.str "bark")),
        (⟨[1, 1]⟩, call), (⟨[1, 1, 0]⟩, .literal .nil),
        (⟨[1, 1, 1]⟩, .literal (.str "breathe"))] ∧
      method.relocated ⟨[1]⟩ <:+: n.preorder ∧
      n.lookupBelow ⟨[1]⟩ ["send"] = .ok [(⟨[1, 1]⟩, call)] ∧
      n.lookup ⟨[1, 1]⟩ = .ok call := by
  let call : Node := .branch (some "send") [.literal .nil, .literal (.str "breathe")] (some ⟨3, 3⟩)
  let method : Node := .branch (some "def") [.literal (.str "bark"), call] (some ⟨2, 3⟩)
  let n : Node :=
    .branch (some "class") [.literal (.str "Dog"), method, .literal .nil] (some ⟨1, 4⟩)
  have hmethod : n.lookup ⟨[1]⟩ = .ok method := rfl
  have hlisting : method.relocated ⟨[1]⟩ = [(⟨[1]⟩, method), (⟨[1, 0]⟩, .literal (.str "bark")),
      (⟨[1, 1]⟩, call), (⟨[1, 1, 0]⟩, .literal .nil),
      (⟨[1, 1, 1]⟩, .literal (.str "breathe"))] := by
    rw [relocated, preorder_eq]
    rfl
  obtain ⟨hjoin, hblock, -, -⟩ := subtrees_are_blocks n ⟨[1]⟩
  obtain ⟨-, hinfix, hbelow⟩ := hblock method hmethod
  refine ⟨n, method, call, rfl, rfl, rfl, hmethod, hlisting, hinfix, ?_,
    (hjoin ⟨[1]⟩ call).mpr ⟨method, hmethod, rfl⟩⟩
  rw [hbelow, hlisting]
  rfl

end Node

end CodeIndex
