import CodeIndex.Tree.Traversal
import Mathlib.Data.List.Basic

/-! # Walks through trees

A preorder walk keeps the subtrees that are still ahead on a stack. What is ahead is at every moment
the concatenation of their listings, so a walk lists a tree as recursion on the tree does: every
address that leads to a node comes up once, in lexicographic order. Counting takes the children of
a node from the last to the first and arrives at the same number.
-/

namespace CodeIndex

namespace Node

/-- What holds of literals, and of every branch of whose children it holds, holds of all nodes. -/
@[elab_as_elim]
theorem induction {P : Node → Prop} (literal : ∀ value, P (.literal value))
    (branch : ∀ kind children location, (∀ c ∈ children, P c) →
      P (.branch kind children location)) (n : Node) : P n := by
  refine Node.rec (motive_1 := P) (motive_2 := fun ns => ∀ c ∈ ns, P c) ?_ literal ?_ ?_ n
  · exact fun kind children location ih => branch kind children location ih
  · simp
  · intro n ns hn hns c hc
    rcases List.mem_cons.mp hc with rfl | hc
    · exact hn
    · exact hns c hc

@[simp] theorem follow?_nil (n : Node) : n.follow? [] = some n := rfl

@[simp] theorem follow?_cons (n : Node) (i : Nat) (path : List Nat) :
    n.follow? (i :: path) = (n.child? i).bind (·.follow? path) := rfl

mutual

/-- The paths and nodes of a tree in preorder, by recursion on the tree. -/
def paths : Node → List (List Nat × Node)
  | .branch kind children location =>
    ([], .branch kind children location) :: pathsFrom 0 children
  | .literal value => [([], .literal value)]

/-- The paths and nodes of the trees whose roots have positions from `i` on. -/
def pathsFrom (i : Nat) : List Node → List (List Nat × Node)
  | [] => []
  | n :: ns => n.paths.map (fun x => (i :: x.1, x.2)) ++ pathsFrom (i + 1) ns

end

theorem paths_eq (n : Node) : n.paths = ([], n) :: pathsFrom 0 n.children := by
  cases n <;> simp [paths, pathsFrom, children]

theorem pathsFrom_eq (i : Nat) (ns : List Node) :
    pathsFrom i ns =
      (ns.zipIdx i).flatMap fun (n, j) => n.paths.map fun x => (j :: x.1, x.2) := by
  induction ns generalizing i with
  | nil => rfl
  | cons n ns ih => rw [pathsFrom, ih, List.zipIdx_cons, List.flatMap_cons]

theorem mem_pathsFrom {i : Nat} {ns : List Node} {path : List Nat} {m : Node} :
    (path, m) ∈ pathsFrom i ns ↔
      ∃ j c rest, ns[j]? = some c ∧ path = (i + j) :: rest ∧ (rest, m) ∈ c.paths := by
  rw [pathsFrom_eq, List.mem_flatMap]
  constructor
  · rintro ⟨⟨c, k⟩, hc, h⟩
    obtain ⟨⟨rest, m'⟩, hm, he⟩ := List.mem_map.mp h
    obtain ⟨hk, hj⟩ := List.mk_mem_zipIdx_iff_le_and_getElem?_sub.mp hc
    cases he
    exact ⟨k - i, c, rest, hj, by rw [Nat.add_sub_cancel' hk], hm⟩
  · rintro ⟨j, c, rest, hc, rfl, hm⟩
    exact ⟨(c, i + j), List.mk_add_mem_zipIdx_iff_getElem?.mpr hc,
      List.mem_map.mpr ⟨(rest, m), hm, rfl⟩⟩

/-- The paths of a tree are those that lead to a node. -/
theorem mem_paths {n m : Node} {path : List Nat} :
    (path, m) ∈ n.paths ↔ n.follow? path = some m := by
  induction n using Node.induction generalizing path with
  | literal value => cases path <;> simp [paths, child?, children, eq_comm]
  | branch kind children location ih =>
    rw [paths_eq, List.mem_cons, mem_pathsFrom]
    cases path with
    | nil => simp [eq_comm]
    | cons i path =>
      simp only [Prod.mk.injEq, reduceCtorEq, false_and, false_or, follow?_cons,
        Option.bind_eq_some_iff]
      constructor
      · rintro ⟨j, c, rest, hc, he, hm⟩
        obtain ⟨rfl, rfl⟩ : i = j ∧ path = rest := by simpa using he
        exact ⟨c, hc, (ih c (List.mem_of_getElem? hc)).mp hm⟩
      · rintro ⟨c, hc, hm⟩
        exact ⟨i, c, path, hc, by simp, (ih c (List.mem_of_getElem? hc)).mpr hm⟩

/-- A path comes before those that go on from it, and before those that turn later. -/
theorem pairwise_paths (n : Node) : n.paths.Pairwise fun x y => x.1 < y.1 := by
  induction n using Node.induction with
  | literal value => simp [paths]
  | branch kind children location ih =>
    have hfrom : ∀ (i : Nat) (ns : List Node), (∀ c ∈ ns, c.paths.Pairwise fun x y => x.1 < y.1) →
        (pathsFrom i ns).Pairwise fun x y => x.1 < y.1 := by
      intro i ns
      induction ns generalizing i with
      | nil => simp [pathsFrom]
      | cons n ns ihns =>
        intro h
        rw [pathsFrom, List.pairwise_append]
        refine ⟨?_, ihns (i + 1) fun c hc => h c (List.mem_cons_of_mem _ hc), ?_⟩
        · rw [List.pairwise_map]
          exact (h n List.mem_cons_self).imp fun hlt => by simpa using hlt
        · intro x hx y hy
          obtain ⟨u, hu, rfl⟩ := List.mem_map.mp hx
          obtain ⟨path, m⟩ := y
          obtain ⟨j, c, rest, -, rfl, -⟩ := mem_pathsFrom.mp hy
          exact List.Lex.rel (by omega)
    rw [paths_eq, List.pairwise_cons]
    refine ⟨fun y hy => ?_, hfrom 0 children ih⟩
    obtain ⟨path, m⟩ := y
    obtain ⟨j, c, rest, -, rfl, -⟩ := mem_pathsFrom.mp hy
    exact List.Lex.nil

theorem length_paths (n : Node) : n.paths.length = n.weight := by
  induction n using Node.induction with
  | literal value => rfl
  | branch kind children location ih =>
    have hfrom : ∀ (i : Nat) (ns : List Node), (∀ c ∈ ns, c.paths.length = c.weight) →
        (pathsFrom i ns).length = weights ns := by
      intro i ns
      induction ns generalizing i with
      | nil => simp [pathsFrom, weights]
      | cons n ns ihns =>
        intro h
        rw [pathsFrom, List.length_append, List.length_map, h n List.mem_cons_self,
          ihns (i + 1) fun c hc => h c (List.mem_cons_of_mem _ hc), weights]
    rw [paths_eq, weight_eq, List.length_cons]
    exact congrArg (· + 1) (hfrom 0 children ih)

theorem countStack_eq (seen : Nat) (stack : List Node) :
    countStack seen stack = seen + weights stack := by
  fun_induction countStack seen stack with
  | case1 seen => simp [weights]
  | case2 seen n stack ih =>
    rw [ih, weights_append, weights_reverse, weights, weight_eq n]
    omega

theorem size_eq_weight (n : Node) : n.size = n.weight := by
  simp [size, countStack_eq, weights]

end Node

namespace PreorderWalk

/-- The listing of a tree whose root has the address `a`. -/
def listing (a : Address) (n : Node) : List (Address × Node) :=
  n.paths.map fun x => (⟨a.path ++ x.1⟩, x.2)

theorem listing_eq (a : Address) (n : Node) :
    listing a n =
      (a, n) :: (n.children.zipIdx.map fun (c, i) => (a.child i, c)).flatMap fun x =>
        listing x.1 x.2 := by
  rw [listing, Node.paths_eq, List.map_cons, Node.pathsFrom_eq, List.map_flatMap, List.flatMap_map]
  simp only [List.append_nil, List.map_map, Function.comp_def, listing, Address.child,
    List.append_assoc, List.cons_append, List.nil_append]

/-- What is ahead on a walk is what the subtrees on its stack hold, one after the other. -/
theorem collect_eq (seen : List (Address × Node)) (w : PreorderWalk) :
    collect seen w = seen.reverse ++ w.ahead.flatMap fun x => listing x.1 x.2 := by
  fun_induction collect seen w with
  | case1 seen w h =>
    match w, h with
    | ⟨[]⟩, _ => simp
  | case2 seen w item w' h ih =>
    match w, h with
    | ⟨(a, n) :: ahead⟩, h =>
      simp only [next?, Option.some.injEq, Prod.mk.injEq] at h
      obtain ⟨rfl, rfl⟩ := h
      rw [ih, List.reverse_cons, List.flatMap_append, List.flatMap_cons, listing_eq a n]
      simp only [List.append_assoc, List.cons_append, List.nil_append]

theorem toList_start (a : Address) (n : Node) : (start a n).toList = listing a n := by
  simp [toList, collect_eq, start]

end PreorderWalk

namespace Node

theorem preorder_eq (n : Node) : n.preorder = n.paths.map fun x => (⟨x.1⟩, x.2) := by
  rw [preorder, PreorderWalk.toList_start]
  rfl

theorem mem_preorder {n m : Node} {a : Address} : (a, m) ∈ n.preorder ↔ n.at? a = some m := by
  rw [preorder_eq, List.mem_map, at?, ← mem_paths]
  constructor
  · rintro ⟨x, hx, he⟩
    cases he
    exact hx
  · exact fun h => ⟨_, h, rfl⟩

theorem compare_eq_lt {a b : Address} : compare a b = .lt ↔ a.path < b.path := by
  simp only [compare, compareOfLessAndEq]
  split
  · simpa
  · split <;> simp_all

theorem pairwise_preorder (n : Node) :
    n.preorder.Pairwise fun x y => compare x.1 y.1 = .lt := by
  rw [preorder_eq, List.pairwise_map]
  exact n.pairwise_paths.imp fun h => compare_eq_lt.mpr h

theorem nodup_preorder (n : Node) : (n.preorder.map (·.1)).Nodup := by
  rw [List.Nodup, List.pairwise_map]
  refine n.pairwise_preorder.imp fun h he => ?_
  rw [compare_eq_lt, he] at h
  exact List.lt_irrefl _ h

theorem length_preorder (n : Node) : n.preorder.length = n.size := by
  rw [preorder_eq, List.length_map, length_paths, size_eq_weight]

/-- A preorder walk lists the nodes that have an address, each under its own, once and in
lexicographic order from the root on. They are as many as counting finds, and the nodes of a kind
are those among them that have it. -/
theorem preorder_lists_addresses (n : Node) :
    (∀ a m, (a, m) ∈ n.preorder ↔ n.at? a = some m)
      ∧ (∀ a, (n.preorder.map (·.1)).count a = if (n.at? a).isSome then 1 else 0)
      ∧ n.preorder.Pairwise (fun x y => compare x.1 y.1 = .lt)
      ∧ n.preorder.head? = some (.root, n)
      ∧ n.preorder.length = n.size
      ∧ ∀ kind, n.ofKind kind = n.preorder.filter fun x => x.2.kind? = some kind := by
  refine ⟨fun a m => mem_preorder, fun a => ?_, n.pairwise_preorder, ?_, n.length_preorder,
    fun kind => ?_⟩
  · rw [n.nodup_preorder.count]
    have hmem : a ∈ n.preorder.map (·.1) ↔ (n.at? a).isSome := by
      rw [List.mem_map, Option.isSome_iff_exists]
      constructor
      · rintro ⟨⟨_, m⟩, hm, rfl⟩
        exact ⟨m, mem_preorder.mp hm⟩
      · exact fun ⟨m, hm⟩ => ⟨(a, m), mem_preorder.mpr hm, rfl⟩
    simp only [hmem]
  · rw [preorder_eq, paths_eq]
    rfl
  · exact List.filter_congr fun x _ => Bool.eq_iff_iff.mpr (by simp [hasKind])

end Node

end CodeIndex
