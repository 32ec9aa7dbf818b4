import CodeIndex.Proofs.Tree.RoundTrip
import CodeIndex.Rules

/-! # Outlines of trees

A tree that is written and read again keeps its branches, with their kinds and lines, and its
strings. Only other literals may come back as different ones, and an outline leaves these open. No
rule looks at them.
-/

namespace CodeIndex

def Literal.outline : Literal → Literal
  | .str s => .str s
  | _ => .nil

namespace Node

mutual

/-- A tree without its literals other than strings. -/
def outline : Node → Node
  | .branch kind children location => .branch kind (outlines children) location
  | .literal v => .literal v.outline

def outlines : List Node → List Node
  | [] => []
  | n :: ns => n.outline :: outlines ns

end

theorem outlines_eq (ns : List Node) : outlines ns = ns.map outline := by
  induction ns with
  | nil => rfl
  | cons n ns ih => rw [outlines, ih, List.map_cons]

@[simp] theorem kind?_outline (n : Node) : n.outline.kind? = n.kind? := by
  cases n <;> rfl

@[simp] theorem location?_outline (n : Node) : n.outline.location? = n.location? := by
  cases n <;> rfl

@[simp] theorem children_outline (n : Node) : n.outline.children = n.children.map outline := by
  cases n with
  | branch kind children location => exact outlines_eq children
  | literal v => rfl

theorem follow?_outline (n : Node) (path : List Nat) :
    n.outline.follow? path = (n.follow? path).map outline := by
  induction path generalizing n with
  | nil => rfl
  | cons i path ih =>
    rw [follow?_cons, follow?_cons, child?, children_outline, List.getElem?_map, child?]
    cases n.children[i]? with
    | none => rfl
    | some c => exact ih c

/-- A path leads to nodes of the same outline in trees of the same outline. -/
theorem follow?_of_outline {n n' m' : Node} (h : n'.outline = n.outline) {path : List Nat}
    (hm : n'.follow? path = some m') : ∃ m, n.follow? path = some m ∧ m.outline = m'.outline := by
  have hmap : (n.follow? path).map outline = some m'.outline := by
    rw [← follow?_outline, ← h, follow?_outline, hm, Option.map_some]
  exact Option.map_eq_some_iff.mp hmap

end Node

theorem Literal.outline_ofNumber (x : Json.Number) : (ofNumber x).outline = .nil := by
  cases x with
  | float => rfl
  | int n =>
    unfold ofNumber ofInt
    dsimp only
    split <;> rfl

theorem Literal.outline_of_number {x : Json.Number} {v : Literal}
    (h : reread.number x = .ok v) : v.outline = .nil := by
  unfold reread.number at h
  split at h
  · obtain ⟨y, -, rfl⟩ := Except.map_eq_ok.mp h
    exact outline_ofNumber y
  · cases h
    rfl

theorem Literal.outline_of_reread {v w : Literal} (h : v.reread = .ok w) :
    w.outline = v.outline := by
  cases v with
  | int n => exact outline_of_number (x := .int n.toInt) h
  | large n => exact outline_of_number (x := .int n.toNat) h
  | float x => exact outline_of_number (x := .float x) h
  | nil | bool | str =>
    cases h
    rfl

namespace Node

theorem outlines_of_rereadAll {ns ms : List Node}
    (h : ∀ n ∈ ns, ∀ {m}, n.reread = .ok m → m.outline = n.outline)
    (hms : rereadAll ns = .ok ms) : outlines ms = outlines ns := by
  induction ns generalizing ms with
  | nil =>
    cases hms
    rfl
  | cons n ns ih =>
    obtain ⟨m, hm, hms⟩ := Except.bind_eq_ok.mp hms
    obtain ⟨rest, hrest, rfl⟩ := Except.map_eq_ok.mp hms
    rw [outlines, outlines, h n List.mem_cons_self hm,
      ih (fun k hk => h k (List.mem_cons_of_mem n hk)) hrest]

theorem outline_of_reread {n m : Node} (h : n.reread = .ok m) : m.outline = n.outline := by
  induction n using Node.induction generalizing m with
  | literal v =>
    obtain ⟨w, hw, rfl⟩ := Except.map_eq_ok.mp h
    rw [outline, outline, Literal.outline_of_reread hw]
  | branch kind children location ih =>
    obtain ⟨ms, hms, rfl⟩ := Except.map_eq_ok.mp h
    rw [outline, outline, outlines_of_rereadAll ih hms]

end Node

/-! ## Rules -/

namespace LanguageRules

variable (r : LanguageRules)

@[simp] theorem roleOf?_outline (n : Node) : r.roleOf? n.outline = r.roleOf? n := by
  unfold roleOf?
  rw [Node.kind?_outline]

theorem nameAt?_outlines {ns : List Node} (h : ∀ n ∈ ns, r.nameFor? n.outline = r.nameFor? n)
    (i : Nat) : r.nameAt? (ns.map Node.outline) i = r.nameAt? ns i := by
  induction ns generalizing i with
  | nil => rfl
  | cons n ns ih =>
    cases i with
    | zero => exact h n List.mem_cons_self
    | succ i => exact ih (fun m hm => h m (List.mem_cons_of_mem n hm)) i

theorem nameFor?_outline (n : Node) : r.nameFor? n.outline = r.nameFor? n := by
  induction n using Node.induction with
  | literal v => cases v <;> rfl
  | branch kind children location ih =>
    rw [Node.outline, Node.outlines_eq, nameFor?, nameFor?]
    split
    · next i _ => exact nameAt?_outlines r ih i
    · rfl

@[simp] theorem nameOf?_outline (n : Node) (i : Nat) : r.nameOf? n.outline i = r.nameOf? n i := by
  unfold nameOf?
  rw [Node.children_outline]
  exact nameAt?_outlines r (fun c _ => nameFor?_outline r c) i

end LanguageRules

end CodeIndex
