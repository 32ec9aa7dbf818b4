import CodeIndex.Proofs.Json.Compact
import CodeIndex.Proofs.Tree.Preorder
import CodeIndex.Tree.Json

/-! # Trees and their JSON values

A tree is what its JSON value stands for, whatever the order in which the fields of a branch are
kept, as long as a large integer is one that no signed one is equal to.
-/

namespace CodeIndex

open Json (Value)

/-! ## Literals of a tree -/

namespace Literal

def isFloat : Literal → Bool
  | .float _ => true
  | _ => false

def isCanonical : Literal → Bool
  | .large n => decide (Int64.maxValue.toInt < n.toNat)
  | _ => true

end Literal

namespace Node

mutual

def literals : Node → List Literal
  | .branch _ children _ => literalsOf children
  | .literal value => [value]

def literalsOf : List Node → List Literal
  | [] => []
  | n :: ns => n.literals ++ literalsOf ns

end

def FloatFree (n : Node) : Prop := ∀ v ∈ n.literals, v.isFloat = false

def Canonical (n : Node) : Prop := ∀ v ∈ n.literals, v.isCanonical = true

instance (n : Node) : Decidable n.FloatFree :=
  inferInstanceAs (Decidable (∀ v ∈ n.literals, v.isFloat = false))

instance (n : Node) : Decidable n.Canonical :=
  inferInstanceAs (Decidable (∀ v ∈ n.literals, v.isCanonical = true))

theorem mem_literalsOf {ns : List Node} {v : Literal} :
    v ∈ literalsOf ns ↔ ∃ n ∈ ns, v ∈ n.literals := by
  induction ns with
  | nil => simp [literalsOf]
  | cons n ns ih => simp [literalsOf, ih]

theorem forall_literals_branch {P : Literal → Prop} {kind : Option String} {children : List Node}
    {location : Option Span} :
    (∀ v ∈ (branch kind children location).literals, P v) ↔
      ∀ c ∈ children, ∀ v ∈ c.literals, P v := by
  simp only [literals, mem_literalsOf]
  exact ⟨fun h c hc v hv => h v ⟨c, hc, hv⟩, fun h v ⟨c, hc, hv⟩ => h c hc v hv⟩

theorem floatFree_branch {kind : Option String} {children : List Node} {location : Option Span} :
    (branch kind children location).FloatFree ↔ ∀ c ∈ children, c.FloatFree :=
  forall_literals_branch

theorem canonical_branch {kind : Option String} {children : List Node} {location : Option Span} :
    (branch kind children location).Canonical ↔ ∀ c ∈ children, c.Canonical :=
  forall_literals_branch

/-- The literals of a part of a tree are literals of the tree. -/
theorem mem_literals_of_follow? {root n : Node} {path : List Nat} (h : root.follow? path = some n)
    {v : Literal} (hv : v ∈ n.literals) : v ∈ root.literals := by
  induction path generalizing root with
  | nil => exact Option.some.inj h ▸ hv
  | cons i path ih =>
    obtain ⟨c, hc, hn⟩ := Option.bind_eq_some_iff.mp h
    cases root with
    | literal => cases hc
    | branch => exact mem_literalsOf.mpr ⟨c, List.mem_of_getElem? hc, ih hn⟩

end Node

theorem Literal.ofInt_toInt (n : Int64) : ofInt n.toInt = .int n := by
  rw [ofInt, if_pos n.toInt_le, Int64.ofInt_toInt]

theorem Literal.ofInt_toNat {n : UInt64} (h : (Literal.large n).isCanonical = true) :
    ofInt n.toNat = .large n := by
  rw [ofInt, if_neg (Int.not_le.mpr (of_decide_eq_true h)), Int.toNat_natCast, UInt64.ofNat_toNat]

/-! ## JSON values -/

theorem word_range (w : UInt32) : 0 ≤ (w.toNat : Int) ∧ (w.toNat : Int) < UInt32.size :=
  ⟨Int.natCast_nonneg _, Int.ofNat_lt.mpr w.toNat_lt_size⟩

theorem word?_nat (w : UInt32) : (Value.nat w.toNat).word? = some w := by
  have h : (Value.nat w.toNat).natBelow? UInt32.size = some w.toNat := if_pos w.toNat_lt
  rw [Value.word?, h, Option.map_some, UInt32.ofNat_toNat]

theorem Span.ofJson?_toJson (s : Span) : ofJson? s.toJson = some s := by
  simp [toJson, ofJson?, List.lookup_cons, word?_nat]

theorem Span.ofJson?_sorted (s : Span) : ofJson? s.toJson.sorted = some s := by
  have hs : s.toJson.sorted =
      .object [("end_line", .nat s.stop.toNat), ("start_line", .nat s.start.toNat)] := rfl
  simp [hs, ofJson?, List.lookup_cons, word?_nat]

namespace Node

theorem toJsons_eq (ns : List Node) : toJsons ns = ns.map toJson := by
  induction ns with
  | nil => rfl
  | cons n ns ih => rw [toJsons, ih, List.map_cons]

theorem sortedItems_toJsons (ns : List Node) :
    Value.sortedItems (toJsons ns) = ns.map fun n => n.toJson.sorted := by
  induction ns with
  | nil => rfl
  | cons n ns ih => rw [toJsons, Value.sortedItems, ih, List.map_cons]

theorem ofJsons?_map {f : Node → Value} {ns : List Node} (h : ∀ n ∈ ns, ofJson? (f n) = some n) :
    ofJsons? (ns.map f) = some ns := by
  induction ns with
  | nil => rfl
  | cons n ns ih =>
    have hn := h n List.mem_cons_self
    have hns := ih fun m hm => h m (List.mem_cons_of_mem _ hm)
    simp [ofJsons?, hn, hns]

theorem ofJson?_object {fields : List (String × Value)} {kind : Option String}
    {children : List Node} {location : Option Span} (hc : childrenOfJson? fields = some children)
    (hk : kindOfJson? (fields.lookup "kind") = some kind)
    (hl : locationOfJson? (fields.lookup "location") = some location) :
    ofJson? (.object fields) = some (.branch kind children location) := by
  simp [ofJson?, hc, hk, hl]

theorem locationOfJson?_object {fields : List (String × Value)} {s : Span}
    (h : Span.ofJson? (.object fields) = some s) :
    locationOfJson? (some (.object fields)) = some (some s) := by
  rw [locationOfJson?, Value.optional?, h, Option.map_some]
  nofun

theorem ofJson?_literal {value : Literal} (h : (literal value).Canonical) :
    ofJson? value.toJson = some (.literal value) := by
  cases value with
  | int n => exact congrArg (fun v => some (Node.literal v)) (Literal.ofInt_toInt n)
  | large n =>
    exact congrArg (fun v => some (Node.literal v)) (Literal.ofInt_toNat (h _ List.mem_cons_self))
  | _ => rfl

theorem ofJson?_toJson {n : Node} (h : n.Canonical) : ofJson? n.toJson = some n := by
  induction n using Node.induction with
  | literal value => exact ofJson?_literal h
  | branch kind children location ih =>
    have hc : ofJsons? (toJsons children) = some children :=
      toJsons_eq children ▸ ofJsons?_map fun c hc => ih c hc (canonical_branch.mp h c hc)
    have hl : ∀ s : Span, locationOfJson? (some s.toJson) = some (some s) :=
      fun s => locationOfJson?_object s.ofJson?_toJson
    cases location with
    | none => cases kind <;> exact ofJson?_object hc rfl rfl
    | some s => cases kind <;> exact ofJson?_object hc rfl (hl s)

/-- The order of the fields of a value makes no difference to the tree that it stands for. -/
theorem ofJson?_sorted {n : Node} (h : n.Canonical) : ofJson? n.toJson.sorted = some n := by
  induction n using Node.induction with
  | literal value =>
    have hs : value.toJson.sorted = value.toJson := by
      cases value <;> rfl
    rw [toJson, hs]
    exact ofJson?_literal h
  | branch kind children location ih =>
    have hc : ofJsons? (Value.sortedItems (toJsons children)) = some children :=
      sortedItems_toJsons children ▸ ofJsons?_map fun c hc => ih c hc (canonical_branch.mp h c hc)
    have hl : ∀ s : Span, locationOfJson? (some s.toJson.sorted) = some (some s) :=
      fun s => locationOfJson?_object s.ofJson?_sorted
    have hs : (branch kind children location).toJson.sorted =
        .object (("children", .array (Value.sortedItems (toJsons children))) ::
          ((kind.toList.map fun k => ("kind", .string k))
            ++ location.toList.map fun s => ("location", s.toJson.sorted))) := by
      cases kind <;> cases location <;> rfl
    rw [hs]
    cases location with
    | none => cases kind <;> exact ofJson?_object hc rfl rfl
    | some s => cases kind <;> exact ofJson?_object hc rfl (hl s)

end Node

end CodeIndex
