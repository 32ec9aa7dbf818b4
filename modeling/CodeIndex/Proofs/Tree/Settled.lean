import CodeIndex.Proofs.Tree.RoundTrip

/-! # Settled trees

The text of a tree does not tell a large integer from a signed one that is equal to it, so reading
the text settles which of them it is. A settled tree has the text of the tree that it was made of,
and nothing else about it changes.
-/

namespace CodeIndex

/-- The literal, with an integer kept as a signed one wherever it can be. -/
def Literal.settled : Literal → Literal
  | .large n => ofInt n.toNat
  | v => v

theorem Literal.toJson_settled (v : Literal) : v.settled.toJson = v.toJson := by
  cases v with
  | large n =>
    have hn := n.toNat_lt
    have hmax : Int64.maxValue.toInt = 2 ^ 63 - 1 := rfl
    rw [settled, ofInt]
    by_cases h : (n.toNat : Int) ≤ Int64.maxValue.toInt
    · rw [if_pos h, toJson, Int64.toInt_ofInt_of_le (by omega) (by omega)]
      rfl
    · rw [if_neg h, toJson, Int.toNat_natCast, UInt64.ofNat_toNat]
      rfl
  | _ => rfl

theorem Literal.isCanonical_settled (v : Literal) : v.settled.isCanonical = true := by
  cases v with
  | large n =>
    rw [settled, ofInt]
    by_cases h : (n.toNat : Int) ≤ Int64.maxValue.toInt
    · simp [if_pos h, isCanonical]
    · simpa [if_neg h, isCanonical] using h
  | _ => rfl

theorem Literal.isFloat_settled (v : Literal) : v.settled.isFloat = v.isFloat := by
  cases v with
  | large n =>
    rw [settled, ofInt]
    split <;> rfl
  | _ => rfl

namespace Node

mutual

def settled : Node → Node
  | .branch kind children location => .branch kind (settledAll children) location
  | .literal v => .literal v.settled

def settledAll : List Node → List Node
  | [] => []
  | n :: ns => n.settled :: settledAll ns

end

theorem settledAll_eq (ns : List Node) : settledAll ns = ns.map settled := by
  induction ns with
  | nil => rfl
  | cons n ns ih => rw [settledAll, ih, List.map_cons]

theorem literals_settled (n : Node) : n.settled.literals = n.literals.map Literal.settled := by
  induction n using Node.induction with
  | literal v => rfl
  | branch kind children location ih =>
    rw [settled, literals, literals, settledAll_eq]
    induction children with
    | nil => rfl
    | cons c cs ihs =>
      rw [List.map_cons, literalsOf, literalsOf, List.map_append, ih c List.mem_cons_self,
        ihs fun d hd => ih d (List.mem_cons_of_mem c hd)]

theorem toJson_settled (n : Node) : n.settled.toJson = n.toJson := by
  induction n using Node.induction with
  | literal v => exact v.toJson_settled
  | branch kind children location ih =>
    have hchildren : toJsons (children.map settled) = toJsons children := by
      rw [toJsons_eq, toJsons_eq, List.map_map]
      exact List.map_congr_left ih
    rw [settled, toJson, toJson, settledAll_eq, hchildren]

theorem compact_settled (n : Node) : n.settled.compact = n.compact := by
  rw [compact, compact, toJson_settled]

theorem canonical_settled (n : Node) : n.settled.Canonical := by
  intro v hv
  rw [literals_settled] at hv
  rcases List.mem_map.mp hv with ⟨w, -, rfl⟩
  exact w.isCanonical_settled

theorem floatFree_settled {n : Node} (h : n.FloatFree) : n.settled.FloatFree := by
  intro v hv
  rw [literals_settled] at hv
  rcases List.mem_map.mp hv with ⟨w, hw, rfl⟩
  rw [w.isFloat_settled]
  exact h w hw

end Node

end CodeIndex
