import CodeIndex.Proofs.Tree.Preorder
import CodeIndex.Proofs.Tree.Steps

/-! # Sizes of trees that are read

Every node takes an event, every event a token and every token an octet, so a tree that is read has
at most as many nodes as its text has octets. The positions in its addresses are smaller than that.
-/

namespace CodeIndex

namespace Json

theorem length_tokensFrom (read : List Token) (s : Text.Octets) :
    (tokensFrom read s).length ≤ read.length + s.length := by
  fun_induction tokensFrom read s with
  | case1 read => simp
  | case2 read b rest hb ih =>
    rw [List.length_cons]
    omega
  | case3 read b rest hb t rest' h ih =>
    have hrest := scanToken_length b rest
    rw [h] at hrest
    simp only [List.length_cons] at ih hrest ⊢
    omega

theorem length_follow (read : List Event) (enclosing : List Bracket) (expected : Expected)
    (ts : List Token) :
    (EventStream.follow read enclosing expected ts).events.length ≤ read.length + ts.length := by
  induction ts generalizing read enclosing expected with
  | nil =>
    unfold EventStream.follow
    split <;> simp
  | cons t ts ih =>
    unfold EventStream.follow
    split
    · next e enclosing' expected' h =>
      have := ih (e :: read) enclosing' expected'
      simp only [List.length_cons] at this ⊢
      omega
    · next enclosing' expected' h =>
      have := ih read enclosing' expected'
      simp only [List.length_cons]
      omega
    · simp

theorem length_events (s : Text.Octets) : (events s).events.length ≤ s.length := by
  have hevents := length_follow [] [] .value (tokens s)
  have htokens := length_tokensFrom [] s
  simp only [List.length_nil, Nat.zero_add] at hevents htokens
  exact Nat.le_trans hevents htokens

end Json

namespace Node

namespace Build

/-- The nodes that have been read and the places that are open, counted together. -/
def weight (b : Build) : Nat :=
  (b.frames.map fun f => weights f.nodes + 1).sum + (b.result.map Node.weight).getD 0

theorem weight_push (f : Frame) (frames : List Frame) (result : Option Node) :
    weight ⟨f :: frames, result⟩ = weights f.nodes + 1 + weight ⟨frames, result⟩ := by
  simp only [weight, List.map_cons, List.sum_cons]
  omega

theorem weight_deliver {b b' : Build} {n : Node} (h : b.deliver n = .ok b') :
    b'.weight ≤ b.weight + n.weight := by
  obtain ⟨frames, result⟩ := b
  match frames with
  | [] =>
    cases h
    simp [weight]
  | .children nodes :: frames =>
    cases h
    simp only [weight_push, Frame.nodes, weights]
    omega
  | .branch .. :: _ | .bounds .. :: _ | .pair _ :: _ | .ignored :: _ => cases h

theorem weight_change {b b' : Build} (h : Change b b') : b'.weight ≤ b.weight + 1 := by
  cases h with
  | literal v hv h => exact weight_deliver h
  | opened b f hf =>
    have hb : weight ⟨b.frames, b.result⟩ = b.weight := rfl
    rw [weight_push, hf, hb, weights]
    omega
  | @branch frames result _ d next h =>
    have hdeliver := weight_deliver h
    rw [weight_push]
    have hnode : d.toNode.weight = weights (Frame.branch d next).nodes + 1 := rfl
    omega
  | children nodes d next frames result =>
    simp only [weight_push, Frame.nodes, Option.getD_some, weights_reverse]
    omega
  | closed f frames result hf =>
    rw [weight_push]
    omega
  | told f g g' frames result hf hg =>
    simp only [weight_push, hg]
    omega
  | kept f f' frames result hf =>
    simp only [weight_push, hf]
    omega

end Build

/-- A tree has at most as many nodes as its text has octets. -/
theorem weight_le_of_read {s : Text.Octets} {n : Node} (h : read s = .ok n) :
    n.weight ≤ s.length := by
  obtain ⟨built, hb, h⟩ := Except.bind_eq_ok.mp h
  have hbuilt : built.weight ≤ (Json.events s).events.length := by
    have := Except.foldlM_le Build.weight
      (fun _ _ _ hstep => Build.weight_change (Build.change_step hstep)) hb
    simpa [Build.weight] using this
  have hlength := Json.length_events s
  split at h
  · next hn =>
    cases h
    have hresult : n.weight ≤ built.weight := by
      rw [Build.weight, hn]
      simp
    omega
  · cases h
  · cases h
  · cases h
  · cases h

theorem lt_weights_of_getElem? {ns : List Node} {i : Nat} {n : Node} (h : ns[i]? = some n) :
    i + n.weight ≤ weights ns := by
  induction ns generalizing i with
  | nil => cases h
  | cons m ns ih =>
    cases i with
    | zero =>
      obtain rfl : m = n := by simpa using h
      rw [weights]
      omega
    | succ i =>
      have hrest := ih (by simpa using h)
      have hm := weight_eq m
      rw [weights]
      omega

/-- The positions on a path to a node are smaller than the number of nodes. -/
theorem lt_weight_of_follow? {n m : Node} {path : List Nat} (h : n.follow? path = some m) :
    ∀ i ∈ path, i < n.weight := by
  induction path generalizing n with
  | nil => nofun
  | cons i path ih =>
    obtain ⟨c, hc, h⟩ := Option.bind_eq_some_iff.mp h
    have hle : i + c.weight ≤ weights n.children := lt_weights_of_getElem? hc
    have hn := weight_eq n
    intro j hj
    rcases List.mem_cons.mp hj with rfl | hj
    · have hpos := weight_eq c
      omega
    · have := ih h j hj
      omega

end Node

end CodeIndex
