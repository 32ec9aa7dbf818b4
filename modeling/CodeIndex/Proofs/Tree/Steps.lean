import CodeIndex.Proofs.Except
import CodeIndex.Proofs.Json.Integer
import CodeIndex.Proofs.Tree.Value
import CodeIndex.Tree.Reader

/-! # Steps of reading

While a tree is read, every place that is still open has taken some nodes. A step puts a literal
into the innermost place, opens a place without nodes, or closes one: what a branch has taken becomes
the children of a node that goes one place further out, and the children in an array are handed to
the branch around it. Whatever else a step does leaves the nodes where they are.
-/

namespace CodeIndex

open Json (Event readNumber)

theorem Literal.isCanonical_ofNumber {m : Json.Numeral} {x : Json.Number}
    (h : readNumber m = .ok x) : (ofNumber x).isCanonical = true := by
  cases x with
  | float => rfl
  | int n =>
    have hn := Json.int_range_of_readNumber h
    simp only [ofNumber, ofInt]
    split
    · rfl
    · next hmax =>
      have hmax : 2 ^ 63 - 1 < n := Int.not_le.mp hmax
      have hsize : UInt64.size = 2 ^ 64 := rfl
      have hw : (UInt64.ofNat n.toNat).toNat = n.toNat :=
        UInt64.toNat_ofNat_of_lt' (by omega)
      simp only [isCanonical, hw, decide_eq_true_eq]
      change 2 ^ 63 - 1 < (n.toNat : Int)
      omega

namespace Node

def Frame.nodes : Frame → List Node
  | .branch d _ => d.children.getD []
  | .children nodes => nodes
  | _ => []

namespace Build

/-- What a step can do to the open places and the nodes that they have taken. -/
inductive Change : Build → Build → Prop where
  /-- A literal is put where it belongs. -/
  | literal {b b' : Build} (v : Literal) (hv : v.isCanonical = true)
      (h : b.deliver (.literal v) = .ok b') : Change b b'
  | opened (b : Build) (f : Frame) (hf : f.nodes = []) : Change b ⟨f :: b.frames, b.result⟩
  /-- A branch is put where it belongs. -/
  | branch {frames : List Frame} {result : Option Node} {b' : Build} (d : Draft)
      (next : Option Field) (h : deliver ⟨frames, result⟩ d.toNode = .ok b') :
      Change ⟨.branch d next :: frames, result⟩ b'
  /-- The children of a branch are complete. -/
  | children (nodes : List Node) (d : Draft) (next : Option Field) (frames : List Frame)
      (result : Option Node) :
      Change ⟨.children nodes :: .branch d next :: frames, result⟩
        ⟨.branch { d with children := some nodes.reverse } none :: frames, result⟩
  /-- A place that takes no nodes is closed. -/
  | closed (f : Frame) (frames : List Frame) (result : Option Node) (hf : f.nodes = []) :
      Change ⟨f :: frames, result⟩ ⟨frames, result⟩
  /-- A place that takes no nodes is closed, and the one around it is told. -/
  | told (f g g' : Frame) (frames : List Frame) (result : Option Node) (hf : f.nodes = [])
      (hg : g'.nodes = g.nodes) : Change ⟨f :: g :: frames, result⟩ ⟨g' :: frames, result⟩
  | kept (f f' : Frame) (frames : List Frame) (result : Option Node) (hf : f'.nodes = f.nodes) :
      Change ⟨f :: frames, result⟩ ⟨f' :: frames, result⟩

/-- A scalar of a wrong type is refused, whatever it spells. -/
theorem refuseScalar_ne_ok {b : Build} (e : Event) : refuseScalar e ≠ .ok b := by
  intro h
  cases e with
  | number m =>
    obtain ⟨x, -, h⟩ := Except.bind_eq_ok.mp h
    cases h
  | string raw =>
    obtain ⟨s, -, h⟩ := Except.bind_eq_ok.mp h
    cases h
  | _ => cases h

theorem change_stepNode {b b' : Build} {e : Event} (h : b.stepNode e = .ok b') :
    Change b b' := by
  cases e with
  | null => exact .literal .nil rfl h
  | bool x => exact .literal (.bool x) rfl h
  | number m =>
    obtain ⟨x, hx, h⟩ := Except.bind_eq_ok.mp h
    exact .literal _ (Literal.isCanonical_ofNumber hx) h
  | string raw =>
    obtain ⟨s, -, h⟩ := Except.bind_eq_ok.mp h
    exact .literal (.str s) rfl h
  | openObject =>
    cases h
    exact .opened b _ rfl
  | openArray | closeArray | closeObject | key | comma => cases h

variable {frames : List Frame} {result : Option Node}

theorem change_deliverSpan {f : Frame} (hf : f.nodes = []) {b' : Build} {s : Span}
    (h : deliverSpan ⟨frames, result⟩ s = .ok b') : Change ⟨f :: frames, result⟩ b' := by
  match frames with
  | .branch d next :: frames =>
    cases h
    exact .told f _ _ frames result hf rfl
  | [] | .children _ :: _ | .bounds .. :: _ | .pair _ :: _ | .ignored :: _ => cases h

theorem change_stepField {d : Draft} {next : Option Field} {b' : Build} {field : Field}
    {e : Event} (h : stepField ⟨.branch d next :: frames, result⟩ d frames field e = .ok b') :
    Change ⟨.branch d next :: frames, result⟩ b' := by
  unfold stepField at h
  split at h
  case h_1 | h_4 => cases h; exact .kept _ _ frames result rfl
  case h_2 =>
    obtain ⟨s, -, h⟩ := Except.bind_eq_ok.mp h
    cases h
    exact .kept _ _ frames result rfl
  case h_3 | h_5 | h_6 | h_7 | h_8 => cases h; exact .opened _ _ rfl
  case h_9 => cases h; exact .kept _ _ frames result rfl
  case h_10 => exact absurd h (refuseScalar_ne_ok _)

theorem change_stepBound {start stop : Option UInt32} {next : Option Bound} {b' : Build}
    {bound : Bound} {e : Event}
    (h : stepBound ⟨.bounds start stop next :: frames, result⟩ start stop frames bound e = .ok b') :
    Change ⟨.bounds start stop next :: frames, result⟩ b' := by
  unfold stepBound at h
  split at h
  case h_1 | h_2 =>
    obtain ⟨line, -, h⟩ := Except.bind_eq_ok.mp h
    cases h
    exact .kept _ _ frames result rfl
  case h_3 | h_4 => cases h; exact .opened _ _ rfl
  case h_5 => cases h; exact .kept _ _ frames result rfl
  case h_6 => exact absurd h (refuseScalar_ne_ok _)

/-- Every step is one of these changes. -/
theorem change_step {b b' : Build} {e : Event} (h : b.step e = .ok b') : Change b b' := by
  obtain ⟨frames, result⟩ := b
  match frames with
  | [] => exact change_stepNode h
  | .children nodes :: frames =>
    simp only [step] at h
    split at h
    · cases h
      exact .kept _ _ frames result rfl
    · cases h
      exact .children ..
    · exact change_stepNode h
  | .branch d next :: frames =>
    simp only [step] at h
    split at h
    · cases h
      exact .kept _ _ frames result rfl
    · exact .branch d next h
    · obtain ⟨name, -, h⟩ := Except.bind_eq_ok.mp h
      split at h
      · cases h
      · cases h
        exact .kept _ _ frames result rfl
    · exact change_stepField h
    · cases h
  | .bounds start stop next :: frames =>
    simp only [step] at h
    split at h
    · cases h
      exact .kept _ _ frames result rfl
    · split at h
      · exact change_deliverSpan rfl h
      · cases h
    · obtain ⟨name, -, h⟩ := Except.bind_eq_ok.mp h
      split at h
      · cases h
      · cases h
      · cases h
        exact .kept _ _ frames result rfl
    · exact change_stepBound h
    · cases h
  | .pair bounds :: frames =>
    simp only [step] at h
    split at h
    · cases h
    · cases h
      exact .kept _ _ frames result rfl
    · exact change_deliverSpan rfl h
    · obtain ⟨line, -, h⟩ := Except.bind_eq_ok.mp h
      cases h
      exact .kept _ _ frames result rfl
    · exact absurd h (refuseScalar_ne_ok _)
  | .ignored :: frames =>
    cases e with
    | openArray | openObject => cases h; exact .opened _ _ rfl
    | closeArray | closeObject => cases h; exact .closed _ frames result rfl
    | _ => cases h; exact .kept _ _ frames result rfl

end Build

end Node

end CodeIndex
