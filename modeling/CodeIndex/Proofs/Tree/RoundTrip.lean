import CodeIndex.Proofs.Tree.Steps

/-! # Trees and their texts

The events of a written tree put back one node after the other: whatever waits for a node gets the
one that was written, but for floats, which are read as their texts say. Reading makes large
integers only of those that are beyond the signed ones, so what it gives is always such a tree as it
can read again, if it has no floats.
-/

namespace CodeIndex

open Json (Value Event Problem escaped numeralOf readString readNumber readString_escaped
  readNumber_numeralOf)

/-! ## Trees that are read again -/

/-- The literal that is read where this one is written. A float that is not finite leaves nothing
of itself, and others need not be read exactly. -/
def Literal.reread : Literal → Except Problem Literal
  | .int n => number (.int n.toInt)
  | .large n => number (.int n.toNat)
  | .float x => number (.float x)
  | v => .ok v
where
  number (x : Json.Number) : Except Problem Literal :=
    match x.numeral? with
    | some n => (readNumber n).map ofNumber
    | none => .ok .nil

namespace Node

mutual

def reread : Node → Except Problem Node
  | .branch kind children location =>
    (rereadAll children).map fun children => .branch kind children location
  | .literal v => v.reread.map .literal

def rereadAll : List Node → Except Problem (List Node)
  | [] => .ok []
  | n :: ns => n.reread.bind fun m => (rereadAll ns).map (m :: ·)

end

theorem rereadAll_eq (ns : List Node) : rereadAll ns = ns.mapM reread := by
  induction ns with
  | nil => rfl
  | cons n ns ih =>
    rw [rereadAll, ih, List.mapM_cons]
    cases n.reread with
    | error p => rfl
    | ok m => cases ns.mapM reread <;> rfl

end Node

theorem Literal.reread_of_canonical {v : Literal} (hf : v.isFloat = false)
    (hc : v.isCanonical = true) : v.reread = .ok v := by
  have hnumber : ∀ i : Int, -2 ^ 63 ≤ i → i < 2 ^ 64 → reread.number (.int i) = .ok (ofInt i) := by
    intro i hl hu
    change (readNumber (numeralOf i)).map ofNumber = _
    rw [readNumber_numeralOf hl hu]
    rfl
  cases v with
  | int n =>
    have hl := n.le_toInt
    have hu := n.toInt_lt
    rw [reread, hnumber _ (by omega) (by omega), ofInt_toInt]
  | large n =>
    have hu := n.toNat_lt
    rw [reread, hnumber _ (by omega) (by omega), ofInt_toNat hc]
  | float => cases hf
  | nil | bool | str => rfl

theorem Node.reread_of_canonical {n : Node} (hf : n.FloatFree) (hc : n.Canonical) :
    n.reread = .ok n := by
  induction n using Node.induction with
  | literal v =>
    rw [reread, Literal.reread_of_canonical (hf v List.mem_cons_self) (hc v List.mem_cons_self)]
    rfl
  | branch kind children location ih =>
    have hchildren : ∀ c ∈ children, c.reread = .ok c := fun c hm =>
      ih c hm (floatFree_branch.mp hf c hm) (canonical_branch.mp hc c hm)
    rw [reread, rereadAll_eq, Except.mapM_eq_ok hchildren]
    rfl

/-! ## Events -/

namespace Node.Build

theorem foldlM_step_cons {b b' : Build} {e : Event} (h : b.step e = .ok b') (es : List Event) :
    (e :: es).foldlM step b = es.foldlM step b' := by
  rw [List.foldlM_cons, h]
  rfl

def Waiting (b : Build) : Prop := ∀ n, ∃ b', b.deliver n = .ok b'

def asksForNode : Event → Bool
  | .comma | .closeArray => false
  | _ => true

theorem step_eq_stepNode {b : Build} (hb : b.Waiting) {e : Event} (he : asksForNode e = true) :
    b.step e = b.stepNode e := by
  obtain ⟨frames, result⟩ := b
  obtain ⟨b', h⟩ := hb (.literal .nil)
  match frames with
  | [] => rfl
  | .children nodes :: frames =>
    cases e with
    | comma | closeArray => cases he
    | _ => rfl
  | .branch .. :: _ | .bounds .. :: _ | .pair _ :: _ | .ignored :: _ => cases h

variable {frames : List Frame} {result : Option Node}

theorem step_key {d : Draft} {next : Option Field} {name : String}
    (h : d.has (Field.ofName name) = false) :
    step ⟨.branch d next :: frames, result⟩ (.key (escaped name)) =
      .ok ⟨.branch d (some (Field.ofName name)) :: frames, result⟩ := by
  simp only [step, readString_escaped]
  change (if d.has (Field.ofName name) then _ else _) = _
  rw [h]
  rfl

theorem step_kind {d : Draft} (kind : String) :
    step ⟨.branch d (some .kind) :: frames, result⟩ (.string (escaped kind)) =
      .ok ⟨.branch { d with kind := some (some kind) } none :: frames, result⟩ := by
  simp only [step, stepField, readString_escaped]
  rfl

theorem lineOfNumeral_numeralOf (w : UInt32) : lineOfNumeral (numeralOf w.toNat) = .ok w := by
  have hr : readNumber (numeralOf w.toNat) = .ok (.int w.toNat) := by
    have hw := w.toNat_lt
    exact readNumber_numeralOf (by omega) (by omega)
  simp only [lineOfNumeral, hr, bind, Except.bind, if_pos (word_range w), Int.toNat_natCast,
    UInt32.ofNat_toNat, pure, Except.pure]

theorem foldlM_span (d : Draft) (s : Span) (es : List Event) :
    (s.toJson.events ++ es).foldlM step ⟨.branch d (some .location) :: frames, result⟩ =
      es.foldlM step ⟨.branch { d with location := some (some s) } none :: frames, result⟩ := by
  let open₀ := Frame.branch d (some .location) :: frames
  have hs : s.toJson.events = [.openObject, .key (escaped "start_line"),
      .number (numeralOf s.start.toNat), .comma, .key (escaped "end_line"),
      .number (numeralOf s.stop.toNat), .closeObject] := rfl
  have hk : step ⟨.bounds none none none :: open₀, result⟩ (.key (escaped "start_line")) =
      .ok ⟨.bounds none none (some .start) :: open₀, result⟩ := by
    simp only [step, readString_escaped]
    rfl
  have hn : step ⟨.bounds none none (some .start) :: open₀, result⟩
      (.number (numeralOf s.start.toNat)) =
      .ok ⟨.bounds (some s.start) none none :: open₀, result⟩ := by
    simp only [step, stepBound, lineOfNumeral_numeralOf]
    rfl
  have hk' : step ⟨.bounds (some s.start) none none :: open₀, result⟩ (.key (escaped "end_line")) =
      .ok ⟨.bounds (some s.start) none (some .stop) :: open₀, result⟩ := by
    simp only [step, readString_escaped]
    rfl
  have hn' : step ⟨.bounds (some s.start) none (some .stop) :: open₀, result⟩
      (.number (numeralOf s.stop.toNat)) =
      .ok ⟨.bounds (some s.start) (some s.stop) none :: open₀, result⟩ := by
    simp only [step, stepBound, lineOfNumeral_numeralOf]
    rfl
  rw [hs, List.cons_append, foldlM_step_cons rfl, List.cons_append, foldlM_step_cons hk,
    List.cons_append, foldlM_step_cons hn, List.cons_append, foldlM_step_cons rfl,
    List.cons_append, foldlM_step_cons hk', List.cons_append, foldlM_step_cons hn',
    List.cons_append, foldlM_step_cons rfl, List.nil_append]

/-- The fields behind the children are read and the branch is delivered. -/
theorem foldlM_location {d : Draft} (next : Option Field) {location : Option Span}
    (hd : d.location = none) (es : List Event) :
    (Value.fieldEvents (location.toList.map fun s => ("location", s.toJson)) ++ es).foldlM step
      ⟨.branch d next :: frames, result⟩ =
      (deliver ⟨frames, result⟩ (Draft.toNode { d with location := location.map some })).bind
        (es.foldlM step) := by
  obtain ⟨kind, children, _⟩ := d
  obtain rfl := hd
  cases location with
  | none => rfl
  | some s =>
    have hk : step ⟨.branch ⟨kind, children, none⟩ none :: frames, result⟩
        (.key (escaped "location")) =
        .ok ⟨.branch ⟨kind, children, none⟩ (some .location) :: frames, result⟩ := step_key rfl
    rw [Option.toList_some, List.map_singleton, Value.fieldEvents, List.cons_append,
      foldlM_step_cons rfl, List.cons_append, foldlM_step_cons hk, List.append_assoc, foldlM_span]
    rfl

/-- Whether the events of a written node deliver what is read for it, wherever a node is waited
for. -/
def PutsBack (n : Node) : Prop :=
  ∀ b : Build, b.Waiting → ∀ es, (n.toJson.events ++ es).foldlM step b =
    n.reread.bind fun m => (b.deliver m).bind (es.foldlM step)

theorem waiting_children (nodes : List Node) (frames : List Frame) (result : Option Node) :
    Waiting ⟨.children nodes :: frames, result⟩ := fun _ => ⟨_, rfl⟩

theorem foldlM_itemEvents {ns : List Node} (h : ∀ n ∈ ns, PutsBack n) (read : List Node) (d : Draft)
    (next : Option Field) (es : List Event) :
    (Value.itemEvents (toJsons ns) ++ es).foldlM step
      ⟨.children read :: .branch d next :: frames, result⟩ =
      (rereadAll ns).bind fun ms => es.foldlM step
        ⟨.branch { d with children := some (read.reverse ++ ms) } none :: frames, result⟩ := by
  induction ns generalizing read with
  | nil =>
    rw [toJsons, Value.itemEvents, List.singleton_append, foldlM_step_cons rfl, rereadAll,
      Except.bind, List.append_nil]
  | cons n ns ih =>
    rw [toJsons, Value.itemEvents, List.cons_append, foldlM_step_cons rfl, List.append_assoc,
      h n List.mem_cons_self _ (waiting_children _ _ _), rereadAll]
    cases n.reread with
    | error p => rfl
    | ok m =>
      refine (ih (fun k hk => h k (List.mem_cons_of_mem n hk)) (m :: read)).trans ?_
      cases rereadAll ns with
      | error p => rfl
      | ok ms => simp [Except.bind, Except.map]

theorem foldlM_children {ns : List Node} (h : ∀ n ∈ ns, PutsBack n) (d : Draft) (es : List Event) :
    ((Value.array (toJsons ns)).events ++ es).foldlM step
      ⟨.branch d (some .children) :: frames, result⟩ =
      (rereadAll ns).bind fun ms =>
        es.foldlM step ⟨.branch { d with children := some ms } none :: frames, result⟩ := by
  cases ns with
  | nil =>
    rw [toJsons, Value.events, List.cons_append, foldlM_step_cons rfl, List.singleton_append,
      foldlM_step_cons rfl]
    rfl
  | cons n ns =>
    rw [toJsons, Value.events, List.cons_append, foldlM_step_cons rfl, List.append_assoc,
      h n List.mem_cons_self _ (waiting_children _ _ _), rereadAll]
    cases n.reread with
    | error p => rfl
    | ok m =>
      refine (foldlM_itemEvents (fun k hk => h k (List.mem_cons_of_mem n hk)) [m] d _ es).trans ?_
      cases rereadAll ns <;> rfl

/-- The children are read, and the branch is delivered with what is known of it. -/
theorem foldlM_fields {ns : List Node} {d : Draft} {location : Option Span}
    (hns : ∀ n ∈ ns, PutsBack n) (hc : d.children = none) (hl : d.location = none)
    (es : List Event) :
    (.key (escaped "children") :: ((Value.array (toJsons ns)).events ++
      Value.fieldEvents (location.toList.map fun s => ("location", s.toJson))) ++ es).foldlM step
      ⟨.branch d none :: frames, result⟩ =
      (rereadAll ns).bind fun ms =>
        (deliver ⟨frames, result⟩ (.branch d.kind.join ms location)).bind (es.foldlM step) := by
  have hk : step ⟨.branch d none :: frames, result⟩ (.key (escaped "children")) =
      .ok ⟨.branch d (some .children) :: frames, result⟩ :=
    step_key (by rw [Draft.has.eq_def]; simp [Field.ofName, hc])
  rw [List.cons_append, foldlM_step_cons hk, List.append_assoc, foldlM_children hns]
  refine congrArg (rereadAll ns).bind (funext fun ms => ?_)
  have hd : Draft.toNode { d with children := some ms, location := location.map some } =
      .branch d.kind.join ms location := by
    cases location <;> rfl
  rw [foldlM_location (d := { d with children := some ms }) none hl es, hd]

theorem step_literal {b : Build} (hb : b.Waiting) {e : Event} (he : asksForNode e = true)
    {v : Except Problem Literal} (h : b.stepNode e = v.bind fun v => b.deliver (.literal v))
    (es : List Event) :
    (e :: es).foldlM step b =
      (v.map .literal).bind fun m => (b.deliver m).bind (es.foldlM step) := by
  rw [List.foldlM_cons, step_eq_stepNode hb he, h]
  cases v <;> rfl

theorem foldlM_number {b : Build} (hb : b.Waiting) (x : Json.Number) (es : List Event) :
    (x.event :: es).foldlM step b =
      ((Literal.reread.number x).map .literal).bind fun m =>
        (b.deliver m).bind (es.foldlM step) := by
  unfold Json.Number.event Literal.reread.number
  cases x.numeral? with
  | none => exact step_literal hb rfl rfl es
  | some n =>
    refine step_literal hb rfl ?_ es
    rw [stepNode]
    dsimp only
    cases readNumber n <;> rfl

theorem putsBack_literal (v : Literal) : PutsBack (.literal v) := by
  intro b hb es
  cases v with
  | nil => exact step_literal hb rfl (v := .ok .nil) rfl es
  | bool x => exact step_literal hb rfl (v := .ok (.bool x)) rfl es
  | int n => exact foldlM_number hb (.int n.toInt) es
  | large n => exact foldlM_number hb (.int n.toNat) es
  | float x => exact foldlM_number hb (.float x) es
  | str s =>
    refine step_literal hb (e := .string (escaped s)) (v := .ok (.str s)) rfl ?_ es
    rw [stepNode, readString_escaped]
    rfl

theorem putsBack (n : Node) : PutsBack n := by
  induction n using Node.induction with
  | literal value => exact putsBack_literal value
  | branch kind children location ih =>
    intro b hb es
    -- an object is opened, its fields come as they are written, and its end delivers the branch
    have ho : b.step .openObject = .ok { b with frames := .branch {} none :: b.frames } :=
      step_eq_stepNode hb rfl
    cases kind with
    | none =>
      have he : (branch none children location).toJson.events =
          .openObject :: .key (escaped "children") :: ((Value.array (toJsons children)).events ++
            Value.fieldEvents (location.toList.map fun s => ("location", s.toJson))) := rfl
      rw [he, List.cons_append, foldlM_step_cons ho]
      refine (foldlM_fields ih rfl rfl es).trans ?_
      rw [reread]
      cases rereadAll children <;> rfl
    | some k =>
      have he : (branch (some k) children location).toJson.events =
          .openObject :: .key (escaped "kind") :: .string (escaped k) :: .comma ::
            .key (escaped "children") :: ((Value.array (toJsons children)).events ++
              Value.fieldEvents (location.toList.map fun s => ("location", s.toJson))) := rfl
      have hk : step ⟨.branch {} none :: b.frames, b.result⟩ (.key (escaped "kind")) =
          .ok ⟨.branch {} (some .kind) :: b.frames, b.result⟩ := step_key rfl
      rw [he, List.cons_append, foldlM_step_cons ho, List.cons_append, foldlM_step_cons hk,
        List.cons_append, foldlM_step_cons (step_kind k), List.cons_append, foldlM_step_cons rfl]
      refine (foldlM_fields (d := { kind := some (some k) }) ih rfl rfl es).trans ?_
      rw [reread]
      cases rereadAll children <;> rfl

end Node.Build

/-- A text that was written is read as `reread` says. -/
theorem Node.read_eq_reread (n : Node) : read (Text.octets n.compact) = n.reread := by
  have hstart : Build.Waiting {} := fun _ => ⟨_, rfl⟩
  have h := Build.putsBack n {} hstart []
  rw [List.append_nil] at h
  simp only [read, compact, Json.events_compact, h]
  cases n.reread <;> rfl

theorem Node.read_compact {n : Node} (hf : n.FloatFree) (hc : n.Canonical) :
    read (Text.octets n.compact) = .ok n := by
  rw [read_eq_reread, reread_of_canonical hf hc]

/-! ## Trees that are read -/

namespace Node

namespace Build

/-- Whether all nodes that have been read can be read again. -/
def Canonical (b : Build) : Prop :=
  (∀ f ∈ b.frames, ∀ n ∈ f.nodes, n.Canonical) ∧ ∀ n ∈ b.result, n.Canonical

theorem canonical_push {f : Frame} {frames : List Frame} {result : Option Node} :
    Canonical ⟨f :: frames, result⟩ ↔
      (∀ n ∈ f.nodes, n.Canonical) ∧ Canonical ⟨frames, result⟩ := by
  simp only [Canonical, List.forall_mem_cons, and_assoc]

theorem canonical_deliver {b b' : Build} {n : Node} (hb : b.Canonical) (hn : n.Canonical)
    (h : b.deliver n = .ok b') : b'.Canonical := by
  obtain ⟨frames, result⟩ := b
  match frames with
  | [] =>
    cases h
    exact ⟨hb.1, fun m hm => Option.some.inj hm ▸ hn⟩
  | .children nodes :: frames =>
    cases h
    rw [canonical_push] at hb ⊢
    exact ⟨List.forall_mem_cons.mpr ⟨hn, hb.1⟩, hb.2⟩
  | .branch .. :: _ | .bounds .. :: _ | .pair _ :: _ | .ignored :: _ => cases h

theorem canonical_change {b b' : Build} (hb : b.Canonical) (h : Change b b') : b'.Canonical := by
  cases h with
  | literal v hv h =>
    have hliteral : (literal v).Canonical := by simpa [Node.Canonical, literals] using hv
    exact canonical_deliver hb hliteral h
  | opened b f hf => exact canonical_push.mpr ⟨by simp [hf], hb⟩
  | branch d next h =>
    obtain ⟨hd, hrest⟩ := canonical_push.mp hb
    exact canonical_deliver hrest (canonical_branch.mpr hd) h
  | children nodes d next frames result =>
    obtain ⟨hnodes, hrest⟩ := canonical_push.mp hb
    exact canonical_push.mpr
      ⟨by simpa [Frame.nodes] using hnodes, (canonical_push.mp hrest).2⟩
  | closed f frames result hf => exact (canonical_push.mp hb).2
  | told f g g' frames result hf hg =>
    obtain ⟨-, hrest⟩ := canonical_push.mp hb
    rw [canonical_push, ← hg] at hrest
    exact canonical_push.mpr hrest
  | kept f f' frames result hf =>
    rw [canonical_push, ← hf] at hb
    exact canonical_push.mpr hb

end Build

/-- No tree that is read has a large integer which a signed one equals. -/
theorem canonical_of_read {s : Text.Octets} {n : Node} (h : read s = .ok n) : n.Canonical := by
  obtain ⟨built, hb, h⟩ := Except.bind_eq_ok.mp h
  have hstart : Build.Canonical {} := ⟨nofun, nofun⟩
  have hbuilt := Except.foldlM_induction
    (fun _ _ _ hc h => Build.canonical_change hc (Build.change_step h)) hstart hb
  split at h
  · next hn =>
    cases h
    exact hbuilt.2 _ hn
  · cases h
  · cases h
  · cases h
  · cases h

open Text in
/-- A tree without floats whose large integers are beyond the signed ones is read again from its
text, and is what its JSON value stands for, with the fields in either order. Every tree that is
read is of this sort but for its floats, so reading a text, writing the tree and reading again gives
the tree that was read first. -/
theorem text_round_trip :
    (∀ n : Node, n.FloatFree → n.Canonical → read (octets n.compact) = .ok n ∧
      ofJson? n.toJson = some n ∧ ofJson? n.toJson.sorted = some n) ∧
    (∀ (s : Octets) (n : Node), read s = .ok n → n.Canonical) ∧
    ∀ (s : Octets) (n : Node), read s = .ok n → n.FloatFree → read (octets n.compact) = .ok n := by
  refine ⟨fun n hf hc => ⟨read_compact hf hc, ofJson?_toJson hc, ofJson?_sorted hc⟩,
    fun s n => canonical_of_read, fun s n h hf => read_compact hf (canonical_of_read h)⟩

open Text in
theorem text_round_trip_nested :
    ∃ n : Node, n = .branch (some "a\"\\\n\x01é😀") [.literal (.large 0xffffffffffffffff),
        .branch none [] (some ⟨1, 2⟩), .literal (.int (-0x8000000000000000)), .literal .nil] none ∧
      n.FloatFree ∧ n.Canonical ∧ read (octets n.compact) = .ok n ∧
      ofJson? n.toJson = some n ∧ ofJson? n.toJson.sorted = some n := by
  refine ⟨_, rfl, ?_, text_round_trip.2.1 _ _ (text_round_trip.1 _ ?_ ?_).1,
    text_round_trip.2.2 _ _ (text_round_trip.1 _ ?_ ?_).1 ?_, (text_round_trip.1 _ ?_ ?_).2⟩ <;>
    decide

end Node

end CodeIndex
