import CodeIndex.Proofs.Json.Lexeme
import CodeIndex.Proofs.Tree.Denotation
import CodeIndex.Proofs.Tree.RoundTrip

/-! # The grammar of trees

Reading accepts the texts of exactly the phrases that denote nodes, and gives the node that the
phrase denotes. A value is read by itself where it stands: what its events do to the places that are
open is said in terms of what the phrase denotes there, and fields are read one after the other.
-/

namespace CodeIndex

open Json

namespace Node

namespace Build

variable {frames : List Frame} {result : Option Node} {b b' : Build}

theorem foldlM_cons_ok {e : Event} {es : List Event} :
    (e :: es).foldlM step b = .ok b' ↔ ∃ c, b.step e = .ok c ∧ es.foldlM step c = .ok b' := by
  rw [List.foldlM_cons, Except.bind_eq_ok]

theorem foldlM_append_ok {es fs : List Event} :
    (es ++ fs).foldlM step b = .ok b' ↔
      ∃ c, es.foldlM step b = .ok c ∧ fs.foldlM step c = .ok b' := by
  rw [List.foldlM_append, Except.bind_eq_ok]

/-- The events of an array are those of its items, behind the event that opens it. -/
theorem foldlM_array {c : Build} (hopen : b.step .openArray = .ok c)
    (hcomma : c.step .comma = .ok c) (items : List Phrase) :
    (Phrase.array items).events.foldlM step b = (Phrase.itemEvents items).foldlM step c := by
  cases items with
  | nil => exact foldlM_step_cons hopen _
  | cons v vs =>
    rw [Phrase.events, foldlM_step_cons hopen, Phrase.itemEvents, foldlM_step_cons hcomma]

/-- The events of an object are those of its fields, behind the event that opens it. -/
theorem foldlM_object {c : Build} (hopen : b.step .openObject = .ok c)
    (hcomma : c.step .comma = .ok c) (fields : List (Text.Octets × Phrase)) :
    (Phrase.object fields).events.foldlM step b = (Phrase.fieldEvents fields).foldlM step c := by
  match fields with
  | [] => exact foldlM_step_cons hopen _
  | (name, v) :: fields =>
    rw [Phrase.events, foldlM_step_cons hopen, Phrase.fieldEvents, foldlM_step_cons hcomma]

/-! ## Ignored values -/

/-- Whether any value is passed over where it stands. -/
structure PassesOver (b : Build) : Prop where
  null : b.step .null = .ok b
  bool : ∀ x, b.step (.bool x) = .ok b
  number : ∀ n, b.step (.number n) = .ok b
  string : ∀ raw, b.step (.string raw) = .ok b
  array : b.step .openArray = .ok { b with frames := .ignored :: b.frames }
  object : b.step .openObject = .ok { b with frames := .ignored :: b.frames }

theorem passesOver_ignored (frames : List Frame) (result : Option Node) :
    PassesOver ⟨.ignored :: frames, result⟩ :=
  ⟨rfl, fun _ => rfl, fun _ => rfl, fun _ => rfl, rfl, rfl⟩

theorem passesOver_field (draft : Draft) (frames : List Frame) (result : Option Node) :
    PassesOver ⟨.branch draft (some .ignored) :: frames, result⟩ :=
  ⟨rfl, fun _ => rfl, fun _ => rfl, fun _ => rfl, rfl, rfl⟩

theorem passesOver_bound (start stop : Option UInt32) (frames : List Frame)
    (result : Option Node) : PassesOver ⟨.bounds start stop (some .ignored) :: frames, result⟩ :=
  ⟨rfl, fun _ => rfl, fun _ => rfl, fun _ => rfl, rfl, rfl⟩

mutual

theorem foldlM_ignored : ∀ (v : Phrase) {b : Build}, b.PassesOver →
    v.events.foldlM step b = .ok b
  | .null, _, hb => foldlM_step_cons hb.null []
  | .bool x, _, hb => foldlM_step_cons (hb.bool x) []
  | .number n, _, hb => foldlM_step_cons (hb.number n) []
  | .string raw, _, hb => foldlM_step_cons (hb.string raw) []
  | .array items, _, hb =>
    (foldlM_array hb.array rfl items).trans (foldlM_ignoredItems items)
  | .object fields, _, hb =>
    (foldlM_object hb.object rfl fields).trans (foldlM_ignoredFields fields)

theorem foldlM_ignoredItems : ∀ (items : List Phrase) {frames : List Frame}
    {result : Option Node},
    (Phrase.itemEvents items).foldlM step ⟨.ignored :: frames, result⟩ = .ok ⟨frames, result⟩
  | [], _, _ => rfl
  | v :: vs, frames, result => by
    have hv := foldlM_ignored v (passesOver_ignored frames result)
    rw [Phrase.itemEvents, foldlM_step_cons rfl, foldlM_append_ok]
    exact ⟨_, hv, foldlM_ignoredItems vs⟩

theorem foldlM_ignoredFields : ∀ (fields : List (Text.Octets × Phrase)) {frames : List Frame}
    {result : Option Node},
    (Phrase.fieldEvents fields).foldlM step ⟨.ignored :: frames, result⟩ = .ok ⟨frames, result⟩
  | [], _, _ => rfl
  | (_, v) :: fields, frames, result => by
    have hv := foldlM_ignored v (passesOver_ignored frames result)
    rw [Phrase.fieldEvents, foldlM_step_cons rfl, foldlM_step_cons rfl, foldlM_append_ok]
    exact ⟨_, hv, foldlM_ignoredFields fields⟩

end

/-! ## Values of fields -/

def firstEvent : Phrase → Event
  | .null => .null
  | .bool x => .bool x
  | .number n => .number n
  | .string raw => .string raw
  | .array _ => .openArray
  | .object _ => .openObject

/-- Where the first event of a phrase is refused, the phrase is. -/
theorem foldlM_refused {v : Phrase} (h : b.step (firstEvent v) = refuseScalar (firstEvent v)) :
    v.events.foldlM step b ≠ .ok b' := by
  have hfirst : ∃ es, v.events = firstEvent v :: es := by
    match v with
    | .null | .bool _ | .number _ | .string _ | .array [] | .array (_ :: _) | .object []
    | .object (_ :: _) => exact ⟨_, rfl⟩
  rcases hfirst with ⟨es, hes⟩
  intro hb
  rw [hes, foldlM_cons_ok] at hb
  rcases hb with ⟨c, hc, -⟩
  exact refuseScalar_ne_ok _ (h.symm.trans hc)

theorem foldlM_singleton {e : Event} : [e].foldlM step b = b.step e := by
  rw [List.foldlM_cons]
  cases b.step e <;> rfl

theorem foldlM_kind {v : Phrase} {d : Draft} :
    v.events.foldlM step ⟨.branch d (some .kind) :: frames, result⟩ = .ok b' ↔
      ∃ kind, DenotesKind v kind ∧
        b' = ⟨.branch { d with kind := some kind } none :: frames, result⟩ := by
  constructor
  · intro h
    cases v with
    | null =>
      cases h
      exact ⟨none, .null, rfl⟩
    | string raw =>
      rw [Phrase.events, foldlM_singleton] at h
      rcases Except.bind_eq_ok.mp h with ⟨s, hs, h⟩
      cases h
      exact ⟨some s, .string (readString_eq_ok.mp hs), rfl⟩
    | _ => exact absurd h (foldlM_refused rfl)
  · rintro ⟨kind, hkind, rfl⟩
    cases hkind with
    | null => rfl
    | string hs =>
      rw [Phrase.events, foldlM_singleton]
      exact Except.bind_eq_ok.mpr ⟨_, readString_eq_ok.mpr hs, rfl⟩

/-! ## Lines -/

theorem lineOfNumeral_eq_ok {n : Numeral} {w : UInt32} :
    lineOfNumeral n = .ok w ↔ n.IsInt w.toNat := by
  have hw := word_range w
  constructor
  · intro h
    rcases Except.bind_eq_ok.mp h with ⟨x, hx, h⟩
    rw [Numeral.readNumber_eq_ok] at hx
    cases hx with
    | @int i hi =>
      by_cases hrange : 0 ≤ i ∧ i < UInt32.size
      · simp only [if_pos hrange] at h
        cases h
        have hlt : i.toNat < 2 ^ 32 := by
          have hsize : UInt32.size = 2 ^ 32 := rfl
          omega
        rw [UInt32.toNat_ofNat_of_lt' hlt, Int.toNat_of_nonneg hrange.1]
        exact hi
      · simp only [if_neg hrange] at h
        cases h
    | float => cases h
  · intro h
    have hx := Numeral.readNumber_eq_ok.mpr (.int h)
    simp only [lineOfNumeral, hx, bind, Except.bind, if_pos hw, Int.toNat_natCast,
      UInt32.ofNat_toNat, pure, Except.pure]

/-- A phrase that is not a number is refused where a line is wanted. -/
theorem foldlM_line {v : Phrase} {f : UInt32 → Build}
    (hnumber : ∀ n, b.step (.number n) = (lineOfNumeral n).map f)
    (hother : ∀ v, (∀ n, v ≠ .number n) → b.step (firstEvent v) = refuseScalar (firstEvent v)) :
    v.events.foldlM step b = .ok b' ↔ ∃ w, DenotesLine v w ∧ b' = f w := by
  constructor
  · intro h
    cases v with
    | number n =>
      rw [Phrase.events, foldlM_singleton, hnumber, Except.map_eq_ok] at h
      rcases h with ⟨w, hw, rfl⟩
      exact ⟨w, .number (lineOfNumeral_eq_ok.mp hw), rfl⟩
    | _ => exact absurd h (foldlM_refused (hother _ fun n => by simp))
  · rintro ⟨w, ⟨hw⟩, rfl⟩
    rw [Phrase.events, foldlM_singleton, hnumber, lineOfNumeral_eq_ok.mpr hw]
    rfl

/-! ## Spans -/

def Bound.after : Bound → Option Bound
  | .ignored => some .ignored
  | _ => none

theorem step_boundKey {start stop : Option UInt32} {raw : Text.Octets} :
    step ⟨.bounds start stop none :: frames, result⟩ (.key raw) = .ok b' ↔
      ∃ name, Spells raw name ∧ isKnown start stop (Bound.ofName name) = false ∧
        b' = ⟨.bounds start stop (some (Bound.ofName name)) :: frames, result⟩ := by
  have hstep : ∀ name, Spells raw name →
      (step ⟨.bounds start stop none :: frames, result⟩ (.key raw) = .ok b' ↔
        isKnown start stop (Bound.ofName name) = false ∧
          b' = ⟨.bounds start stop (some (Bound.ofName name)) :: frames, result⟩) := by
    intro name hname
    simp only [step, readString_eq_ok.mpr hname, bind, Except.bind]
    cases Bound.ofName name <;> cases start <;> cases stop <;>
      simp [isKnown, pure, Except.pure, eq_comm]
  constructor
  · intro h
    rcases Except.bind_eq_ok.mp h with ⟨name, hname, -⟩
    rw [readString_eq_ok] at hname
    exact ⟨name, hname, (hstep name hname).mp h⟩
  · rintro ⟨name, hname, h⟩
    exact (hstep name hname).mpr h

theorem foldlM_boundValue {start stop : Option UInt32} {v : Phrase} (bound : Bound) :
    v.events.foldlM step ⟨.bounds start stop (some bound) :: frames, result⟩ = .ok b' ↔
      ∃ start' stop', TakesBound start stop v start' stop' bound ∧
        b' = ⟨.bounds start' stop' (Bound.after bound) :: frames, result⟩ := by
  cases bound with
  | start =>
    have hline : v.events.foldlM step
        ⟨.bounds start stop (some .start) :: frames, result⟩ = .ok b' ↔
        ∃ w, DenotesLine v w ∧ b' = ⟨.bounds (some w) stop none :: frames, result⟩ := by
      apply foldlM_line (fun n => ?_) (fun u hu => ?_)
      · simp only [step, stepBound]
        cases lineOfNumeral n <;> rfl
      · cases u with
        | number n => exact absurd rfl (hu n)
        | _ => rfl
    rw [hline]
    simp [TakesBound, Bound.after]
  | stop =>
    have hline : v.events.foldlM step ⟨.bounds start stop (some .stop) :: frames, result⟩ = .ok b' ↔
        ∃ w, DenotesLine v w ∧ b' = ⟨.bounds start (some w) none :: frames, result⟩ := by
      apply foldlM_line (fun n => ?_) (fun u hu => ?_)
      · simp only [step, stepBound]
        cases lineOfNumeral n <;> rfl
      · cases u with
        | number n => exact absurd rfl (hu n)
        | _ => rfl
    rw [hline]
    simp [TakesBound, Bound.after]
  | ignored =>
    rw [foldlM_ignored v (passesOver_bound start stop frames result)]
    simp [TakesBound, Bound.after, eq_comm]

/-- The fields of a span are read, and the span is delivered. -/
theorem foldlM_boundFields {fields : List (Text.Octets × Phrase)} {start stop : Option UInt32}
    {next : Option Bound} :
    (Phrase.fieldEvents fields).foldlM step ⟨.bounds start stop next :: frames, result⟩ =
        .ok b' ↔
      ∃ named s t, Names fields named ∧ BoundsFilled start stop named (some s) (some t) ∧
        deliverSpan ⟨frames, result⟩ ⟨s, t⟩ = .ok b' := by
  induction fields generalizing start stop next with
  | nil =>
    rw [Phrase.fieldEvents, foldlM_singleton]
    constructor
    · intro h
      cases start with
      | none => cases h
      | some s =>
        cases stop with
        | none => cases h
        | some t => exact ⟨[], s, t, .nil, ⟨.kept _, .kept _⟩, h⟩
    · rintro ⟨_, s, t, ⟨⟩, ⟨hs, ht⟩, h⟩
      obtain rfl := filled_nil.mp hs
      obtain rfl := filled_nil.mp ht
      exact h
  | cons f fields ih =>
    rcases f with ⟨raw, v⟩
    have hcomma : step ⟨.bounds start stop next :: frames, result⟩ .comma =
        .ok ⟨.bounds start stop none :: frames, result⟩ := rfl
    rw [Phrase.fieldEvents, foldlM_step_cons hcomma, foldlM_cons_ok]
    constructor
    · rintro ⟨c, hc, h⟩
      rcases step_boundKey.mp hc with ⟨name, hname, hknown, rfl⟩
      rcases foldlM_append_ok.mp h with ⟨c, hc, h⟩
      rcases (foldlM_boundValue _).mp hc with ⟨start', stop', htakes, rfl⟩
      rcases ih.mp h with ⟨named, s, t, hnamed, hfilled, hdeliver⟩
      exact ⟨(name, v) :: named, s, t, .cons ⟨hname, rfl⟩ hnamed,
        boundsFilled_cons.mpr ⟨hknown, start', stop', htakes, hfilled⟩, hdeliver⟩
    · rintro ⟨_, s, t, hnames, hfilled, hdeliver⟩
      rcases names_cons.mp hnames with ⟨name, named, hname, hnamed, rfl⟩
      rcases boundsFilled_cons.mp hfilled with ⟨hknown, start', stop', htakes, hfilled⟩
      refine ⟨_, step_boundKey.mpr ⟨name, hname, hknown, rfl⟩, foldlM_append_ok.mpr ?_⟩
      exact ⟨_, (foldlM_boundValue _).mpr ⟨start', stop', htakes, rfl⟩,
        ih.mpr ⟨named, s, t, hnamed, hfilled, hdeliver⟩⟩

/-- A span that is written as an array has no more bounds than two. -/
theorem foldlM_pairItems {items : List Phrase} {bounds : List UInt32}
    (hbounds : bounds.length ≤ 2) :
    (Phrase.itemEvents items).foldlM step ⟨.pair bounds :: frames, result⟩ = .ok b' ↔
      ∃ ws s t, List.Forall₂ DenotesLine items ws ∧ bounds.reverse ++ ws = [s, t] ∧
        deliverSpan ⟨frames, result⟩ ⟨s, t⟩ = .ok b' := by
  induction items generalizing bounds with
  | nil =>
    rw [Phrase.itemEvents, foldlM_singleton]
    constructor
    · intro h
      rcases bounds with _ | ⟨t, _ | ⟨s, _ | _⟩⟩
      · cases h
      · cases h
      · exact ⟨[], s, t, .nil, rfl, h⟩
      · cases h
    · rintro ⟨_, s, t, ⟨⟩, heq, h⟩
      rcases bounds with _ | ⟨t', _ | ⟨s', _ | _⟩⟩
      · cases heq
      · cases heq
      · cases heq
        exact h
      · simp at hbounds
  | cons v items ih =>
    have hline : ∀ {bounds c}, v.events.foldlM step ⟨.pair bounds :: frames, result⟩ = .ok c ↔
        ∃ w, DenotesLine v w ∧ c = ⟨.pair (w :: bounds) :: frames, result⟩ := by
      intro bounds c
      apply foldlM_line (fun n => ?_) (fun u hu => ?_)
      · simp only [step]
        cases lineOfNumeral n <;> rfl
      · cases u with
        | number n => exact absurd rfl (hu n)
        | _ => rfl
    rw [Phrase.itemEvents, foldlM_cons_ok]
    by_cases htwo : bounds.length = 2
    · -- there is no place for a third bound
      rcases bounds with _ | ⟨t, _ | ⟨s, _ | _⟩⟩ <;> simp at htwo hbounds
      constructor
      · rintro ⟨c, ⟨⟩, -⟩
      · rintro ⟨_, _, _, ⟨-, -⟩, heq, -⟩
        cases heq
    · have hcomma : step ⟨.pair bounds :: frames, result⟩ .comma =
          .ok ⟨.pair bounds :: frames, result⟩ := by
        rcases bounds with _ | ⟨t, _ | ⟨s, _ | _⟩⟩
        · rfl
        · rfl
        · exact absurd rfl htwo
        · rfl
      have hlt : ∀ w : UInt32, (w :: bounds).length ≤ 2 := by
        intro w
        rw [List.length_cons]
        omega
      constructor
      · rintro ⟨c, hc, h⟩
        cases hcomma.symm.trans hc
        rcases foldlM_append_ok.mp h with ⟨c, hc, h⟩
        rcases hline.mp hc with ⟨w, hw, rfl⟩
        rcases (ih (hlt w)).mp h with ⟨ws, s, t, hws, heq, hdeliver⟩
        refine ⟨w :: ws, s, t, .cons hw hws, ?_, hdeliver⟩
        rw [← heq, List.reverse_cons, List.append_assoc]
        rfl
      · rintro ⟨_, s, t, hall, heq, hdeliver⟩
        rcases List.forall₂_cons_left_iff.mp hall with ⟨w, ws, hw, hws, rfl⟩
        refine ⟨_, hcomma, foldlM_append_ok.mpr ⟨_, hline.mpr ⟨_, hw, rfl⟩, ?_⟩⟩
        refine (ih (hlt _)).mpr ⟨_, s, t, hws, ?_, hdeliver⟩
        rw [← heq, List.reverse_cons, List.append_assoc]
        rfl

theorem foldlM_location_ok {v : Phrase} {d : Draft} :
    v.events.foldlM step ⟨.branch d (some .location) :: frames, result⟩ = .ok b' ↔
      ∃ location, DenotesLocation v location ∧
        b' = ⟨.branch { d with location := some location } none :: frames, result⟩ := by
  have hspan : (∃ s t, DenotesSpan v ⟨s, t⟩ ∧
      deliverSpan ⟨.branch d (some .location) :: frames, result⟩ ⟨s, t⟩ = .ok b') →
      ∃ location, DenotesLocation v location ∧
        b' = ⟨.branch { d with location := some location } none :: frames, result⟩ := by
    rintro ⟨s, t, h, ⟨⟩⟩
    exact ⟨some ⟨s, t⟩, .span h, rfl⟩
  have hnone : ([] : List UInt32).length ≤ 2 := Nat.zero_le 2
  constructor
  · intro h
    cases v with
    | null =>
      cases h
      exact ⟨none, .null, rfl⟩
    | array items =>
      rw [foldlM_array rfl rfl, foldlM_pairItems hnone] at h
      rcases h with ⟨ws, s, t, hws, rfl, h⟩
      rcases hws with _ | ⟨hs, _ | ⟨ht, ⟨⟩⟩⟩
      exact hspan ⟨s, t, .pair hs ht, h⟩
    | object fields =>
      rw [foldlM_object rfl rfl, foldlM_boundFields] at h
      rcases h with ⟨named, s, t, hnames, hfilled, h⟩
      exact hspan ⟨s, t, denotesSpan_object.mpr ⟨named, hnames, hfilled⟩, h⟩
    | _ => exact absurd h (foldlM_refused rfl)
  · rintro ⟨_, ⟨⟩ | ⟨h⟩, rfl⟩
    · rfl
    · cases h with
      | pair hs ht =>
        rw [foldlM_array rfl rfl, foldlM_pairItems hnone]
        exact ⟨_, _, _, .cons hs (.cons ht .nil), rfl, rfl⟩
      | object hnames hstart hs hstop ht =>
        have hobject := DenotesSpan.object hnames hstart hs hstop ht
        rcases denotesSpan_object.mp hobject with ⟨named, hnames, hfilled⟩
        rw [foldlM_object rfl rfl, foldlM_boundFields]
        exact ⟨named, _, _, hnames, hfilled, rfl⟩

/-! ## Children -/

/-- Whether a phrase is read, wherever a node is waited for, as a node that it denotes. -/
def ReadsNode (v : Phrase) : Prop :=
  ∀ {b b' : Build}, b.Waiting →
    (v.events.foldlM step b = .ok b' ↔ ∃ n, Denotes v n ∧ b.deliver n = .ok b')

/-- Whether a phrase is read as the children that it denotes, where they are wanted. -/
def ReadsList (v : Phrase) : Prop :=
  ∀ {d : Draft} {frames : List Frame} {result : Option Node} {b' : Build},
    v.events.foldlM step ⟨.branch d (some .children) :: frames, result⟩ = .ok b' ↔
      ∃ nodes, DenotesList v nodes ∧
        b' = ⟨.branch { d with children := some nodes } none :: frames, result⟩

theorem foldlM_nodeItems {items : List Phrase} (hitems : ∀ v ∈ items, ReadsNode v)
    {read : List Node} {d : Draft} {next : Option Field} :
    (Phrase.itemEvents items).foldlM step
        ⟨.children read :: .branch d next :: frames, result⟩ = .ok b' ↔
      ∃ nodes, List.Forall₂ Denotes items nodes ∧
        b' = ⟨.branch { d with children := some (read.reverse ++ nodes) } none :: frames,
          result⟩ := by
  induction items generalizing read with
  | nil =>
    rw [Phrase.itemEvents, foldlM_singleton]
    constructor
    · rintro ⟨⟩
      exact ⟨[], .nil, by rw [List.append_nil]⟩
    · rintro ⟨_, ⟨⟩, rfl⟩
      rw [List.append_nil]
      rfl
  | cons v items ih =>
    have hcomma : step ⟨.children read :: .branch d next :: frames, result⟩ .comma =
        .ok ⟨.children read :: .branch d next :: frames, result⟩ := rfl
    have hread : ∀ {c}, v.events.foldlM step
        ⟨.children read :: .branch d next :: frames, result⟩ = .ok c ↔
          ∃ n, Denotes v n ∧ c = ⟨.children (n :: read) :: .branch d next :: frames, result⟩ := by
      intro c
      rw [hitems v List.mem_cons_self (waiting_children read _ _)]
      simp only [deliver, Except.ok.injEq, eq_comm]
    have hrest : ∀ u ∈ items, ReadsNode u := fun u hu => hitems u (List.mem_cons_of_mem v hu)
    rw [Phrase.itemEvents, foldlM_step_cons hcomma, foldlM_append_ok]
    constructor
    · rintro ⟨c, hc, h⟩
      rcases hread.mp hc with ⟨n, hn, rfl⟩
      rcases (ih hrest).mp h with ⟨nodes, hnodes, rfl⟩
      refine ⟨n :: nodes, .cons hn hnodes, ?_⟩
      rw [List.reverse_cons, List.append_assoc, List.singleton_append]
    · rintro ⟨_, hall, rfl⟩
      rcases List.forall₂_cons_left_iff.mp hall with ⟨n, nodes, hn, hnodes, rfl⟩
      refine ⟨_, hread.mpr ⟨n, hn, rfl⟩, (ih hrest).mpr ⟨nodes, hnodes, ?_⟩⟩
      rw [List.reverse_cons, List.append_assoc, List.singleton_append]

/-- An array is read as children if each of its items is read as a node. -/
theorem readsList {v : Phrase} (h : ∀ items, v = .array items → ∀ u ∈ items, ReadsNode u) :
    ReadsList v := by
  intro d frames result b'
  constructor
  · intro hb
    cases v with
    | array items =>
      rw [foldlM_array rfl rfl, foldlM_nodeItems (h items rfl)] at hb
      rcases hb with ⟨nodes, hnodes, rfl⟩
      exact ⟨nodes, .array hnodes, rfl⟩
    | _ => exact absurd hb (foldlM_refused rfl)
  · rintro ⟨nodes, ⟨hnodes⟩, rfl⟩
    rw [foldlM_array rfl rfl, foldlM_nodeItems (h _ rfl)]
    exact ⟨nodes, hnodes, rfl⟩

/-! ## Branches -/

def Field.after : Field → Option Field
  | .ignored => some .ignored
  | _ => none

theorem step_fieldKey {d : Draft} {raw : Text.Octets} :
    step ⟨.branch d none :: frames, result⟩ (.key raw) = .ok b' ↔
      ∃ name, Spells raw name ∧ d.has (Field.ofName name) = false ∧
        b' = ⟨.branch d (some (Field.ofName name)) :: frames, result⟩ := by
  constructor
  · intro h
    rcases Except.bind_eq_ok.mp h with ⟨name, hname, h⟩
    refine ⟨name, readString_eq_ok.mp hname, ?_⟩
    cases hhas : d.has (Field.ofName name) with
    | true =>
      simp only [hhas, if_true] at h
      cases h
    | false =>
      simp only [hhas, Bool.false_eq_true, if_false] at h
      cases h
      exact ⟨rfl, rfl⟩
  · rintro ⟨name, hname, hhas, rfl⟩
    refine Except.bind_eq_ok.mpr ⟨name, readString_eq_ok.mpr hname, ?_⟩
    simp only [hhas, Bool.false_eq_true, if_false]
    rfl

theorem foldlM_fieldValue {d : Draft} {v : Phrase} (hv : ReadsList v) (field : Field) :
    v.events.foldlM step ⟨.branch d (some field) :: frames, result⟩ = .ok b' ↔
      ∃ d', TakesField d v d' field ∧ b' = ⟨.branch d' (Field.after field) :: frames, result⟩ := by
  cases field with
  | kind =>
    rw [foldlM_kind]
    simp [TakesField, Field.after]
  | children =>
    rw [hv]
    simp [TakesField, Field.after]
  | location =>
    rw [foldlM_location_ok]
    simp [TakesField, Field.after]
  | ignored =>
    rw [foldlM_ignored v (passesOver_field d frames result)]
    simp [TakesField, Field.after, eq_comm]

/-- The fields of a branch are read, and the branch is delivered. -/
theorem foldlM_branchFields {fields : List (Text.Octets × Phrase)}
    (hfields : ∀ f ∈ fields, ReadsList f.2) {d : Draft} {next : Option Field} :
    (Phrase.fieldEvents fields).foldlM step ⟨.branch d next :: frames, result⟩ = .ok b' ↔
      ∃ named d', Names fields named ∧ DraftFilled d named d' ∧
        deliver ⟨frames, result⟩ d'.toNode = .ok b' := by
  induction fields generalizing d next with
  | nil =>
    have hclose : step ⟨.branch d next :: frames, result⟩ .closeObject =
        deliver ⟨frames, result⟩ d.toNode := rfl
    rw [Phrase.fieldEvents, foldlM_singleton, hclose]
    constructor
    · intro h
      exact ⟨[], d, .nil, ⟨.kept _, .kept _, .kept _⟩, h⟩
    · rintro ⟨_, ⟨kind, children, location⟩, ⟨⟩, ⟨hkind, hchildren, hlocation⟩, h⟩
      obtain rfl := filled_nil.mp hkind
      obtain rfl := filled_nil.mp hchildren
      obtain rfl := filled_nil.mp hlocation
      exact h
  | cons f fields ih =>
    rcases f with ⟨raw, v⟩
    have hv : ReadsList v := hfields (raw, v) List.mem_cons_self
    have hrest : ∀ f ∈ fields, ReadsList f.2 := fun f hf => hfields f (List.mem_cons_of_mem _ hf)
    have hcomma : step ⟨.branch d next :: frames, result⟩ .comma =
        .ok ⟨.branch d none :: frames, result⟩ := rfl
    rw [Phrase.fieldEvents, foldlM_step_cons hcomma, foldlM_cons_ok]
    constructor
    · rintro ⟨c, hc, h⟩
      rcases step_fieldKey.mp hc with ⟨name, hname, hhas, rfl⟩
      rcases foldlM_append_ok.mp h with ⟨c, hc, h⟩
      rcases (foldlM_fieldValue hv _).mp hc with ⟨d', htakes, rfl⟩
      rcases (ih hrest).mp h with ⟨named, d'', hnamed, hfilled, hdeliver⟩
      exact ⟨(name, v) :: named, d'', .cons ⟨hname, rfl⟩ hnamed,
        draftFilled_cons.mpr ⟨hhas, d', htakes, hfilled⟩, hdeliver⟩
    · rintro ⟨_, d'', hnames, hfilled, hdeliver⟩
      rcases names_cons.mp hnames with ⟨name, named, hname, hnamed, rfl⟩
      rcases draftFilled_cons.mp hfilled with ⟨hhas, d', htakes, hfilled⟩
      refine ⟨_, step_fieldKey.mpr ⟨name, hname, hhas, rfl⟩, foldlM_append_ok.mpr ?_⟩
      exact ⟨_, (foldlM_fieldValue hv _).mpr ⟨d', htakes, rfl⟩,
        (ih hrest).mpr ⟨named, d'', hnamed, hfilled, hdeliver⟩⟩

/-! ## Nodes -/

theorem readsNode (v : Phrase) : ReadsNode v ∧ ReadsList v := by
  induction v using Phrase.induction with
  | null =>
    refine ⟨fun {b b'} hb => ?_, readsList (by rintro _ ⟨⟩)⟩
    rw [Phrase.events, foldlM_singleton, step_eq_stepNode hb rfl]
    constructor
    · intro h
      exact ⟨_, .null, h⟩
    · rintro ⟨_, ⟨⟩, h⟩
      exact h
  | bool x =>
    refine ⟨fun {b b'} hb => ?_, readsList (by rintro _ ⟨⟩)⟩
    rw [Phrase.events, foldlM_singleton, step_eq_stepNode hb rfl]
    constructor
    · intro h
      exact ⟨_, .bool x, h⟩
    · rintro ⟨_, ⟨⟩, h⟩
      exact h
  | number n =>
    refine ⟨fun {b b'} hb => ?_, readsList (by rintro _ ⟨⟩)⟩
    rw [Phrase.events, foldlM_singleton, step_eq_stepNode hb rfl, stepNode, Except.bind_eq_ok]
    constructor
    · rintro ⟨x, hx, h⟩
      exact ⟨_, .number (Numeral.readNumber_eq_ok.mp hx), h⟩
    · rintro ⟨_, hn, h⟩
      cases hn with
      | number hx => exact ⟨_, Numeral.readNumber_eq_ok.mpr hx, h⟩
  | string raw =>
    refine ⟨fun {b b'} hb => ?_, readsList (by rintro _ ⟨⟩)⟩
    rw [Phrase.events, foldlM_singleton, step_eq_stepNode hb rfl, stepNode, Except.bind_eq_ok]
    constructor
    · rintro ⟨s, hs, h⟩
      exact ⟨_, .string (readString_eq_ok.mp hs), h⟩
    · rintro ⟨_, hn, h⟩
      cases hn with
      | string hs => exact ⟨_, readString_eq_ok.mpr hs, h⟩
  | array items ih =>
    refine ⟨fun {b b'} hb => ?_, readsList ?_⟩
    · constructor
      · intro h
        exact absurd h (foldlM_refused (step_eq_stepNode hb rfl))
      · rintro ⟨_, ⟨⟩, -⟩
    · rintro _ ⟨⟩ u hu
      exact (ih u hu).1
  | object fields ih =>
    refine ⟨fun {b b'} hb => ?_, readsList (by rintro _ ⟨⟩)⟩
    have hopen : b.step .openObject = .ok ⟨.branch {} none :: b.frames, b.result⟩ :=
      step_eq_stepNode hb rfl
    rw [foldlM_object hopen rfl, foldlM_branchFields fun f hf => (ih f hf).2]
    constructor
    · rintro ⟨named, d, hnames, hfilled, h⟩
      exact ⟨_, denotes_object.mpr ⟨named, d, hnames, hfilled, rfl⟩, h⟩
    · rintro ⟨n, hn, h⟩
      rcases denotes_object.mp hn with ⟨named, d, hnames, hfilled, rfl⟩
      exact ⟨named, d, hnames, hfilled, h⟩

end Build

/-- The text of a phrase is read as the node that the phrase denotes, if it denotes one. -/
theorem read_writtenAs {v : Phrase} {s : Text.Octets} (h : v.WrittenAs s) {n : Node} :
    read s = .ok n ↔ Denotes v n := by
  have hstart : Build.Waiting {} := fun _ => ⟨_, rfl⟩
  have hbuilt : ∀ {built : Build}, v.events.foldlM Build.step {} = .ok built ↔
      ∃ m, Denotes v m ∧ built = ⟨[], some m⟩ := by
    intro built
    rw [(Build.readsNode v).1 hstart]
    simp only [Build.deliver, Except.ok.injEq, eq_comm]
  rw [read, h.events_eq, Except.bind_eq_ok]
  constructor
  · rintro ⟨built, hb, hn⟩
    rcases hbuilt.mp hb with ⟨m, hm, rfl⟩
    cases hn
    exact hm
  · intro hn
    exact ⟨_, hbuilt.mpr ⟨n, hn, rfl⟩, rfl⟩

/-- Reading accepts the texts of the phrases that denote nodes, and no others. -/
theorem read_eq_ok {s : Text.Octets} {n : Node} :
    read s = .ok n ↔ ∃ v : Phrase, v.WrittenAs s ∧ Denotes v n := by
  constructor
  · intro h
    have hcomplete : ∃ es, events s = ⟨es, .complete⟩ := by
      rcases Except.bind_eq_ok.mp h with ⟨built, -, h⟩
      split at h
      · next hending _ => exact ⟨_, congrArg (EventStream.mk _) hending⟩
      · cases h
      · cases h
      · cases h
      · cases h
    rcases hcomplete with ⟨es, hes⟩
    rcases exists_writtenAs hes with ⟨v, hv, -⟩
    exact ⟨v, hv, (read_writtenAs hv).mp h⟩
  · rintro ⟨v, hv, hn⟩
    exact (read_writtenAs hv).mpr hn

end Node

end CodeIndex
