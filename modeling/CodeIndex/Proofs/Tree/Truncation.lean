import CodeIndex.Proofs.Json.Cut
import CodeIndex.Proofs.Tree.Grammar
import CodeIndex.Proofs.Tree.Settled
import CodeIndex.Tree.Dump

/-! # Texts of trees that are cut off

A text that is read as a branch is refused wherever something is cut off its end. If the tree was
written without floats, then the end of the text is all that is wrong: a shorter integer is taken
where the whole one is, and no negative one stands where values are ignored, for which an end behind
the sign would be a mistake.
-/

namespace CodeIndex

open Json

/-! ## Numbers of written trees -/

namespace Json.Value

theorem number_mem_itemTokens {n : Numeral} {xs : List Value} :
    .number n ∈ itemTokens xs ↔ ∃ x ∈ xs, .number n ∈ x.tokens := by
  induction xs with
  | nil => simp [itemTokens]
  | cons x xs ih => simp [itemTokens, ih]

theorem number_mem_array {n : Numeral} {xs : List Value} :
    .number n ∈ (array xs).tokens ↔ ∃ x ∈ xs, .number n ∈ x.tokens := by
  cases xs with
  | nil => simp [tokens]
  | cons x xs => simp [tokens, number_mem_itemTokens]

theorem number_mem_fieldTokens {n : Numeral} {fields : List (String × Value)} :
    .number n ∈ fieldTokens fields ↔ ∃ f ∈ fields, .number n ∈ f.2.tokens := by
  induction fields with
  | nil => simp [fieldTokens]
  | cons f fields ih => simp [fieldTokens, ih]

theorem number_mem_object {n : Numeral} {fields : List (String × Value)} :
    .number n ∈ (object fields).tokens ↔ ∃ f ∈ fields, .number n ∈ f.2.tokens := by
  match fields with
  | [] => simp [tokens]
  | f :: fields => simp [tokens, number_mem_fieldTokens]

theorem integral_int {i : Int} (hl : -2 ^ 63 ≤ i) (hu : i < 2 ^ 64) :
    Integral (number (.int i)).tokens := by
  intro n hn
  obtain rfl : n = numeralOf i := by simpa [tokens, Number.token, Number.numeral?] using hn
  exact ⟨i, Numeral.int?_eq_some.mp (int?_numeralOf hl hu)⟩

end Json.Value

theorem Literal.integral_toJson {v : Literal} (h : v.isFloat = false) :
    Integral v.toJson.tokens := by
  cases v with
  | int n =>
    have hl := n.le_toInt
    have hu := n.toInt_lt
    exact Value.integral_int (by omega) (by omega)
  | large n =>
    have hu := n.toNat_lt
    exact Value.integral_int (by omega) (by omega)
  | float => cases h
  | nil | bool | str => simp [Integral, toJson, Value.tokens]

theorem Span.integral_toJson (s : Span) : Integral s.toJson.tokens := by
  have hstart := s.start.toNat_lt
  have hstop := s.stop.toNat_lt
  intro n hn
  rcases Value.number_mem_object.mp hn with ⟨f, hf, hn⟩
  simp only [List.mem_cons, List.not_mem_nil, or_false] at hf
  rcases hf with rfl | rfl
  · exact Value.integral_int (by omega) (by omega) n hn
  · exact Value.integral_int (by omega) (by omega) n hn

namespace Node

/-- All numbers of a tree without floats are written as integers. -/
theorem integral_toJson {n : Node} (h : n.FloatFree) : Integral n.toJson.tokens := by
  induction n using Node.induction with
  | literal v => exact Literal.integral_toJson (h v List.mem_cons_self)
  | branch kind children location ih =>
    intro m hm
    rcases Value.number_mem_object.mp hm with ⟨f, hf, hm⟩
    simp only [fieldsJson, List.mem_append, List.mem_map, List.mem_singleton] at hf
    rcases hf with (⟨k, -, rfl⟩ | rfl) | ⟨s, -, rfl⟩
    · simp [Value.tokens] at hm
    · rw [Value.number_mem_array, toJsons_eq] at hm
      rcases hm with ⟨x, hx, hm⟩
      rcases List.mem_map.mp hx with ⟨c, hc, rfl⟩
      exact ih c hc (floatFree_branch.mp h c hc) m hm
    · exact s.integral_toJson m hm

namespace Build

/-! ## Where negative numbers stand -/

def isNegative : Event → Bool
  | .number n => n.negative
  | _ => false

/-- Whether no negative number among events is ignored where they are read. -/
def Attentive (b : Build) : List Event → Prop
  | [] => True
  | e :: es => (isNegative e = true → b.ignoring = false) ∧ ∀ c, b.step e = .ok c → Attentive c es

variable {frames : List Frame} {result : Option Node} {b c : Build}

theorem attentive_append {es fs : List Event} :
    Attentive b (es ++ fs) ↔
      Attentive b es ∧ ∀ c, es.foldlM step b = .ok c → Attentive c fs := by
  induction es generalizing b with
  | nil =>
    constructor
    · intro h
      refine ⟨trivial, fun c hc => ?_⟩
      cases hc
      exact h
    · intro h
      exact h.2 b rfl
  | cons e es ih =>
    simp only [List.cons_append, Attentive, ih, foldlM_cons_ok]
    constructor
    · rintro ⟨he, hes⟩
      exact ⟨⟨he, fun c hc => (hes c hc).1⟩, fun c ⟨c', hc', hc⟩ => (hes c' hc').2 c hc⟩
    · rintro ⟨⟨he, hes⟩, hfs⟩
      exact ⟨he, fun c hc => ⟨hes c hc, fun c' hc' => hfs c' ⟨c, hc, hc'⟩⟩⟩

theorem attentive_cons {e : Event} (he : isNegative e = false) (h : b.step e = .ok c)
    {es : List Event} (hes : Attentive c es) : Attentive b (e :: es) := by
  refine ⟨fun hneg => ?_, fun c' hc' => ?_⟩
  · rw [he] at hneg
    cases hneg
  · rw [h] at hc'
    cases hc'
    exact hes

theorem attentive_of_not_negative {es : List Event} (h : ∀ e ∈ es, isNegative e = false) :
    Attentive b es := by
  induction es generalizing b with
  | nil => trivial
  | cons e es ih =>
    refine ⟨fun hneg => ?_, fun c _ => ih fun d hd => h d (List.mem_cons_of_mem e hd)⟩
    rw [h e List.mem_cons_self] at hneg
    cases hneg

theorem Waiting.not_ignoring (hb : b.Waiting) : b.ignoring = false := by
  rcases b with ⟨frames, result⟩
  rcases hb (.literal .nil) with ⟨b', h⟩
  match frames with
  | [] | .children _ :: _ => rfl
  | .branch .. :: _ | .bounds .. :: _ | .pair _ :: _ | .ignored :: _ => cases h

/-- Whether the events of a written node are read attentively, wherever a node is waited for. -/
def ReadsAttentively (n : Node) : Prop := ∀ {b : Build}, b.Waiting → Attentive b n.toJson.events

theorem attentive_itemEvents {ns : List Node} (h : ∀ n ∈ ns, ReadsAttentively n)
    (read : List Node) :
    Attentive ⟨.children read :: frames, result⟩ (Value.itemEvents (toJsons ns)) := by
  induction ns generalizing read with
  | nil => exact attentive_of_not_negative (by simp [toJsons, Value.itemEvents, isNegative])
  | cons n ns ih =>
    have hwaiting := waiting_children read frames result
    rw [toJsons, Value.itemEvents]
    apply attentive_cons rfl rfl
    refine attentive_append.mpr ⟨h n List.mem_cons_self hwaiting, fun c hc => ?_⟩
    have hput := putsBack n _ hwaiting []
    rw [List.append_nil, hc] at hput
    cases hm : n.reread with
    | error p =>
      rw [hm] at hput
      cases hput
    | ok m =>
      rw [hm] at hput
      cases hput
      exact ih (fun k hk => h k (List.mem_cons_of_mem n hk)) (m :: read)

theorem attentive_children {ns : List Node} (h : ∀ n ∈ ns, ReadsAttentively n) (d : Draft) :
    Attentive ⟨.branch d (some .children) :: frames, result⟩
      (Value.array (toJsons ns)).events := by
  have hitems : Attentive ⟨.children [] :: .branch d (some .children) :: frames, result⟩
      (Value.itemEvents (toJsons ns)) := attentive_itemEvents h []
  cases ns with
  | nil => exact attentive_of_not_negative (by simp [toJsons, Value.events, isNegative])
  | cons n ns =>
    rw [toJsons, Value.events]
    exact attentive_cons rfl rfl (hitems.2 _ rfl)

theorem attentive_fields {ns : List Node} (h : ∀ n ∈ ns, ReadsAttentively n) {d : Draft}
    (hd : d.children = none) (location : Option Span) :
    Attentive ⟨.branch d none :: frames, result⟩
      (.key (escaped "children") :: ((Value.array (toJsons ns)).events ++
        Value.fieldEvents (location.toList.map fun s => ("location", s.toJson)))) := by
  have hk : step ⟨.branch d none :: frames, result⟩ (.key (escaped "children")) =
      .ok ⟨.branch d (some .children) :: frames, result⟩ :=
    step_key (by rw [Draft.has.eq_def]; simp [Field.ofName, hd])
  apply attentive_cons rfl hk
  refine attentive_append.mpr ⟨attentive_children h d, fun c _ => ?_⟩
  -- a span has no negative number
  apply attentive_of_not_negative
  have hline : ∀ w : UInt32, (numeralOf w.toNat).negative = false := by
    intro w
    simp [numeralOf]
  have hspan : ∀ s : Span, s.toJson.events = [.openObject, .key (escaped "start_line"),
      .number (numeralOf s.start.toNat), .comma, .key (escaped "end_line"),
      .number (numeralOf s.stop.toNat), .closeObject] := fun _ => rfl
  cases location with
  | none => simp [Value.fieldEvents, isNegative]
  | some s => simp [Value.fieldEvents, hspan, hline, isNegative]

theorem readsAttentively (n : Node) : ReadsAttentively n := by
  induction n using Node.induction with
  | literal v =>
    intro b hb
    have hsingle : ∃ e, v.toJson.events = [e] := by
      cases v <;> exact ⟨_, rfl⟩
    rcases hsingle with ⟨e, he⟩
    rw [Node.toJson, he]
    exact ⟨fun _ => hb.not_ignoring, fun _ _ => trivial⟩
  | branch kind children location ih =>
    intro b hb
    have ho : b.step .openObject = .ok ⟨.branch {} none :: b.frames, b.result⟩ :=
      step_eq_stepNode hb rfl
    cases kind with
    | none => exact attentive_cons rfl ho (attentive_fields ih rfl location)
    | some k =>
      apply attentive_cons rfl ho
      apply attentive_cons rfl (step_key rfl)
      apply attentive_cons rfl (step_kind k)
      exact attentive_cons rfl rfl (attentive_fields ih rfl location)

/-! ## Shorter numbers and strings -/

theorem lineOfNumeral_shorter {n m : Numeral} {i j : Int} (hn : n.IsInt i) (hm : m.IsInt j)
    (hij : 0 ≤ i → 0 ≤ j ∧ j ≤ i) {w : UInt32} (h : lineOfNumeral n = .ok w) :
    ∃ w', lineOfNumeral m = .ok w' := by
  have hi : i = w.toNat := by
    rw [hn.value, (lineOfNumeral_eq_ok.mp h).value]
  have hw := w.toNat_lt
  rcases hij (by omega) with ⟨hl, hu⟩
  have hlt : j.toNat < 2 ^ 32 := by omega
  refine ⟨UInt32.ofNat j.toNat, lineOfNumeral_eq_ok.mpr ?_⟩
  rw [UInt32.toNat_ofNat_of_lt' hlt, Int.toNat_of_nonneg hl]
  exact hm

theorem step_shorter {n m : Numeral} {i j : Int} (hn : n.IsInt i) (hm : m.IsInt j)
    (hij : 0 ≤ i → 0 ≤ j ∧ j ≤ i) (h : b.step (.number n) = .ok c) :
    ∃ c', b.step (.number m) = .ok c' := by
  have hread := Numeral.readNumber_eq_ok.mpr (.int hm)
  rcases b with ⟨frames, result⟩
  match frames with
  | [] | .children _ :: _ => exact ⟨_, Except.bind_eq_ok.mpr ⟨_, hread, rfl⟩⟩
  | .branch d next :: frames =>
    cases next with
    | none => cases h
    | some field =>
      cases field with
      | kind | children | location => exact absurd h (refuseScalar_ne_ok (.number n))
      | ignored => exact ⟨_, rfl⟩
  | .bounds start stop next :: frames =>
    cases next with
    | none => cases h
    | some bound =>
      cases bound with
      | start | stop =>
        rcases Except.bind_eq_ok.mp h with ⟨w, hw, -⟩
        rcases lineOfNumeral_shorter hn hm hij hw with ⟨w', hw'⟩
        exact ⟨_, Except.bind_eq_ok.mpr ⟨w', hw', rfl⟩⟩
      | ignored => exact ⟨_, rfl⟩
  | .pair bounds :: frames =>
    rcases Except.bind_eq_ok.mp h with ⟨w, hw, -⟩
    rcases lineOfNumeral_shorter hn hm hij hw with ⟨w', hw'⟩
    exact ⟨_, Except.bind_eq_ok.mpr ⟨w', hw', rfl⟩⟩
  | .ignored :: frames => exact ⟨_, rfl⟩

theorem spells_of_step {raw : Text.Octets} {e : Event} (he : e = .string raw ∨ e = .key raw)
    (h : b.step e = .ok c) (hb : b.ignoring = false) : ∃ s, Spells raw s := by
  rcases b with ⟨frames, result⟩
  have hread : ∀ {α : Type} {f : String → Except Problem α} {x : α},
      (Json.readString raw >>= f) = .ok x → ∃ s, Spells raw s := by
    intro α f x h
    rcases Except.bind_eq_ok.mp h with ⟨s, hs, -⟩
    exact ⟨s, readString_eq_ok.mp hs⟩
  match frames with
  | [] | .children _ :: _ =>
    rcases he with rfl | rfl
    · exact hread h
    · cases h
  | .branch d next :: frames =>
    rcases he with rfl | rfl
    · cases next with
      | none => cases h
      | some field =>
        cases field with
        | kind => exact hread h
        | children | location => exact absurd h (refuseScalar_ne_ok (.string raw))
        | ignored => cases hb
    · exact hread h
  | .bounds start stop next :: frames =>
    rcases he with rfl | rfl
    · cases next with
      | none => cases h
      | some bound =>
        cases bound with
        | start | stop => exact absurd h (refuseScalar_ne_ok (.string raw))
        | ignored => cases hb
    · exact hread h
  | .pair bounds :: frames =>
    rcases he with rfl | rfl
    · exact absurd h (refuseScalar_ne_ok (.string raw))
    · exact absurd h (refuseScalar_ne_ok (.key raw))
  | .ignored :: frames => cases hb

/-- A string that is cut off is unfinished, wherever the whole one is taken. -/
theorem problemOfCut_string {raw rest : Text.Octets} {e : Event}
    (he : e = .string (raw ++ rest) ∨ e = .key (raw ++ rest)) (h : b.step e = .ok c) :
    b.problemOfCut (.cutString raw) = .unfinished := by
  cases hb : b.ignoring with
  | true => simp only [problemOfCut, hb, if_true]
  | false =>
    rcases spells_of_step he h hb with ⟨s, hs⟩
    have hbad : Json.unescape raw ≠ .bad := unescapeFrom_cut hs rfl []
    simp only [problemOfCut, hb, Bool.false_eq_true, if_false, Json.problemOfCutString]
    split
    · next h => exact absurd h hbad
    · rfl
    · rfl

end Build

/-! ## Texts that are cut off -/

theorem read_unfinished {s : Text.Octets} {es : List Event} {c : Build}
    (hs : Json.events s = ⟨es, .unfinished⟩) (hc : es.foldlM Build.step {} = .ok c) :
    read s = .error .unfinished := by
  rw [read, hs]
  simp only [hc]
  rfl

theorem read_cutToken {s : Text.Octets} {es : List Event} {t : Token} {c : Build}
    (hs : Json.events s = ⟨es, .cut t⟩) (hc : es.foldlM Build.step {} = .ok c) :
    read s = .error (c.problemOfCut t) := by
  rw [read, hs]
  simp only [hc]
  rfl

open EventStream in
/-- A text that is interrupted where the whole one is read ends inside a value. -/
theorem read_interrupted {s : Text.Octets} {es : List Event} {built : Build}
    (h : Interrupted es (Json.events s)) (hes : es.foldlM Build.step {} = .ok built)
    (hattentive : Build.Attentive {} es) : read s = .error .unfinished := by
  generalize hs : Json.events s = stream at h
  cases h with
  | between h =>
    rw [h, Build.foldlM_append_ok] at hes
    rcases hes with ⟨c, hc, -⟩
    exact read_unfinished hs hc
  | word h =>
    rw [h, Build.foldlM_append_ok] at hes
    rcases hes with ⟨c, hc, -⟩
    exact read_cutToken hs hc
  | sign hn h =>
    rw [h, Build.foldlM_append_ok] at hes
    rcases hes with ⟨c, hc, -⟩
    rw [h, Build.attentive_append] at hattentive
    have hheeded := (hattentive.2 c hc).1 hn
    rw [read_cutToken hs hc]
    simp only [Build.problemOfCut, hheeded, Bool.false_eq_true, if_false]
  | digits hd hi h =>
    rw [h, Build.foldlM_append_ok] at hes
    rcases hes with ⟨c, hc, hrest⟩
    rcases Build.foldlM_cons_ok.mp hrest with ⟨c', hc', -⟩
    rcases hi.digits hd with ⟨j, hj, hij⟩
    rcases Build.step_shorter hi hj hij hc' with ⟨c'', hc''⟩
    have hdigits := Build.foldlM_append_ok.mpr ⟨c, hc, Build.foldlM_singleton.trans hc''⟩
    exact read_unfinished hs hdigits
  | string he h =>
    rw [h, Build.foldlM_append_ok] at hes
    rcases hes with ⟨c, hc, hrest⟩
    rcases Build.foldlM_cons_ok.mp hrest with ⟨c', hc', -⟩
    rw [read_cutToken hs hc, Build.problemOfCut_string he hc']

/-- Only a literal can be read where more than blanks are cut off. -/
theorem isLiteral_of_cut {p q : Text.Octets} {n m : Node} (h : read (p ++ q) = .ok n)
    (hq : ¬ Blank q) (hm : read p = .ok m) : m.isLiteral = true := by
  rcases read_eq_ok.mp h with ⟨v, hv, -⟩
  rcases read_eq_ok.mp hm with ⟨u, hu, hdenotes⟩
  cases hdenotes with
  | object => exact absurd (hu.blank hv) hq
  | _ => rfl

theorem compact_eq_append {n : Node} (h : n.isLiteral = false) :
    ∃ s, Text.octets n.compact = s ++ [Text.Octet.closeBrace] := by
  have hobject : ∀ fields, ∃ s, (Value.object fields).compact = s ++ "\x7d" := by
    intro fields
    rcases fields with _ | ⟨⟨name, v⟩, fields⟩
    · exact ⟨"\x7b", rfl⟩
    · exact ⟨_, rfl⟩
  cases n with
  | literal => cases h
  | branch kind children location =>
    rcases hobject (fieldsJson kind (toJsons children) location) with ⟨s, hs⟩
    refine ⟨Text.octets s, ?_⟩
    rw [compact, toJson, hs, Text.octets_append]
    rfl

/-- No text of a branch without floats is read when its end is missing, and that the end is missing
is all that is wrong with it. -/
theorem read_cut {n : Node} (hbranch : n.isLiteral = false) (hf : n.FloatFree) {p q : Text.Octets}
    (h : Text.octets n.compact = p ++ q) (hq : q ≠ []) : read p = .error .unfinished := by
  have hread : read (p ++ q) = .ok n.settled := by
    rw [← h, ← compact_settled]
    exact read_compact (floatFree_settled hf) n.canonical_settled
  have hblank : ¬ Blank q := by
    rcases compact_eq_append hbranch with ⟨s, hs⟩
    rcases List.eq_nil_or_concat q with rfl | ⟨q', b, rfl⟩
    · exact absurd rfl hq
    · rw [h, List.concat_eq_append, ← List.append_assoc] at hs
      obtain ⟨-, hb⟩ := List.append_inj' hs rfl
      cases hb
      intro hblank
      exact absurd (hblank Text.Octet.closeBrace (by simp)) (by decide)
  have hv : n.toJson.phrase.WrittenAs (p ++ q) := h ▸ writtenAs_compact n.toJson
  rw [read, hv.events_eq] at hread
  rcases Except.bind_eq_ok.mp hread with ⟨built, hbuilt, -⟩
  have hintegral := integral_toJson hf
  have hattentive := Build.readsAttentively n (b := {}) fun _ => ⟨_, rfl⟩
  rw [← Value.tokens_phrase] at hintegral
  rw [← Value.events_phrase] at hattentive
  cases n with
  | literal => cases hbranch
  | branch => exact read_interrupted (hv.interrupted hintegral hblank) hbuilt hattentive

open Text in
/-- A dump that is cut off before the last octet which is no blank is refused as a mistake in its
file. Where it was written from a branch without floats, it is refused because its end is missing,
wherever the cut is. -/
theorem truncation_is_refused (p q : Octets) :
    (∀ (path : String) (n : Node), ofDump path (p ++ q) = .ok n → ¬ Blank q →
      ∃ e, ofDump path p = .error e ∧ e.kind = .parse ∧ e.file = some path) ∧
    ∀ n : Node, n.isLiteral = false → n.FloatFree → octets n.compact = p ++ q → q ≠ [] →
      read p = .error .unfinished := by
  refine ⟨fun path n h hq => ?_, fun n hn hf h hq => read_cut hn hf h hq⟩
  have hread : read (p ++ q) = .ok n := by
    rw [ofDump] at h
    split at h
    · cases h
    · next m hm =>
      split at h
      · cases h
      · cases h
        exact hm
  rw [ofDump]
  cases hp : read p with
  | error problem => exact ⟨_, rfl, rfl, rfl⟩
  | ok m =>
    have hliteral := isLiteral_of_cut hread hq hp
    refine ⟨{ cause := .rootIsLiteral, file := some path }, ?_, rfl, rfl⟩
    simp only [hliteral, if_true]

open Text in
theorem truncation_is_refused_in_number :
    ∃ (n : Node) (p q : Octets), n = .branch none [.literal (.int (-12))] none ∧
      p = octets "\x7b\"children\":[-1" ∧ q = octets "2]\x7d" ∧
      (n.isLiteral = false ∧ n.FloatFree ∧ octets n.compact = p ++ q ∧ q ≠ []) ∧
      (ofDump "ant.rb" (p ++ q) = .ok n ∧ ¬ Blank q) ∧
      (∃ e, ofDump "ant.rb" p = .error e ∧ e.kind = .parse ∧ e.file = some "ant.rb") ∧
      read p = .error .unfinished := by
  let n : Node := .branch none [.literal (.int (-12))] none
  have hf : n.FloatFree := by decide
  have hc : n.Canonical := by decide
  have htext : octets n.compact = octets "\x7b\"children\":[-1" ++ octets "2]\x7d" := by
    decide +kernel
  have hdump : ofDump "ant.rb" (octets "\x7b\"children\":[-1" ++ octets "2]\x7d") = .ok n := by
    rw [← htext, ofDump, read_compact hf hc]
    rfl
  have hq : ¬ Blank (octets "2]\x7d") := by decide
  rcases truncation_is_refused (octets "\x7b\"children\":[-1") (octets "2]\x7d") with
    ⟨hdumps, htexts⟩
  exact ⟨n, _, _, rfl, rfl, rfl, ⟨rfl, hf, htext, by decide⟩, ⟨hdump, hq⟩, hdumps _ n hdump hq,
    htexts n rfl hf htext (by decide)⟩

end Node

end CodeIndex
