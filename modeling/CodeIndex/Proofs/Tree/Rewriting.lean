import CodeIndex.Proofs.Tree.Grammar
import Mathlib.Data.List.Perm.Basic

/-! # Texts of one tree

Many texts are read as one tree. It makes no difference in which order the fields of an object
stand, how texts are escaped, which fields of other names there are, whether a kind or a location is
null or missing, whether children are none or missing, and whether a location is an object or an
array, however deep in the text.
-/

namespace CodeIndex

open Json

namespace Node

def NoField (name : String) (fields : List (Text.Octets × Phrase)) : Prop :=
  ∀ f ∈ fields, ¬ Spells f.1 name

/-- Changes to a location that make no difference. -/
inductive SameLocation : Phrase → Phrase → Prop where
  | refl (v : Phrase) : SameLocation v v
  | symm {v v' : Phrase} (h : SameLocation v v') : SameLocation v' v
  | trans {v v' v'' : Phrase} (h : SameLocation v v') (h' : SameLocation v' v'') :
    SameLocation v v''
  | order {fields fields' : List (Text.Octets × Phrase)} (h : fields.Perm fields') :
    SameLocation (.object fields) (.object fields')
  | name {raw raw' : Text.Octets} {name : String} (v : Phrase)
      (fields : List (Text.Octets × Phrase)) (h : Spells raw name) (h' : Spells raw' name) :
    SameLocation (.object ((raw, v) :: fields)) (.object ((raw', v) :: fields))
  | ignored {raw : Text.Octets} {name : String} (v : Phrase)
      (fields : List (Text.Octets × Phrase)) (h : Spells raw name)
      (hname : Bound.ofName name = .ignored) :
    SameLocation (.object ((raw, v) :: fields)) (.object fields)
  | pair {raw raw' : Text.Octets} (v v' : Phrase) (h : Spells raw "start_line")
      (h' : Spells raw' "end_line") :
    SameLocation (.object [(raw, v), (raw', v')]) (.array [v, v'])

/-- Changes to a phrase that make no difference to the node that it denotes. -/
inductive SameNode : Phrase → Phrase → Prop where
  | refl (v : Phrase) : SameNode v v
  | symm {v v' : Phrase} (h : SameNode v v') : SameNode v' v
  | trans {v v' v'' : Phrase} (h : SameNode v v') (h' : SameNode v' v'') : SameNode v v''
  | string {raw raw' : Text.Octets} {s : String} (h : Spells raw s) (h' : Spells raw' s) :
    SameNode (.string raw) (.string raw')
  | order {fields fields' : List (Text.Octets × Phrase)} (h : fields.Perm fields') :
    SameNode (.object fields) (.object fields')
  | name {raw raw' : Text.Octets} {name : String} (v : Phrase)
      (fields : List (Text.Octets × Phrase)) (h : Spells raw name) (h' : Spells raw' name) :
    SameNode (.object ((raw, v) :: fields)) (.object ((raw', v) :: fields))
  | ignored {raw : Text.Octets} {name : String} (v : Phrase)
      (fields : List (Text.Octets × Phrase)) (h : Spells raw name)
      (hname : Field.ofName name = .ignored) :
    SameNode (.object ((raw, v) :: fields)) (.object fields)
  | kind {key raw raw' : Text.Octets} {s : String} (fields : List (Text.Octets × Phrase))
      (hkey : Spells key "kind") (h : Spells raw s) (h' : Spells raw' s) :
    SameNode (.object ((key, .string raw) :: fields)) (.object ((key, .string raw') :: fields))
  | noKind {key : Text.Octets} {fields : List (Text.Octets × Phrase)} (hkey : Spells key "kind")
      (hfields : NoField "kind" fields) :
    SameNode (.object ((key, .null) :: fields)) (.object fields)
  /-- A change to a child. -/
  | child {key : Text.Octets} {v v' : Phrase} (before after : List Phrase)
      (fields : List (Text.Octets × Phrase)) (hkey : Spells key "children") (h : SameNode v v') :
    SameNode (.object ((key, .array (before ++ v :: after)) :: fields))
      (.object ((key, .array (before ++ v' :: after)) :: fields))
  | noChildren {key : Text.Octets} {fields : List (Text.Octets × Phrase)}
      (hkey : Spells key "children") (hfields : NoField "children" fields) :
    SameNode (.object ((key, .array []) :: fields)) (.object fields)
  | location {key : Text.Octets} {v v' : Phrase} (fields : List (Text.Octets × Phrase))
      (hkey : Spells key "location") (h : SameLocation v v') :
    SameNode (.object ((key, v) :: fields)) (.object ((key, v') :: fields))
  | noLocation {key : Text.Octets} {fields : List (Text.Octets × Phrase)}
      (hkey : Spells key "location") (hfields : NoField "location" fields) :
    SameNode (.object ((key, .null) :: fields)) (.object fields)

/-! ## Orders of fields -/

theorem names_perm {fields fields' : List (Text.Octets × Phrase)} (h : fields.Perm fields')
    {named : List (String × Phrase)} (hnamed : Names fields named) :
    ∃ named', Names fields' named' ∧ named.Perm named' := by
  rcases List.perm_comp_forall₂ h.symm hnamed with ⟨named', hnamed', hperm⟩
  exact ⟨named', hnamed', hperm.symm⟩

theorem filled_perm {R : Phrase → α → Prop} {name : String} {named named' : List (String × Phrase)}
    (h : named.Perm named') {x z : Option α} (hfilled : Filled R x (valuesOf name named) z) :
    Filled R x (valuesOf name named') z := by
  have hvalues : (valuesOf name named).Perm (valuesOf name named') := (h.filter _).map _
  generalize valuesOf name named = vs at hvalues hfilled
  cases hfilled with
  | kept =>
    rw [List.nil_perm.mp hvalues]
    exact .kept x
  | filled hv =>
    rw [← List.singleton_perm.mp hvalues]
    exact .filled hv

theorem once_perm {R : Phrase → α → Prop} {missing x : α} {name : String}
    {named named' : List (String × Phrase)} (h : named.Perm named')
    (honce : Once R missing (valuesOf name named) x) : Once R missing (valuesOf name named') x := by
  rcases once_iff_filled.mp honce with ⟨y, hy, rfl⟩
  exact once_iff_filled.mpr ⟨y, filled_perm h hy, rfl⟩

theorem boundsFilled_perm {named named' : List (String × Phrase)} (h : named.Perm named')
    {start stop start' stop' : Option UInt32} (hb : BoundsFilled start stop named start' stop') :
    BoundsFilled start stop named' start' stop' :=
  ⟨filled_perm h hb.start, filled_perm h hb.stop⟩

/-! ## Locations -/

theorem denotesLocation_object {fields : List (Text.Octets × Phrase)} {location : Option Span} :
    DenotesLocation (.object fields) location ↔
      ∃ s, location = some s ∧ DenotesSpan (.object fields) s := by
  constructor
  · rintro ⟨⟩
    next s h => exact ⟨s, rfl, h⟩
  · rintro ⟨s, rfl, h⟩
    exact .span h

theorem denotesLocation_array {items : List Phrase} {location : Option Span} :
    DenotesLocation (.array items) location ↔
      ∃ s, location = some s ∧ DenotesSpan (.array items) s := by
  constructor
  · rintro ⟨⟩
    next s h => exact ⟨s, rfl, h⟩
  · rintro ⟨s, rfl, h⟩
    exact .span h

/-- A span in terms of its first field, whose name is known. -/
theorem denotesSpan_cons {raw : Text.Octets} {name : String} (hname : Spells raw name)
    {v : Phrase} {fields : List (Text.Octets × Phrase)} {s t : UInt32} :
    DenotesSpan (.object ((raw, v) :: fields)) ⟨s, t⟩ ↔
      ∃ named start stop, Names fields named ∧
        TakesBound none none v start stop (Bound.ofName name) ∧
        BoundsFilled start stop named (some s) (some t) := by
  have hunknown : isKnown none none (Bound.ofName name) = false := by
    cases Bound.ofName name <;> rfl
  rw [denotesSpan_object]
  constructor
  · rintro ⟨_, hnames, hfilled⟩
    rcases names_cons.mp hnames with ⟨name', named, hname', hnamed, rfl⟩
    obtain rfl := hname'.unique hname
    rcases boundsFilled_cons.mp hfilled with ⟨-, start, stop, htakes, hfilled⟩
    exact ⟨named, start, stop, hnamed, htakes, hfilled⟩
  · rintro ⟨named, start, stop, hnamed, htakes, hfilled⟩
    exact ⟨(name, v) :: named, names_cons.mpr ⟨name, named, hname, hnamed, rfl⟩,
      boundsFilled_cons.mpr ⟨hunknown, start, stop, htakes, hfilled⟩⟩

/-- Changes to a location that make no difference do not change the span that it denotes. -/
theorem denotesLocation_same {v v' : Phrase} (h : SameLocation v v') {location : Option Span} :
    DenotesLocation v location ↔ DenotesLocation v' location := by
  have hobject : ∀ {fields fields' : List (Text.Octets × Phrase)},
      (∀ s t, DenotesSpan (.object fields) ⟨s, t⟩ ↔ DenotesSpan (.object fields') ⟨s, t⟩) →
      (DenotesLocation (.object fields) location ↔ DenotesLocation (.object fields') location) := by
    intro fields fields' hspan
    rw [denotesLocation_object, denotesLocation_object]
    exact exists_congr fun s => and_congr_right fun _ => hspan s.start s.stop
  induction h with
  | refl => exact Iff.rfl
  | symm h ih => exact ih.symm
  | trans h h' ih ih' => exact ih.trans ih'
  | order hperm =>
    have hspan : ∀ {fields fields' : List (Text.Octets × Phrase)} {s t}, fields.Perm fields' →
        DenotesSpan (.object fields) ⟨s, t⟩ → DenotesSpan (.object fields') ⟨s, t⟩ := by
      intro fields fields' s t hperm h
      rcases denotesSpan_object.mp h with ⟨named, hnames, hfilled⟩
      rcases names_perm hperm hnames with ⟨named', hnames', hnamed⟩
      exact denotesSpan_object.mpr ⟨named', hnames', boundsFilled_perm hnamed hfilled⟩
    exact hobject fun s t => ⟨hspan hperm, hspan hperm.symm⟩
  | name v fields h h' =>
    apply hobject
    intro s t
    rw [denotesSpan_cons h, denotesSpan_cons h']
  | ignored v fields h hname =>
    apply hobject
    intro s t
    rw [denotesSpan_cons h, denotesSpan_object, hname]
    simp only [TakesBound]
    aesop
  | pair v v' h h' =>
    rw [denotesLocation_object, denotesLocation_array]
    refine exists_congr fun s => and_congr_right fun _ => ?_
    constructor
    · intro hs
      rcases (denotesSpan_cons h).mp hs with ⟨_, _, _, hnames, ⟨w, hw, rfl, rfl⟩, hfilled⟩
      rcases names_cons.mp hnames with ⟨name, _, hname, ⟨⟩, rfl⟩
      obtain rfl := hname.unique h'
      rcases boundsFilled_cons.mp hfilled with ⟨-, _, _, ⟨w', hw', rfl, rfl⟩, hstart, hstop⟩
      cases filled_nil.mp hstart
      cases filled_nil.mp hstop
      exact .pair hw hw'
    · intro hs
      have hnames : Names [(_, v), (_, v')] [("start_line", v), ("end_line", v')] :=
        .cons ⟨h, rfl⟩ (.cons ⟨h', rfl⟩ .nil)
      cases hs with
      | pair hv hv' => exact .object hnames rfl hv rfl hv'

/-! ## Nodes -/

/-- What fields with known names denote. -/
@[mk_iff] inductive DenotesBranch (named : List (String × Phrase)) : Node → Prop where
  | intro {kind : Option String} {children : List Node} {location : Option Span}
      (hkind : Once DenotesKind none (valuesOf "kind" named) kind)
      (hchildren : Once DenotesList [] (valuesOf "children" named) children)
      (hlocation : Once DenotesLocation none (valuesOf "location" named) location) :
      DenotesBranch named (.branch kind children location)

theorem denotes_object_iff {fields : List (Text.Octets × Phrase)} {n : Node} :
    Denotes (.object fields) n ↔ ∃ named, Names fields named ∧ DenotesBranch named n := by
  constructor
  · intro h
    cases h with
    | object hnames hkind hchildren hlocation =>
      exact ⟨_, hnames, .intro hkind hchildren hlocation⟩
  · rintro ⟨named, hnames, ⟨hkind, hchildren, hlocation⟩⟩
    exact .object hnames hkind hchildren hlocation

theorem denotes_cons {raw : Text.Octets} {name : String} (hname : Spells raw name) {v : Phrase}
    {fields : List (Text.Octets × Phrase)} {n : Node} :
    Denotes (.object ((raw, v) :: fields)) n ↔
      ∃ named, Names fields named ∧ DenotesBranch ((name, v) :: named) n := by
  rw [denotes_object_iff]
  constructor
  · rintro ⟨_, hnames, h⟩
    rcases names_cons.mp hnames with ⟨name', named, hname', hnamed, rfl⟩
    obtain rfl := hname'.unique hname
    exact ⟨named, hnamed, h⟩
  · rintro ⟨named, hnamed, h⟩
    exact ⟨_, names_cons.mpr ⟨name, named, hname, hnamed, rfl⟩, h⟩

theorem once_cons {R : Phrase → α → Prop} {missing x : α} {v : Phrase} {vs : List Phrase} :
    Once R missing (v :: vs) x ↔ vs = [] ∧ R v x := by
  constructor
  · rintro ⟨⟩
    next h => exact ⟨rfl, h⟩
  · rintro ⟨rfl, h⟩
    exact .present h

theorem once_nil {R : Phrase → α → Prop} {missing x : α} : Once R missing [] x ↔ x = missing := by
  constructor
  · rintro ⟨⟩
    rfl
  · rintro rfl
    exact .missing

theorem valuesOf_of_noField {name : String} {fields : List (Text.Octets × Phrase)}
    (h : NoField name fields) {named : List (String × Phrase)} (hnamed : Names fields named) :
    valuesOf name named = [] := by
  induction hnamed with
  | nil => rfl
  | cons hf hrest ih =>
    rcases List.forall_mem_cons.mp h with ⟨hfirst, hfields⟩
    rw [valuesOf_cons, if_neg, ih hfields]
    rintro rfl
    exact hfirst hf.1

theorem forall₂_change {v v' : Phrase} (h : ∀ n, Denotes v n → Denotes v' n)
    {before after : List Phrase} {nodes : List Node}
    (hall : List.Forall₂ Denotes (before ++ v :: after) nodes) :
    List.Forall₂ Denotes (before ++ v' :: after) nodes := by
  induction before generalizing nodes with
  | nil =>
    rcases List.forall₂_cons_left_iff.mp hall with ⟨n, nodes, hn, hafter, rfl⟩
    exact .cons (h n hn) hafter
  | cons u before ih =>
    rcases List.forall₂_cons_left_iff.mp hall with ⟨n, nodes, hn, hrest, rfl⟩
    exact .cons hn (ih hrest)

theorem denotesKind_null {kind : Option String} : DenotesKind .null kind ↔ kind = none := by
  constructor
  · rintro ⟨⟩
    rfl
  · rintro rfl
    exact .null

theorem denotesKind_string {raw : Text.Octets} {s : String} (h : Spells raw s)
    {kind : Option String} : DenotesKind (.string raw) kind ↔ kind = some s := by
  constructor
  · rintro ⟨⟩
    next t ht => rw [ht.unique h]
  · rintro rfl
    exact .string h

theorem denotesLocation_null {location : Option Span} :
    DenotesLocation .null location ↔ location = none := by
  constructor
  · rintro ⟨⟩
    · rfl
    next s hs => cases hs
  · rintro rfl
    exact .null

theorem denotesList_array {items : List Phrase} {nodes : List Node} :
    DenotesList (.array items) nodes ↔ List.Forall₂ Denotes items nodes := by
  constructor
  · rintro ⟨h⟩
    exact h
  · exact .array

/-- Changes that make no difference do not change the node that a phrase denotes. -/
theorem denotes_same {v v' : Phrase} (h : SameNode v v') (n : Node) :
    Denotes v n ↔ Denotes v' n := by
  induction h generalizing n with
  | refl => exact Iff.rfl
  | symm h ih => exact (ih n).symm
  | trans h h' ih ih' => exact (ih n).trans (ih' n)
  | string h h' =>
    have hstring : ∀ {raw s}, Spells raw s → (Denotes (.string raw) n ↔ n = .literal (.str s)) := by
      intro raw s h
      constructor
      · intro hn
        cases hn with
        | string hs => rw [hs.unique h]
      · rintro rfl
        exact .string h
    rw [hstring h, hstring h']
  | order hperm =>
    have hfields : ∀ {fields fields' : List (Text.Octets × Phrase)}, fields.Perm fields' →
        Denotes (.object fields) n → Denotes (.object fields') n := by
      intro fields fields' hperm h
      rcases denotes_object_iff.mp h with ⟨named, hnames, ⟨hkind, hchildren, hlocation⟩⟩
      rcases names_perm hperm hnames with ⟨named', hnames', hnamed⟩
      exact .object hnames' (once_perm hnamed hkind) (once_perm hnamed hchildren)
        (once_perm hnamed hlocation)
    exact ⟨hfields hperm, hfields hperm.symm⟩
  | name v fields h h' => rw [denotes_cons h, denotes_cons h']
  | @ignored raw name v fields h hname =>
    have hkind : name ≠ "kind" := by
      rintro rfl
      cases hname
    have hchildren : name ≠ "children" := by
      rintro rfl
      cases hname
    have hlocation : name ≠ "location" := by
      rintro rfl
      cases hname
    simp only [denotes_cons h, denotes_object_iff, denotesBranch_iff, valuesOf_cons, if_neg hkind,
      if_neg hchildren, if_neg hlocation]
  | kind fields hkey h h' =>
    simp [denotes_cons hkey, denotesBranch_iff, valuesOf_cons, once_cons, denotesKind_string h,
      denotesKind_string h']
  | noKind hkey hfields =>
    rw [denotes_cons hkey, denotes_object_iff]
    refine exists_congr fun named => and_congr_right fun hnames => ?_
    simp [denotesBranch_iff, valuesOf_cons, valuesOf_of_noField hfields hnames, once_cons, once_nil,
      denotesKind_null]
  | @child key u u' before after fields hkey h ih =>
    have hlist : ∀ nodes, DenotesList (.array (before ++ u :: after)) nodes ↔
        DenotesList (.array (before ++ u' :: after)) nodes := by
      intro nodes
      rw [denotesList_array, denotesList_array]
      exact ⟨forall₂_change fun n => (ih n).mp, forall₂_change fun n => (ih n).mpr⟩
    simp [denotes_cons hkey, denotesBranch_iff, valuesOf_cons, once_cons, hlist]
  | noChildren hkey hfields =>
    rw [denotes_cons hkey, denotes_object_iff]
    refine exists_congr fun named => and_congr_right fun hnames => ?_
    simp [denotesBranch_iff, valuesOf_cons, valuesOf_of_noField hfields hnames, once_cons, once_nil,
      denotesList_array]
  | location fields hkey h =>
    simp [denotes_cons hkey, denotesBranch_iff, valuesOf_cons, once_cons, denotesLocation_same h]
  | noLocation hkey hfields =>
    rw [denotes_cons hkey, denotes_object_iff]
    refine exists_congr fun named => and_congr_right fun hnames => ?_
    simp [denotesBranch_iff, valuesOf_cons, valuesOf_of_noField hfields hnames, once_cons, once_nil,
      denotesLocation_null]

open Build in
/-- No phrase denotes two nodes. -/
theorem denotes_unique {v : Phrase} {n m : Node} (hn : Denotes v n) (hm : Denotes v m) :
    n = m := by
  have hstart : Build.Waiting {} := fun _ => ⟨_, rfl⟩
  have hread : ∀ {k}, Denotes v k → v.events.foldlM step {} = .ok ⟨[], some k⟩ :=
    fun hk => ((readsNode v).1 hstart).mpr ⟨_, hk, rfl⟩
  have h := (hread hn).symm.trans (hread hm)
  cases h
  rfl

/-- Reading accepts a text exactly if it is that of a phrase which denotes a node, and gives the one
node that this phrase denotes. Texts of phrases that differ only in what makes no difference to a
node are read as the same node. -/
theorem read_follows_grammar :
    (∀ (s : Text.Octets) (n : Node),
      read s = .ok n ↔ ∃ v : Phrase, v.WrittenAs s ∧ Denotes v n) ∧
    (∀ (v : Phrase) (n m : Node), Denotes v n → Denotes v m → n = m) ∧
    ∀ (v v' : Phrase) (s s' : Text.Octets), SameNode v v' → v.WrittenAs s → v'.WrittenAs s' →
      ∀ n, read s = .ok n ↔ read s' = .ok n := by
  refine ⟨fun s n => read_eq_ok, fun v n m => denotes_unique, fun v v' s s' h hs hs' n => ?_⟩
  rw [read_writtenAs hs, read_writtenAs hs', denotes_same h]

open Text in
theorem read_follows_grammar_null_kind :
    ∃ (v v' : Phrase) (s s' : Octets) (n : Node),
      s = octets "\x7b\x7d" ∧ s' = octets " \x7b\"k\\u0069nd\": null \x7d" ∧
      n = .branch none [] none ∧ SameNode v v' ∧ v.WrittenAs s ∧ v'.WrittenAs s' ∧
      Denotes v n ∧ read s = .ok n ∧ read s' = .ok n := by
  let raw : Octets := octets "k\\u0069nd"
  have hraw : Spells raw "kind" :=
    .plain (by decide) (.number (n := 0x69) rfl rfl rfl (.plain (by decide)
      (.plain (by decide) .nil)))
  have hisRaw : IsRaw raw :=
    .plain (by decide) (.number (n := 0x69) rfl (.plain (by decide) (.plain (by decide) .nil)))
  have hsame : SameNode (.object []) (.object [(raw, .null)]) := .symm (.noKind hraw nofun)
  have hs : (Phrase.object []).WrittenAs (octets "\x7b\x7d") :=
    .cons (w := []) nofun .openObject (.cons (w := []) nofun .closeObject (.nil nofun))
  have hs' : (Phrase.object [(raw, .null)]).WrittenAs
      (octets " \x7b\"k\\u0069nd\": null \x7d") := by
    refine .cons (w := [Octet.space]) (by decide) .openObject
      (.cons (w := []) nofun (.string hisRaw) (.cons (w := []) nofun .colon
        (.cons (w := [Octet.space]) (by decide) .null
          (.cons (w := [Octet.space]) (by decide) .closeObject (.nil nofun)))))
  have hn : Denotes (.object []) (.branch none [] none) := .object .nil .missing .missing .missing
  rcases read_follows_grammar with ⟨hread, -, hchanged⟩
  have h := (hread _ _).mpr ⟨_, hs, hn⟩
  have h' := (hchanged _ _ _ _ hsame hs hs' _).mp h
  exact ⟨_, _, _, _, _, rfl, rfl, rfl, hsame, hs, hs', hn, h, h'⟩

end Node

end CodeIndex
