import CodeIndex.Proofs.Json.Meaning
import CodeIndex.Proofs.Json.Phrase
import CodeIndex.Tree.Reader
import Mathlib.Data.List.Forall2

/-! # What phrases denote

A phrase denotes a node if it is a scalar, or an object in which none of the fields that make a
branch is repeated and each of them has a value of its sort. The names of all fields have to spell
texts, and fields of other names may have any values.
-/

namespace CodeIndex

open Json

namespace Node

abbrev Names (fields : List (Text.Octets × Phrase)) (named : List (String × Phrase)) : Prop :=
  List.Forall₂ (fun f g => Spells f.1 g.1 ∧ f.2 = g.2) fields named

def valuesOf (name : String) (named : List (String × Phrase)) : List Phrase :=
  (named.filter (·.1 == name)).map (·.2)

/-- What the values of a field are that may be missing but not be repeated. -/
inductive Once {α : Type} (R : Phrase → α → Prop) (missing : α) : List Phrase → α → Prop where
  | missing : Once R missing [] missing
  | present {v : Phrase} {x : α} (h : R v x) : Once R missing [v] x

inductive DenotesKind : Phrase → Option String → Prop where
  | null : DenotesKind .null none
  | string {raw : Text.Octets} {s : String} (h : Spells raw s) : DenotesKind (.string raw) (some s)

/-- Whether a phrase is the number of a line. -/
inductive DenotesLine : Phrase → UInt32 → Prop where
  | number {n : Numeral} {w : UInt32} (h : n.IsInt w.toNat) : DenotesLine (.number n) w

/-- A span is an object with each bound exactly once, or an array of exactly both. -/
inductive DenotesSpan : Phrase → Span → Prop where
  | object {fields : List (Text.Octets × Phrase)} {named : List (String × Phrase)}
      {v v' : Phrase} {start stop : UInt32} (hnames : Names fields named)
      (hstart : valuesOf "start_line" named = [v]) (hv : DenotesLine v start)
      (hstop : valuesOf "end_line" named = [v']) (hv' : DenotesLine v' stop) :
      DenotesSpan (.object fields) ⟨start, stop⟩
  | pair {v v' : Phrase} {start stop : UInt32} (hv : DenotesLine v start)
      (hv' : DenotesLine v' stop) : DenotesSpan (.array [v, v']) ⟨start, stop⟩

inductive DenotesLocation : Phrase → Option Span → Prop where
  | null : DenotesLocation .null none
  | span {v : Phrase} {s : Span} (h : DenotesSpan v s) : DenotesLocation v (some s)

mutual

inductive Denotes : Phrase → Node → Prop where
  | null : Denotes .null (.literal .nil)
  | bool (b : Bool) : Denotes (.bool b) (.literal (.bool b))
  | number {n : Numeral} {x : Number} (h : n.Denotes x) :
    Denotes (.number n) (.literal (.ofNumber x))
  | string {raw : Text.Octets} {s : String} (h : Spells raw s) :
    Denotes (.string raw) (.literal (.str s))
  | object {fields : List (Text.Octets × Phrase)} {named : List (String × Phrase)}
      {kind : Option String} {children : List Node} {location : Option Span}
      (hnames : Names fields named)
      (hkind : Once DenotesKind none (valuesOf "kind" named) kind)
      (hchildren : Once DenotesList [] (valuesOf "children" named) children)
      (hlocation : Once DenotesLocation none (valuesOf "location" named) location) :
      Denotes (.object fields) (.branch kind children location)

/-- Whether a phrase is an array of phrases that denote nodes. -/
inductive DenotesList : Phrase → List Node → Prop where
  | array {items : List Phrase} {nodes : List Node} (h : List.Forall₂ Denotes items nodes) :
    DenotesList (.array items) nodes

end

/-! ## Fields that may stand once -/

theorem names_cons {raw : Text.Octets} {v : Phrase} {fields : List (Text.Octets × Phrase)}
    {named : List (String × Phrase)} :
    Names ((raw, v) :: fields) named ↔
      ∃ name named', Spells raw name ∧ Names fields named' ∧ named = (name, v) :: named' := by
  constructor
  · rintro (_ | ⟨⟨hname, rfl⟩, h⟩)
    exact ⟨_, _, hname, h, rfl⟩
  · rintro ⟨name, named', hname, h, rfl⟩
    exact .cons ⟨hname, rfl⟩ h

/-- What becomes of a place for the value of a field that may be read once, when the values of all
fields of its name are read. -/
inductive Filled {α : Type} (R : Phrase → α → Prop) : Option α → List Phrase → Option α → Prop where
  | kept (x : Option α) : Filled R x [] x
  | filled {v : Phrase} {x : α} (h : R v x) : Filled R none [v] (some x)

theorem filled_nil {R : Phrase → α → Prop} {x y : Option α} : Filled R x [] y ↔ y = x := by
  constructor
  · rintro ⟨⟩
    rfl
  · rintro rfl
    exact .kept y

theorem filled_cons {R : Phrase → α → Prop} {v : Phrase} {vs : List Phrase} {x z : Option α} :
    Filled R x (v :: vs) z ↔ x = none ∧ ∃ y, R v y ∧ Filled R (some y) vs z := by
  constructor
  · rintro ⟨⟩
    next y h => exact ⟨rfl, y, h, .kept _⟩
  · rintro ⟨rfl, y, h, ⟨⟩⟩
    exact .filled h

theorem once_iff_filled {R : Phrase → α → Prop} {missing x : α} {vs : List Phrase} :
    Once R missing vs x ↔ ∃ y, Filled R none vs y ∧ x = y.getD missing := by
  constructor
  · rintro (_ | h)
    · exact ⟨none, .kept none, rfl⟩
    · exact ⟨_, .filled h, rfl⟩
  · rintro ⟨y, (_ | h), rfl⟩
    · exact .missing
    · exact .present h

theorem valuesOf_cons (name other : String) (v : Phrase) (named : List (String × Phrase)) :
    valuesOf name ((other, v) :: named) =
      if other = name then v :: valuesOf name named else valuesOf name named := by
  by_cases h : other = name <;> simp [valuesOf, h]

/-- The first of some fields is read if it has the name, and passed over if it has not. -/
theorem filled_named {R : Phrase → α → Prop} {name other : String} {v : Phrase}
    {named : List (String × Phrase)} {x z : Option α} :
    Filled R x (valuesOf name ((other, v) :: named)) z ↔
      if other = name then x = none ∧ ∃ y, R v y ∧ Filled R (some y) (valuesOf name named) z
      else Filled R x (valuesOf name named) z := by
  rw [valuesOf_cons]
  split
  · exact filled_cons
  · exact Iff.rfl

/-! ## Spans -/

/-- The bounds of a span that are known when some fields have been read. -/
@[mk_iff] structure BoundsFilled (start stop : Option UInt32) (named : List (String × Phrase))
    (start' stop' : Option UInt32) : Prop where
  start : Filled DenotesLine start (valuesOf "start_line" named) start'
  stop : Filled DenotesLine stop (valuesOf "end_line" named) stop'

/-- What reading a value does for the bound that it is the value of. -/
def TakesBound (start stop : Option UInt32) (v : Phrase) (start' stop' : Option UInt32) :
    Bound → Prop
  | .start => ∃ w, DenotesLine v w ∧ start' = some w ∧ stop' = stop
  | .stop => ∃ w, DenotesLine v w ∧ start' = start ∧ stop' = some w
  | .ignored => start' = start ∧ stop' = stop

/-- Whether a bound is known that may not be repeated. -/
def isKnown (start stop : Option UInt32) : Bound → Bool
  | .start => start.isSome
  | .stop => stop.isSome
  | .ignored => false

theorem boundsFilled_cons {start stop start'' stop'' : Option UInt32} {name : String} {v : Phrase}
    {named : List (String × Phrase)} :
    BoundsFilled start stop ((name, v) :: named) start'' stop'' ↔
      isKnown start stop (Bound.ofName name) = false ∧
        ∃ start' stop', TakesBound start stop v start' stop' (Bound.ofName name) ∧
          BoundsFilled start' stop' named start'' stop'' := by
  simp only [boundsFilled_iff, filled_named]
  by_cases hstart : name = "start_line"
  · subst hstart
    have hbound : Bound.ofName "start_line" = .start := rfl
    simp only [hbound, TakesBound, isKnown, Option.isSome_eq_false_iff, Option.isNone_iff_eq_none]
    aesop
  by_cases hstop : name = "end_line"
  · subst hstop
    have hbound : Bound.ofName "end_line" = .stop := rfl
    simp only [hbound, TakesBound, isKnown, Option.isSome_eq_false_iff, Option.isNone_iff_eq_none]
    aesop
  · have hbound : Bound.ofName name = .ignored := by
      unfold Bound.ofName
      split <;> first | contradiction | rfl
    simp only [hbound, TakesBound, isKnown, if_neg hstart, if_neg hstop]
    aesop

theorem denotesSpan_object {fields : List (Text.Octets × Phrase)} {s t : UInt32} :
    DenotesSpan (.object fields) ⟨s, t⟩ ↔
      ∃ named, Names fields named ∧ BoundsFilled none none named (some s) (some t) := by
  have hone : ∀ {vs : List Phrase} {w : UInt32}, Filled DenotesLine none vs (some w) ↔
      ∃ v, vs = [v] ∧ DenotesLine v w := by
    intro vs w
    constructor
    · rintro ⟨⟩
      next v h => exact ⟨v, rfl, h⟩
    · rintro ⟨v, rfl, h⟩
      exact .filled h
  constructor
  · rintro ⟨hnames, hstart, hv, hstop, hv'⟩
    exact ⟨_, hnames, hone.mpr ⟨_, hstart, hv⟩, hone.mpr ⟨_, hstop, hv'⟩⟩
  · rintro ⟨named, hnames, hs, ht⟩
    rcases hone.mp hs with ⟨v, hstart, hv⟩
    rcases hone.mp ht with ⟨v', hstop, hv'⟩
    exact .object hnames hstart hv hstop hv'

/-! ## Branches -/

/-- The fields of a branch that are known when some fields have been read. -/
@[mk_iff] structure DraftFilled (d : Draft) (named : List (String × Phrase)) (d' : Draft) :
    Prop where
  kind : Filled DenotesKind d.kind (valuesOf "kind" named) d'.kind
  children : Filled DenotesList d.children (valuesOf "children" named) d'.children
  location : Filled DenotesLocation d.location (valuesOf "location" named) d'.location

/-- What reading a value does for the field that it is the value of. -/
def TakesField (d : Draft) (v : Phrase) (d' : Draft) : Field → Prop
  | .kind => ∃ kind, DenotesKind v kind ∧ d' = { d with kind := some kind }
  | .children => ∃ nodes, DenotesList v nodes ∧ d' = { d with children := some nodes }
  | .location => ∃ location, DenotesLocation v location ∧ d' = { d with location := some location }
  | .ignored => d' = d

theorem draftFilled_cons {d d'' : Draft} {name : String} {v : Phrase}
    {named : List (String × Phrase)} :
    DraftFilled d ((name, v) :: named) d'' ↔ d.has (Field.ofName name) = false ∧
      ∃ d', TakesField d v d' (Field.ofName name) ∧ DraftFilled d' named d'' := by
  simp only [draftFilled_iff, filled_named]
  by_cases hkind : name = "kind"
  · subst hkind
    have hfield : Field.ofName "kind" = .kind := rfl
    simp only [hfield, TakesField, Draft.has, Option.isSome_eq_false_iff, Option.isNone_iff_eq_none]
    aesop
  by_cases hchildren : name = "children"
  · subst hchildren
    have hfield : Field.ofName "children" = .children := rfl
    simp only [hfield, TakesField, Draft.has, Option.isSome_eq_false_iff, Option.isNone_iff_eq_none]
    aesop
  by_cases hlocation : name = "location"
  · subst hlocation
    have hfield : Field.ofName "location" = .location := rfl
    simp only [hfield, TakesField, Draft.has, Option.isSome_eq_false_iff, Option.isNone_iff_eq_none]
    aesop
  · have hfield : Field.ofName name = .ignored := by
      unfold Field.ofName
      split <;> first | contradiction | rfl
    simp only [hfield, TakesField, if_neg hkind, if_neg hchildren, if_neg hlocation, Draft.has]
    aesop

theorem denotes_object {fields : List (Text.Octets × Phrase)} {n : Node} :
    Denotes (.object fields) n ↔
      ∃ named d, Names fields named ∧ DraftFilled {} named d ∧ n = d.toNode := by
  constructor
  · intro h
    cases h with
    | object hnames hkind hchildren hlocation =>
      rcases once_iff_filled.mp hkind with ⟨kind, hk, rfl⟩
      rcases once_iff_filled.mp hchildren with ⟨children, hc, rfl⟩
      rcases once_iff_filled.mp hlocation with ⟨location, hl, rfl⟩
      refine ⟨_, ⟨kind, children, location⟩, hnames, ⟨hk, hc, hl⟩, ?_⟩
      cases kind <;> cases location <;> rfl
  · rintro ⟨named, d, hnames, ⟨hkind, hchildren, hlocation⟩, rfl⟩
    refine .object hnames (once_iff_filled.mpr ⟨_, hkind, ?_⟩)
      (once_iff_filled.mpr ⟨_, hchildren, rfl⟩) (once_iff_filled.mpr ⟨_, hlocation, ?_⟩)
    · cases d.kind <;> rfl
    · cases d.location <;> rfl

end Node

end CodeIndex
