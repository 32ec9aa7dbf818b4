import CodeIndex.Proofs.Decimal.Shortest
import CodeIndex.Proofs.Json.Integer

/-! # Numbers in JSON texts

A number is written as one numeral: digits, at most one point with digits behind it, and at most one
exponent that shows its sign. Only a float that is not finite is written as null. Reading a token
takes all of a numeral, up to whatever does not go on with a number.
-/

namespace CodeIndex.Json

open Text Decimal

/-! ## Spelled numerals -/

namespace Numeral

def fractionOctets : List Nat → Octets
  | [] => []
  | ds => Octet.point :: ds.map digitOctet

def exponentOctets : Option (Bool × List Nat) → Octets
  | none => []
  | some (negative, ds) =>
    Octet.letterE :: (if negative then Octet.minus else Octet.plus) :: ds.map digitOctet

/-- The octets of a numeral without its sign. -/
def magnitudeOctets (n : Numeral) : Octets :=
  n.whole.map digitOctet ++ (fractionOctets n.fraction ++ exponentOctets n.exponent)

/-- The octets of a numeral. A sign stands before a negative one only. -/
def octets (n : Numeral) : Octets :=
  (if n.negative then [Octet.minus] else []) ++ n.magnitudeOctets

/-- Whether a numeral can be spelled: a leading zero stands alone and an exponent has a digit. -/
structure Spellable (n : Numeral) : Prop where
  whole : ∀ d ∈ n.whole, d < 10
  leading : ∃ d ds, n.whole = d :: ds ∧ (d = 0 → ds = [])
  fraction : ∀ d ∈ n.fraction, d < 10
  exponent : ∀ e ∈ n.exponent, e.2 ≠ [] ∧ ∀ d ∈ e.2, d < 10

/-- The octets that may spell an exponent: either letter, a sign unless there is no need for one,
and the digits. -/
inductive ExponentSpelling : Option (Bool × List Nat) → Octets → Prop where
  | absent : ExponentSpelling none []
  | unsigned {letter : UInt8} (hletter : letter = Octet.letterE ∨ letter = Octet.upperE)
      (ds : List Nat) : ExponentSpelling (some (false, ds)) (letter :: ds.map digitOctet)
  | signed {letter : UInt8} (hletter : letter = Octet.letterE ∨ letter = Octet.upperE)
      (negative : Bool) (ds : List Nat) :
      ExponentSpelling (some (negative, ds))
        (letter :: (if negative then Octet.minus else Octet.plus) :: ds.map digitOctet)

theorem exponentSpelling_octets (e : Option (Bool × List Nat)) :
    ExponentSpelling e (exponentOctets e) := by
  cases e with
  | none => exact .absent
  | some e => exact .signed (.inl rfl) e.1 e.2

/-- The octets that may spell a numeral. -/
inductive SpelledBy (n : Numeral) : Octets → Prop where
  | intro {e : Octets} (h : n.Spellable) (he : ExponentSpelling n.exponent e) :
    SpelledBy n ((if n.negative then [Octet.minus] else []) ++
      (n.whole.map digitOctet ++ (fractionOctets n.fraction ++ e)))

theorem spelledBy_octets {n : Numeral} (h : n.Spellable) : n.SpelledBy n.octets :=
  .intro h (exponentSpelling_octets n.exponent)

end Numeral

open Numeral

theorem someDigits_map_digitOctet {ds : List Nat} (hne : ds ≠ []) (hd : ∀ d ∈ ds, d < 10)
    {s : Octets} (hs : EndsDigits s) : someDigits (ds.map digitOctet ++ s) = .whole ds s := by
  unfold someDigits
  rw [digits_map_digitOctet hd hs]
  cases ds with
  | nil => exact absurd rfl hne
  | cons d ds => rfl

theorem endsDigits_exponent {x : Option (Bool × List Nat)} {e : Octets}
    (he : ExponentSpelling x e) {s : Octets} (hs : EndsDigits s) : EndsDigits (e ++ s) := by
  cases he with
  | absent => exact hs
  | unsigned hletter ds | signed hletter negative ds =>
    rintro _ _ ⟨⟩
    rcases hletter with rfl | rfl <;> decide

theorem endsDigits_fractionOctets (ds : List Nat) {s : Octets} (hs : EndsDigits s) :
    EndsDigits (fractionOctets ds ++ s) := by
  cases ds with
  | nil => exact hs
  | cons d ds =>
    rintro _ _ ⟨⟩
    decide

theorem signedDigits_map_digitOctet {negative : Bool} {ds : List Nat} (hne : ds ≠ [])
    (hd : ∀ d ∈ ds, d < 10) {s t : Octets} (hs : EndsDigits s)
    (ht : exponentSign t = (negative, ds.map digitOctet ++ s)) :
    signedDigits t = .whole (some (negative, ds)) s := by
  simp only [signedDigits, ht, someDigits_map_digitOctet hne hd hs]

theorem exponentSign_digitOctet {d : Nat} (hd : d < 10) (s : Octets) :
    exponentSign (digitOctet d :: s) = (false, digitOctet d :: s) := by
  interval_cases d <;> rfl

theorem exponent_spelling {x : Option (Bool × List Nat)} {e : Octets}
    (he : ExponentSpelling x e) (hx : ∀ y ∈ x, y.2 ≠ [] ∧ ∀ d ∈ y.2, d < 10) {s : Octets}
    (hs : EndsNumber s) : exponent (e ++ s) = .whole x s := by
  have hletter : ∀ {letter}, letter = Octet.letterE ∨ letter = Octet.upperE →
      ∀ t, exponent (letter :: t) = signedDigits t := by
    intro letter hletter t
    rcases hletter with rfl | rfl <;> rfl
  cases he with
  | absent => exact exponent_of_endsNumber hs
  | unsigned h ds =>
    rcases hx _ rfl with ⟨hne, hd⟩
    rw [List.cons_append, hletter h]
    apply signedDigits_map_digitOctet hne hd hs.endsDigits
    cases ds with
    | nil => exact absurd rfl hne
    | cons d ds => exact exponentSign_digitOctet (hd d List.mem_cons_self) _
  | signed h negative ds =>
    rcases hx _ rfl with ⟨hne, hd⟩
    rw [List.cons_append, hletter h]
    apply signedDigits_map_digitOctet hne hd hs.endsDigits
    cases negative <;> rfl

/-- What follows the digits before the point is a fraction, if it begins with the point. -/
theorem fraction_fractionOctets {ds : List Nat} (hd : ∀ d ∈ ds, d < 10)
    {x : Option (Bool × List Nat)} {e : Octets} (he : ExponentSpelling x e) {s : Octets}
    (hs : EndsNumber s) : fraction (fractionOctets ds ++ (e ++ s)) = .whole ds (e ++ s) := by
  cases ds with
  | cons d ds =>
    exact someDigits_map_digitOctet (List.cons_ne_nil d ds) hd
      (endsDigits_exponent he hs.endsDigits)
  | nil =>
    cases he with
    | absent => exact fraction_of_endsNumber hs
    | unsigned hletter | signed hletter => rcases hletter with rfl | rfl <;> rfl

theorem numeral_spelling {n : Numeral} (h : n.Spellable) {e : Octets}
    (he : ExponentSpelling n.exponent e) {s : Octets} (hs : EndsNumber s) :
    numeral n.negative (n.whole.map digitOctet ++ (fractionOctets n.fraction ++ e) ++ s) =
      .whole n s := by
  obtain ⟨d, ds, hwhole, hzero⟩ := h.leading
  have hends := endsDigits_fractionOctets n.fraction (endsDigits_exponent he hs.endsDigits)
  have hall := h.whole
  rw [hwhole] at hall
  simp only [List.append_assoc, numeral, hwhole, wholePart_map_digitOctet hall hzero hends,
    fraction_fractionOctets h.fraction he hs, exponent_spelling he h.exponent hs]
  obtain ⟨negative, whole, fraction, exponent⟩ := n
  rw [← hwhole]

/-- The octets of a numeral are a first octet, which is no blank, and others behind it, and reading
a token takes all of them. -/
theorem scanToken_numeral {n : Numeral} {bs : Octets} (h : n.SpelledBy bs) :
    ∃ b bs', bs = b :: bs' ∧ isBlank b = false ∧
      ∀ s, EndsNumber s → scanToken b (bs' ++ s) = (.number n, s) := by
  rcases h with @⟨e, h, he⟩
  obtain ⟨d, ds, hwhole, -⟩ := h.leading
  have hlt : d < 10 := h.whole d (hwhole ▸ List.mem_cons_self)
  have hnum := fun s hs => numeral_spelling h he (s := s) hs
  cases hneg : n.negative with
  | true =>
    refine ⟨Octet.minus, n.whole.map digitOctet ++ (fractionOctets n.fraction ++ e), rfl, rfl,
      fun s hs => ?_⟩
    have hnum := hnum s hs
    rw [hneg] at hnum
    change scanToken.number (numeral true _) = _
    rw [hnum]
    rfl
  | false =>
    rw [hwhole]
    refine ⟨digitOctet d, ds.map digitOctet ++ (fractionOctets n.fraction ++ e), rfl, ?_,
      fun s hs => ?_⟩
    · interval_cases d <;> rfl
    · have hnum := hnum s hs
      rw [hneg, hwhole, List.map_cons, List.cons_append, List.cons_append] at hnum
      rw [scanToken_digitOctet hlt, hnum]
      rfl

/-! ## Decimals -/

theorem octetsOf_map_digitChar {ds : List Nat} (hd : ∀ d ∈ ds, d < 10) :
    octetsOf (ds.map digitChar) = ds.map digitOctet := by
  induction ds with
  | nil => rfl
  | cons d ds ih =>
    have hlt : d < 10 := hd d List.mem_cons_self
    have hchar : String.utf8EncodeChar (digitChar d) = [digitOctet d] := by
      interval_cases d <;> rfl
    rw [List.map_cons, octetsOf_cons, hchar, ih fun e he => hd e (List.mem_cons_of_mem d he)]
    rfl

theorem octetsOf_point_map_digitChar {ds : List Nat} (hne : ds ≠ []) (hd : ∀ d ∈ ds, d < 10) :
    octetsOf ('.' :: ds.map digitChar) = fractionOctets ds := by
  rw [octetsOf_cons, octetsOf_map_digitChar hd]
  cases ds with
  | nil => exact absurd rfl hne
  | cons d ds => rfl

/-- The digits in front of an exponent, with a point behind the first one if there are others. -/
theorem octetsOf_mantissa {d : Nat} {ds : List Nat} (hd : ∀ e ∈ d :: ds, e < 10) :
    octetsOf (match (d :: ds).map digitChar with
      | [] => []
      | [c] => [c]
      | c :: rest => c :: '.' :: rest) = digitOctet d :: fractionOctets ds := by
  have hfirst : octetsOf ([d].map digitChar) = [d].map digitOctet :=
    octetsOf_map_digitChar (by simpa using hd d List.mem_cons_self)
  cases ds with
  | nil => exact hfirst
  | cons e es =>
    have hrest := octetsOf_point_map_digitChar (List.cons_ne_nil e es)
      fun a ha => hd a (List.mem_cons_of_mem d ha)
    change octetsOf ([d].map digitChar ++ '.' :: (e :: es).map digitChar) = _
    rw [octetsOf_append, hfirst, hrest]
    rfl

/-- The numeral by which a positive decimal is written, given the sign in front of it. -/
def numeralOfDecimal (negative : Bool) (x : Scientific) : Numeral :=
  if 0 ≤ x.exponent ∧ x.exponent ≤ 15 then
    let places := x.exponent.toNat + 1
    { negative
      whole := (x.digits ++ List.replicate (places - x.digits.length) 0).take places
      fraction := if x.digits.length ≤ places then [0] else x.digits.drop places
      exponent := none }
  else if -5 ≤ x.exponent ∧ x.exponent < 0 then
    { negative
      whole := [0]
      fraction := List.replicate (-x.exponent - 1).toNat 0 ++ x.digits
      exponent := none }
  else
    { negative
      whole := x.digits.take 1
      fraction := x.digits.drop 1
      exponent := some (decide (x.exponent < 0), digitsOf x.exponent.natAbs) }

theorem spellable_numeralOfDecimal (negative : Bool) {x : Scientific} (h : x.Normal) :
    (numeralOfDecimal negative x).Spellable := by
  obtain ⟨d, ds, hdigits, hne⟩ := h.leading
  have hpadded : ∀ k, ∀ e ∈ x.digits ++ List.replicate k 0, e < 10 := by
    intro k e he
    rcases List.mem_append.mp he with he | he
    · exact h.digits e he
    · rw [List.eq_of_mem_replicate he]
      decide
  unfold numeralOfDecimal
  split
  · refine ⟨fun e he => hpadded _ e (List.mem_of_mem_take he), ?_, ?_, nofun⟩
    · simp only [hdigits, List.cons_append, List.take_succ_cons]
      exact ⟨d, _, rfl, fun hzero => absurd hzero hne⟩
    · intro e he
      dsimp only at he
      split at he
      · rw [List.mem_singleton.mp he]
        decide
      · exact h.digits e (List.mem_of_mem_drop he)
  split
  · refine ⟨fun e he => ?_, ⟨0, [], rfl, fun _ => rfl⟩, fun e he => ?_, nofun⟩
    · rw [List.mem_singleton.mp he]
      decide
    · rcases List.mem_append.mp he with he | he
      · rw [List.eq_of_mem_replicate he]
        decide
      · exact h.digits e he
  · have hone : x.digits.take 1 = [d] := by
      rw [hdigits]
      rfl
    refine ⟨fun e he => h.digits e (List.mem_of_mem_take he), ⟨d, [], hone, fun _ => rfl⟩,
      fun e he => h.digits e (List.mem_of_mem_drop he), ?_⟩
    rintro _ ⟨⟩
    obtain ⟨e, es, hexponent, -⟩ := digitsOf_eq_cons x.exponent.natAbs
    exact ⟨by rw [hexponent]; exact List.cons_ne_nil e es, fun _ => lt_of_mem_digitsOf⟩

theorem octets_decimalText (negative : Bool) {x : Scientific} (h : x.Normal) :
    octets (decimalText x) = (numeralOfDecimal negative x).magnitudeOctets := by
  have hspell := spellable_numeralOfDecimal negative h
  obtain ⟨d, ds, hdigits, -⟩ := h.leading
  unfold numeralOfDecimal at hspell ⊢
  unfold decimalText
  dsimp only at hspell ⊢
  split
  · next hplain =>
    rw [if_pos hplain] at hspell
    generalize x.exponent.toNat + 1 = places at hspell ⊢
    have hwhole : (x.digits.map digitChar ++
        List.replicate (places - (x.digits.map digitChar).length) '0').take places =
          ((x.digits ++ List.replicate (places - x.digits.length) 0).take places).map
            digitChar := by
      rw [List.map_take, List.map_append, List.map_replicate, List.length_map]
      rfl
    have hfraction : (if (x.digits.map digitChar).length ≤ places then ['0']
        else (x.digits.map digitChar).drop places) =
          (if x.digits.length ≤ places then [0] else x.digits.drop places).map digitChar := by
      rw [List.length_map, apply_ite (List.map digitChar), List.map_drop]
      rfl
    have hne : (if x.digits.length ≤ places then [0] else x.digits.drop places) ≠ [] := by
      split
      · exact List.cons_ne_nil 0 []
      · next hlt =>
        rw [Ne, List.drop_eq_nil_iff]
        exact hlt
    rw [octets_ofList, octetsOf_append, hwhole, hfraction, octetsOf_map_digitChar hspell.whole,
      octetsOf_point_map_digitChar hne hspell.fraction]
    simp only [magnitudeOctets, exponentOctets, List.append_nil]
  · next hplain =>
    rw [if_neg hplain] at hspell
    split
    · next hsmall =>
      rw [if_pos hsmall] at hspell
      generalize (-x.exponent - 1).toNat = zeros at hspell ⊢
      have hdecimals : List.replicate zeros '0' ++ x.digits.map digitChar =
          (List.replicate zeros 0 ++ x.digits).map digitChar := by
        rw [List.map_append, List.map_replicate]
        rfl
      have hne : List.replicate zeros 0 ++ x.digits ≠ [] := by
        rw [hdigits]
        exact List.append_ne_nil_of_right_ne_nil _ (List.cons_ne_nil d ds)
      rw [octets_ofList, octetsOf_cons, hdecimals, octetsOf_point_map_digitChar hne hspell.fraction]
      simp only [magnitudeOctets, exponentOctets, List.append_nil]
      rfl
    · next hsmall =>
      rw [if_neg hsmall] at hspell
      have hall : ∀ e ∈ d :: ds, e < 10 := hdigits ▸ h.digits
      have hsign : octetsOf ['e', if x.exponent < 0 then '-' else '+'] =
          [Octet.letterE, if x.exponent < 0 then Octet.minus else Octet.plus] := by
        split <;> rfl
      rw [octets_append, octets_ofList, octetsOf_append, hsign, hdigits, Nat.toString_eq_repr,
        octets_repr]
      refine (congrArg (· ++ _ ++ _) (octetsOf_mantissa hall)).trans ?_
      simp [magnitudeOctets, exponentOctets]

/-! ## Numbers -/

/-- The numeral by which a float is written; `none` when it is written as null. -/
def numeralOfFloat? (x : Float) : Option Numeral :=
  let negative := x.toBits >>> 63 == 1
  match shortest? x with
  | some d => some (numeralOfDecimal negative d)
  | none => if x == 0 then some ⟨negative, [0], [0], none⟩ else none

def Number.numeral? : Number → Option Numeral
  | .int n => some (numeralOf n)
  | .float x => numeralOfFloat? x

theorem spellable_numeralOf (n : Int) : (numeralOf n).Spellable := by
  obtain ⟨d, ds, hdigits, hzero⟩ := digitsOf_eq_cons n.natAbs
  exact ⟨fun _ => lt_of_mem_digitsOf, ⟨d, ds, hdigits, hzero⟩, nofun, nofun⟩

theorem spellable_numeral? {x : Number} {n : Numeral} (h : x.numeral? = some n) :
    n.Spellable := by
  cases x with
  | int i =>
    cases h
    exact spellable_numeralOf i
  | float x =>
    unfold Number.numeral? numeralOfFloat? at h
    dsimp only at h
    split at h
    · next d hd =>
      cases h
      exact spellable_numeralOfDecimal _ (normal_of_shortest? hd)
    split at h
    · cases h
      exact ⟨by simp, ⟨0, [], rfl, fun _ => rfl⟩, by simp, nofun⟩
    · cases h

theorem octets_toString_int (n : Int) : octets (toString n) = (numeralOf n).octets := by
  rw [Int.toString_eq_repr, Int.repr_eq_if]
  unfold Numeral.octets magnitudeOctets numeralOf
  split
  · next hpos =>
    have hm : n.toNat = n.natAbs := by omega
    rw [octets_repr, hm]
    simp [fractionOctets, exponentOctets, Int.not_lt.mpr hpos]
  · next hneg =>
    have hm : (-n).toNat = n.natAbs := by omega
    have hminus : octets "-" = [Octet.minus] := rfl
    rw [octets_append, hminus, octets_repr, hm]
    simp [fractionOctets, exponentOctets, Int.not_le.mp hneg]

theorem negative_numeralOfDecimal (negative : Bool) (x : Scientific) :
    (numeralOfDecimal negative x).negative = negative := by
  unfold numeralOfDecimal
  dsimp only
  split
  · rfl
  split <;> rfl

theorem octets_floatText (x : Float) :
    octets (floatText x) = match numeralOfFloat? x with
      | some n => n.octets
      | none => octets "null" := by
  unfold floatText numeralOfFloat?
  generalize (x.toBits >>> 63 == 1) = negative
  dsimp only
  cases hd : shortest? x with
  | some d =>
    dsimp only
    rw [octets_append, octets_decimalText negative (normal_of_shortest? hd), Numeral.octets,
      negative_numeralOfDecimal]
    cases negative <;> rfl
  | none =>
    dsimp only
    split
    · cases negative <;> rfl
    · rfl

/-- A number is written as the octets of its numeral, or as null. -/
theorem octets_text (x : Number) :
    octets x.text = match x.numeral? with
      | some n => n.octets
      | none => octets "null" := by
  cases x with
  | int n => exact octets_toString_int n
  | float x => exact octets_floatText x

end CodeIndex.Json
