import CodeIndex.Json.Event
import CodeIndex.Json.Value
import CodeIndex.Proofs.Text.Octets
import Mathlib.Tactic.IntervalCases

/-! # Integers in JSON texts

An integer is written with its decimal digits, without a leading zero and with a minus where it is
negative. Reading takes these digits up to whatever is none, and their value is the integer when it
has at most 64 bits.
-/

namespace CodeIndex.Json

open Text Decimal

def digitOctet (d : Nat) : UInt8 := UInt8.ofNat (48 + d)

def numeralOf (n : Int) : Numeral :=
  ⟨decide (n < 0), digitsOf n.natAbs, [], none⟩

/-! ## Digits -/

theorem digit?_digitOctet {d : Nat} (h : d < 10) : Octet.digit? (digitOctet d) = some d := by
  interval_cases d <;> rfl

theorem lt_of_mem_digitsOf {n d : Nat} (h : d ∈ digitsOf n) : d < 10 := by
  obtain ⟨c, hc, rfl⟩ := List.mem_map.mp h
  have hd := Nat.isDigit_of_mem_toDigits (by decide) (by decide) hc
  simp only [Char.isDigit, Bool.and_eq_true, decide_eq_true_eq] at hd
  have hle : c.toNat ≤ 57 := hd.2
  omega

theorem octetsOf_toDigits (n : Nat) :
    octetsOf (Nat.toDigits 10 n) = (digitsOf n).map digitOctet := by
  have h : ∀ cs : List Char, (∀ c ∈ cs, c.isDigit) →
      octetsOf cs = (cs.map fun c => c.toNat - 48).map digitOctet := by
    intro cs
    induction cs with
    | nil => simp
    | cons c cs ih =>
      intro hcs
      have hc := hcs c List.mem_cons_self
      simp only [Char.isDigit, Bool.and_eq_true, decide_eq_true_eq] at hc
      have hl : 48 ≤ c.toNat := hc.1
      have hu : c.toNat ≤ 57 := hc.2
      rw [octetsOf_cons, utf8EncodeChar_of_lt (by omega),
        ih fun d hd => hcs d (List.mem_cons_of_mem _ hd)]
      simp [digitOctet, Nat.add_sub_cancel' hl]
  exact h _ fun c hc => Nat.isDigit_of_mem_toDigits (by decide) (by decide) hc

theorem natOfDigits_digitsOf (n : Nat) : natOfDigits (digitsOf n) = n := by
  rw [natOfDigits, digitsOf, List.foldl_map]
  exact Nat.ofDigitChars_ten_toDigits

theorem digitsOf_of_lt {n : Nat} (h : n < 10) : digitsOf n = [n] := by
  rw [digitsOf, Nat.toDigits_of_lt_base h, List.map_singleton,
    Nat.toNat_digitChar_sub_48_of_lt_ten h]

theorem digitsOf_of_le {n : Nat} (h : 10 ≤ n) : digitsOf n = digitsOf (n / 10) ++ [n % 10] := by
  rw [digitsOf, Nat.toDigits_of_base_le (by decide) h, List.map_append, List.map_singleton,
    Nat.toNat_digitChar_sub_48_of_lt_ten (Nat.mod_lt n (by decide))]
  rfl

theorem digitsOf_eq_cons (n : Nat) : ∃ d ds, digitsOf n = d :: ds ∧ (d = 0 → ds = []) := by
  induction n using Nat.strongRecOn with
  | ind n ih =>
    rcases Nat.lt_or_ge n 10 with h | h
    · exact ⟨n, [], digitsOf_of_lt h, fun _ => rfl⟩
    · obtain ⟨d, ds, hd, hz⟩ := ih (n / 10) (by omega)
      refine ⟨d, ds ++ [n % 10], by rw [digitsOf_of_le h, hd, List.cons_append], fun h0 => ?_⟩
      have hv := natOfDigits_digitsOf (n / 10)
      rw [hd, h0, hz h0] at hv
      simp only [natOfDigits, List.foldl_cons, List.foldl_nil] at hv
      omega

/-! ## Reading -/

/-- Whether nothing stands at the front that could go on with a number. -/
def EndsNumber (s : Octets) : Prop :=
  ∀ b rest, s = b :: rest →
    Octet.digit? b = none ∧ b ≠ Octet.point ∧ b ≠ Octet.letterE ∧ b ≠ Octet.upperE

theorem endsNumber_nil : EndsNumber [] := by
  intro b rest h
  cases h

theorem endsNumber_cons {b : UInt8} {rest : Octets}
    (h : b = Octet.comma ∨ b = Octet.closeBracket ∨ b = Octet.closeBrace) :
    EndsNumber (b :: rest) := by
  rintro _ _ ⟨⟩
  rcases h with rfl | rfl | rfl <;> decide

def EndsDigits (s : Octets) : Prop :=
  ∀ b rest, s = b :: rest → Octet.digit? b = none

theorem EndsNumber.endsDigits {s : Octets} (h : EndsNumber s) : EndsDigits s :=
  fun b rest hs => (h b rest hs).1

theorem digits_map_digitOctet {ds : List Nat} {s : Octets} (hd : ∀ d ∈ ds, d < 10)
    (hs : EndsDigits s) : digits (ds.map digitOctet ++ s) = (ds, s) := by
  induction ds with
  | nil =>
    cases s with
    | nil => rfl
    | cons b rest => simp [digits, hs b rest rfl]
  | cons d ds ih =>
    have hlt := hd d List.mem_cons_self
    simp [digits, digit?_digitOctet hlt, ih fun e he => hd e (List.mem_cons_of_mem _ he)]

/-- Digits before the point are read up to whatever is none; a leading zero has to stand alone. -/
theorem wholePart_map_digitOctet {d : Nat} {ds : List Nat} {s : Octets}
    (hall : ∀ e ∈ d :: ds, e < 10) (hz : d = 0 → ds = []) (hs : EndsDigits s) :
    wholePart ((d :: ds).map digitOctet ++ s) = .whole (d :: ds) s := by
  have hds := digits_map_digitOctet (fun e he => hall e (List.mem_cons_of_mem _ he)) hs
  rw [List.map_cons, List.cons_append, wholePart, digit?_digitOctet (hall d List.mem_cons_self)]
  cases d with
  | zero =>
    obtain rfl := hz rfl
    simp only [List.map_nil, List.nil_append] at hds ⊢
    simp [hds]
  | succ d => simp [hds]

theorem fraction_of_endsNumber {s : Octets} (hs : EndsNumber s) : fraction s = .whole [] s := by
  cases s with
  | nil => rfl
  | cons b rest => exact fraction.eq_2 _ fun r h => (hs b rest rfl).2.1 (List.cons.inj h).1

theorem exponent_of_endsNumber {s : Octets} (hs : EndsNumber s) :
    exponent s = .whole none s := by
  cases s with
  | nil => rfl
  | cons b rest =>
    exact exponent.eq_3 _ (fun r h => (hs b rest rfl).2.2.1 (List.cons.inj h).1)
      fun r h => (hs b rest rfl).2.2.2 (List.cons.inj h).1

theorem scanToken_digitOctet {d : Nat} (h : d < 10) (rest : Octets) :
    scanToken (digitOctet d) rest = scanToken.number (numeral false (digitOctet d :: rest)) := by
  interval_cases d <;> rfl

theorem octets_repr (n : Nat) : octets n.repr = (digitsOf n).map digitOctet := by
  rw [octets_eq, Nat.toList_repr, octetsOf_toDigits]

/-! ## Values -/

theorem int?_numeralOf {n : Int} (hl : -2 ^ 63 ≤ n) (hu : n < 2 ^ 64) :
    (numeralOf n).int? = some n := by
  have hsize : UInt64.size = 2 ^ 64 := rfl
  simp only [Numeral.int?, numeralOf, natOfDigits_digitsOf, List.isEmpty_nil, Option.isNone_none,
    Bool.and_self, if_true, decide_eq_true_eq, hsize]
  by_cases hneg : n < 0
  · rw [if_pos hneg, if_pos ⟨by omega, by omega⟩]
    congr 1
    omega
  · rw [if_neg hneg, if_pos (by omega)]
    congr 1
    omega

theorem readNumber_numeralOf {n : Int} (hl : -2 ^ 63 ≤ n) (hu : n < 2 ^ 64) :
    readNumber (numeralOf n) = .ok (.int n) := by
  rw [readNumber, Numeral.value?, int?_numeralOf hl hu]

/-- An integer that is read has at most 64 bits. -/
theorem int_range_of_readNumber {m : Numeral} {n : Int} (h : readNumber m = .ok (.int n)) :
    -2 ^ 63 ≤ n ∧ n < 2 ^ 64 := by
  unfold readNumber at h
  split at h
  · next hv =>
    cases h
    unfold Numeral.value? at hv
    split at hv
    · next hi =>
      cases hv
      have hsize : UInt64.size = 2 ^ 64 := rfl
      simp only [Numeral.int?, hsize] at hi
      split at hi
      · split at hi <;> split at hi <;> cases hi <;> omega
      · cases hi
    · simp at hv
  · cases h

end CodeIndex.Json
