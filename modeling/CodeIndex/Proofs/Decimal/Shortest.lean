import CodeIndex.Proofs.Json.Integer

/-! # Digits of shortest decimals

The shortest decimal of a float has at least one digit and begins with none that is zero. However
many digits are tried, what they are rounded from is at least one in the last of them, because the
first power of ten that is tried does not exceed the float.
-/

namespace CodeIndex.Decimal

open Json (lt_of_mem_digitsOf digitsOf_eq_cons natOfDigits_digitsOf)

namespace Interval

/-- Whether the value is at least `10^k`. -/
def Reaches (i : Interval) (k : Int) : Prop :=
  (i.inUnits k).denominator ≤ (i.inUnits k).value

theorem reaches_pred {i : Interval} {k : Int} (h : i.Reaches k) : i.Reaches (k - 1) := by
  match k with
  | .ofNat 0 =>
    have hle : i.denominator * 10 ^ 0 ≤ i.value := h
    change i.denominator ≤ i.value * 10 ^ 1
    omega
  | .ofNat (k + 1) =>
    have hle : i.denominator * 10 ^ (k + 1) ≤ i.value := h
    have hk : (Int.ofNat (k + 1) - 1) = Int.ofNat k := by
      simp
    rw [hk]
    change i.denominator * 10 ^ k ≤ i.value
    rw [Nat.pow_succ, ← Nat.mul_assoc] at hle
    omega
  | .negSucc k =>
    have hle : i.denominator ≤ i.value * 10 ^ (k + 1) := h
    change i.denominator ≤ i.value * 10 ^ (k + 1 + 1)
    rw [Nat.pow_succ, ← Nat.mul_assoc]
    omega

theorem pow_length_toDigits_le {n : Nat} (h : 0 < n) :
    10 ^ ((Nat.toDigits 10 n).length - 1) ≤ n := by
  rcases Nat.eq_zero_or_pos ((Nat.toDigits 10 n).length - 1) with hz | hpos
  · rw [hz]
    exact h
  · have hiff := Nat.length_toDigits_le_iff (b := 10) (n := n) (by decide) hpos
    by_contra hlt
    have := hiff.mpr (Nat.not_le.mp hlt)
    omega

theorem lt_pow_length_toDigits (n : Nat) : n < 10 ^ (Nat.toDigits 10 n).length :=
  (Nat.length_toDigits_le_iff (by decide) Nat.length_toDigits_pos).mp (Nat.le_refl _)

/-- The first power of ten that is tried does not exceed the value. -/
theorem reaches_magnitude {i : Interval} (hv : 0 < i.value) (hd : 0 < i.denominator) :
    i.Reaches i.magnitude := by
  unfold magnitude
  split
  · next hle =>
    have hq : 0 < i.value / i.denominator := Nat.div_pos hle hd
    have hpow := pow_length_toDigits_le hq
    have hpos : 0 < (Nat.toDigits 10 (i.value / i.denominator)).length := Nat.length_toDigits_pos
    generalize (Nat.toDigits 10 (i.value / i.denominator)).length = length at hpow hpos
    have hk : (length : Int) - 1 = Int.ofNat (length - 1) := by
      rw [Int.ofNat_eq_natCast]
      omega
    rw [hk]
    change i.denominator * 10 ^ (length - 1) ≤ i.value
    rw [Nat.mul_comm]
    exact (Nat.le_div_iff_mul_le hd).mp hpow
  · next hlt =>
    have hq := lt_pow_length_toDigits (i.denominator / i.value)
    have hpos : 0 < (Nat.toDigits 10 (i.denominator / i.value)).length := Nat.length_toDigits_pos
    dsimp only
    generalize (Nat.toDigits 10 (i.denominator / i.value)).length = length at hq hpos
    have hle : i.denominator ≤ i.value * 10 ^ length := by
      have := (Nat.div_lt_iff_lt_mul hv).mp hq
      rw [Nat.mul_comm]
      omega
    split
    · next hle' =>
      have hle' : i.denominator ≤ i.value * 10 ^ (length - 1) := hle'
      match length, hpos with
      | 1, _ => exact absurd (by simpa using hle') hlt
      | length + 2, _ =>
        have hk : (1 : Int) - ((length + 2 : Nat) : Int) = Int.negSucc length := by
          rw [Int.negSucc_eq]
          push_cast
          omega
        rw [hk]
        exact hle'
    · match length, hpos with
      | length + 1, _ => exact hle

theorem nearestNat?_pos {i : Interval} {n : Nat} (h : i.nearestNat? = some n) : 0 < n := by
  unfold nearestNat? at h
  dsimp only at h
  split at h
  · next hb _ =>
    cases h
    simp only [Bool.and_eq_true, decide_eq_true_eq] at hb
    exact hb.2
  · cases h
    exact Nat.succ_pos _
  · cases h
  · next hb _ =>
    simp only [Bool.and_eq_true, decide_eq_true_eq] at hb
    split at h <;> cases h
    · exact hb.2
    · omega

theorem denominator_inUnits_pos {i : Interval} (hd : 0 < i.denominator) (k : Int) :
    0 < (i.inUnits k).denominator := by
  cases k with
  | ofNat k => exact Nat.mul_pos hd (Nat.pow_pos (by decide))
  | negSucc k => exact hd

theorem shortestFrom_pos {i : Interval} (hd : 0 < i.denominator) {unit : Int}
    (h : i.Reaches unit) (tries : Nat) : 0 < (i.shortestFrom unit tries).1 := by
  induction tries generalizing unit with
  | zero => exact Nat.div_pos h (denominator_inUnits_pos hd unit)
  | succ tries ih =>
    unfold shortestFrom
    split
    · next n hn => exact nearestNat?_pos hn
    · exact ih (reaches_pred h)

end Interval

/-- Whether there is a digit, and the first one is not zero. -/
structure Scientific.Normal (x : Scientific) : Prop where
  digits : ∀ d ∈ x.digits, d < 10
  leading : ∃ d ds, x.digits = d :: ds ∧ d ≠ 0

theorem mem_of_mem_dropZeros {ds : List Nat} {d : Nat} (h : d ∈ dropZeros ds) : d ∈ ds := by
  unfold dropZeros at h
  rw [List.mem_reverse] at h
  exact List.mem_reverse.mp (List.dropWhile_subset _ h)

theorem dropZeros_cons {d : Nat} (h : d ≠ 0) (ds : List Nat) :
    dropZeros (d :: ds) = d :: dropZeros ds := by
  unfold dropZeros
  rw [List.reverse_cons, List.dropWhile_append]
  have hd : (d == 0) = false := by simpa using h
  split
  · next he =>
    rw [List.isEmpty_iff] at he
    simp [he, hd]
  · rw [List.reverse_append]
    rfl

theorem Interval.normal_shortest {i : Interval} (hv : 0 < i.value) (hd : 0 < i.denominator) :
    i.shortest.Normal := by
  have hpos := shortestFrom_pos hd (reaches_magnitude hv hd) 17
  unfold shortest
  generalize i.shortestFrom i.magnitude 17 = found at hpos
  obtain ⟨n, unit⟩ := found
  have hpos : 0 < n := hpos
  obtain ⟨d, ds, hn, hzero⟩ := digitsOf_eq_cons n
  have hne : d ≠ 0 := by
    intro h0
    have hvalue := natOfDigits_digitsOf n
    rw [hn, h0, hzero h0] at hvalue
    simp only [Json.natOfDigits, List.foldl_cons, List.foldl_nil] at hvalue
    omega
  refine ⟨fun e he => lt_of_mem_digitsOf (mem_of_mem_dropZeros he), d, dropZeros ds, ?_, hne⟩
  dsimp only
  rw [hn, dropZeros_cons hne]

theorem Interval.ofBinary_pos {significand : Nat} (h : 0 < significand) (exponent : Int)
    (narrow : Bool) :
    0 < (ofBinary significand exponent narrow).value ∧
      0 < (ofBinary significand exponent narrow).denominator := by
  unfold ofBinary
  dsimp only
  split
  · refine ⟨?_, Nat.one_pos⟩
    simp only [Nat.shiftLeft_eq]
    exact Nat.mul_pos (by omega) (Nat.pow_pos (by decide))
  · refine ⟨by dsimp only; omega, ?_⟩
    simp only [Nat.shiftLeft_eq]
    exact Nat.mul_pos Nat.one_pos (Nat.pow_pos (by decide))

/-- The shortest decimal of any float has a first digit, which is not zero. -/
theorem normal_of_shortest? {x : Float} {d : Scientific} (h : shortest? x = some d) :
    d.Normal := by
  have hnormal : ∀ {significand : Nat} (exponent : Int) (narrow : Bool), 0 < significand →
      (Interval.ofBinary significand exponent narrow).shortest.Normal := by
    intro significand exponent narrow hs
    obtain ⟨hv, hd⟩ := Interval.ofBinary_pos hs exponent narrow
    exact Interval.normal_shortest hv hd
  unfold shortest? at h
  generalize fractionAndExponent x = parts at h
  obtain ⟨fraction, biased⟩ := parts
  dsimp only at h
  split at h
  · cases h
  split at h
  · split at h
    · cases h
    · cases h
      exact hnormal _ _ (by omega)
  · cases h
    refine hnormal _ _ ?_
    rw [Nat.shiftLeft_eq]
    omega

end CodeIndex.Decimal
