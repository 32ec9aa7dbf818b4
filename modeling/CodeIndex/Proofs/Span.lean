import CodeIndex.Span
import Mathlib.Order.Interval.Finset.Nat
import Mathlib.SetTheory.Cardinal.Finite

/-! # Lines of spans

Any two words are the bounds of a span, be they zero or out of order. Lines are counted in words,
which is one word short: of all spans, the one that has every word as a line has more lines than
a word can tell, and is taken to have none.
-/

namespace CodeIndex

namespace Span

variable {s : Span}

def whole : Span := ⟨0, 0xffffffff⟩

noncomputable def card (s : Span) : Nat :=
  Nat.card {n : UInt32 // s.containsLine n}

theorem containsLine_iff {n : UInt32} :
    s.containsLine n = true ↔ s.start.toNat ≤ n.toNat ∧ n.toNat ≤ s.stop.toNat := by
  simp [containsLine, UInt32.le_iff_toNat_le]

/-- The lines of a span are the numbers between its bounds. -/
def linesEquivIcc (s : Span) :
    {n : UInt32 // s.containsLine n} ≃ Finset.Icc s.start.toNat s.stop.toNat where
  toFun n := ⟨n.1.toNat, Finset.mem_Icc.mpr (containsLine_iff.mp n.2)⟩
  invFun n := by
    refine ⟨UInt32.ofNat n.1, containsLine_iff.mpr ?_⟩
    rcases Finset.mem_Icc.mp n.2 with ⟨hstart, hstop⟩
    rw [UInt32.toNat_ofNat_of_lt' (Nat.lt_of_le_of_lt hstop s.stop.toNat_lt)]
    exact ⟨hstart, hstop⟩
  left_inv n := by simp
  right_inv n := by
    rcases Finset.mem_Icc.mp n.2 with ⟨-, hstop⟩
    ext
    exact UInt32.toNat_ofNat_of_lt' (Nat.lt_of_le_of_lt hstop s.stop.toNat_lt)

theorem card_eq (s : Span) : s.card = s.stop.toNat + 1 - s.start.toNat := by
  rw [card, Nat.card_congr s.linesEquivIcc, Nat.card_eq_fintype_card, Fintype.card_coe,
    Nat.card_Icc]

theorem card_le_size (s : Span) : s.card ≤ UInt32.size := by
  have hstop : s.stop.toNat < UInt32.size := s.stop.toNat_lt
  rw [card_eq]
  omega

theorem card_eq_size_iff : s.card = UInt32.size ↔ s = whole := by
  rcases s with ⟨start, stop⟩
  have hstop : stop.toNat < UInt32.size := stop.toNat_lt
  have hsize : UInt32.size = (0xffffffff : UInt32).toNat + 1 := rfl
  simp only [card_eq, whole, mk.injEq, ← UInt32.toNat_inj, UInt32.toNat_zero]
  omega

/-- The lines are counted modulo the number of words. -/
theorem toNat_lineCount (s : Span) : s.lineCount.toNat = s.card % UInt32.size := by
  rw [card_eq, lineCount]
  by_cases h : s.start ≤ s.stop
  · have hle := UInt32.le_iff_toNat_le.mp h
    rw [if_pos h, UInt32.toNat_add, UInt32.toNat_sub_of_le _ _ h, UInt32.toNat_one,
      Nat.sub_add_comm hle]
  · have hnone : s.stop.toNat + 1 - s.start.toNat = 0 := by
      rw [UInt32.le_iff_toNat_le] at h
      omega
    rw [if_neg h, hnone, UInt32.toNat_zero, Nat.zero_mod]

/-- The count of lines is right for all spans but one. -/
theorem toNat_lineCount_eq_card_iff : s.lineCount.toNat = s.card ↔ s ≠ whole := by
  have hle := s.card_le_size
  rw [toNat_lineCount, Nat.mod_eq_iff_lt (by decide), Ne, ← card_eq_size_iff]
  omega

end Span

end CodeIndex
