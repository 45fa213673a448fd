import Mathlib.Algebra.BigOperators.Group.List.Basic
import Mathlib.Tactic

/-! The pieces in which a loop with a fixed buffer works through a given number of elements:
each round takes the smaller of the buffer size and what is left. -/
namespace Slices

/-- Piece lengths of the rest `left`; a round takes at least one element. -/
def lengthsFrom (slice : ℕ) : ℕ → ℕ → List ℕ
  | 0, _ => []
  | fuel + 1, left =>
      if left = 0 then [] else min slice left :: lengthsFrom slice fuel (left - min slice left)

def lengths (slice total : ℕ) : List ℕ := lengthsFrom slice total total

variable {slice : ℕ}

theorem lengthsFrom_sum (hs : 0 < slice) (fuel left : ℕ) (h : left ≤ fuel) :
    (lengthsFrom slice fuel left).sum = left := by
  induction fuel generalizing left with
  | zero => simp only [lengthsFrom, List.sum_nil]; omega
  | succ fuel ih =>
    unfold lengthsFrom
    split_ifs with h0
    · simp [h0]
    · rw [List.sum_cons, ih _ (by omega)]
      omega

theorem lengths_sum (hs : 0 < slice) (total : ℕ) : (lengths slice total).sum = total :=
  lengthsFrom_sum hs total total le_rfl

theorem lengthsFrom_pos (hs : 0 < slice) (fuel left : ℕ) :
    ∀ n ∈ lengthsFrom slice fuel left, 0 < n := by
  induction fuel generalizing left with
  | zero => simp [lengthsFrom]
  | succ fuel ih =>
    unfold lengthsFrom
    split_ifs with h0
    · simp
    · rw [List.forall_mem_cons]
      exact ⟨by omega, ih _⟩

theorem lengths_pos (hs : 0 < slice) (total : ℕ) : ∀ n ∈ lengths slice total, 0 < n :=
  lengthsFrom_pos hs total total

@[simp] theorem lengths_zero : lengths slice 0 = [] := rfl

theorem lengths_ne_nil {total : ℕ} (h : 0 < total) : lengths slice total ≠ [] := by
  obtain ⟨n, rfl⟩ : ∃ n, total = n + 1 := ⟨total - 1, by omega⟩
  simp [lengths, lengthsFrom]

theorem lengthsFrom_length (hs : 0 < slice) (fuel left : ℕ) (h : left ≤ fuel) :
    (lengthsFrom slice fuel left).length = (left + slice - 1) / slice := by
  induction fuel generalizing left with
  | zero =>
    have h0 : left = 0 := by omega
    have hlt : 0 + slice - 1 < slice := by omega
    rw [h0, Nat.div_eq_of_lt hlt]
    rfl
  | succ fuel ih =>
    unfold lengthsFrom
    split_ifs with h0
    · have hlt : left + slice - 1 < slice := by omega
      rw [Nat.div_eq_of_lt hlt]
      rfl
    · rw [List.length_cons, ih _ (by omega)]
      rcases Nat.le_total slice left with hle | hle
      · have hstep : left + slice - 1 = left - min slice left + slice - 1 + slice := by omega
        rw [hstep, Nat.add_div_right _ hs]
      · have hrest : left - min slice left + slice - 1 = slice - 1 := by omega
        have hone : left + slice - 1 = left - 1 + slice := by omega
        rw [hrest, hone, Nat.add_div_right _ hs, Nat.div_eq_of_lt (by omega : slice - 1 < slice),
          Nat.div_eq_of_lt (by omega : left - 1 < slice)]

theorem lengths_length (hs : 0 < slice) (total : ℕ) :
    (lengths slice total).length = (total + slice - 1) / slice :=
  lengthsFrom_length hs total total le_rfl

end Slices
