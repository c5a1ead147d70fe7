import Mathlib.Data.List.Nodup
import Mathlib.Data.List.Perm.Subperm
import Mathlib.Order.Nat
import Mathlib.Tactic.Push

-- The first number from `n` on that is not taken, as long as the fuel lasts.
def firstFree (taken : ℕ → Bool) : ℕ → ℕ → ℕ
  | 0, n        => n
  | fuel + 1, n => if taken n then firstFree taken fuel (n + 1) else n

namespace Search

variable {α : Type} {taken : ℕ → Bool} {f : ℕ → α} {l : List α} {fuel n i : ℕ}

theorem le_firstFree : n ≤ firstFree taken fuel n := by
  induction fuel generalizing n with
  | zero => exact le_rfl
  | succ fuel hi =>
    unfold firstFree
    split
    · exact (Nat.le_succ n).trans hi
    · exact le_rfl

-- All numbers before it are taken.
theorem taken_of_lt_firstFree (hn : n ≤ i) (hi : i < firstFree taken fuel n) : taken i := by
  induction fuel generalizing n with
  | zero => exact absurd hi hn.not_gt
  | succ fuel ih =>
    unfold firstFree at hi
    split at hi
    case isFalse => exact absurd hi hn.not_gt
    case isTrue ht =>
      rcases hn.eq_or_lt with rfl | hlt
      · exact ht
      · exact ih hlt hi

theorem firstFree_free (hi : taken i = false) (hn : n ≤ i) (hlt : i ≤ n + fuel) :
    taken (firstFree taken fuel n) = false := by
  induction fuel generalizing n with
  | zero =>
    obtain rfl : n = i := by omega
    exact hi
  | succ fuel ih =>
    unfold firstFree
    split
    case isFalse h => simpa using h
    case isTrue h =>
      have hne : n ≠ i := by
        rintro rfl
        rw [hi] at h
        contradiction
      exact ih (by omega) (by omega)

-- Of more numbers than there are elements in a list, not all are elements.
theorem exists_not_mem (hf : ∀ i j, n ≤ i → n ≤ j → f i = f j → i = j) (hl : l.length ≤ fuel) :
    ∃ i, n ≤ i ∧ i ≤ n + fuel ∧ f i ∉ l := by
  by_contra h
  push Not at h
  have hnodup : ((List.range' n (fuel + 1)).map f).Nodup := by
    refine List.Nodup.map_on (fun i hi j hj => hf i j ?_ ?_) List.nodup_range'
    · exact (List.mem_range'_1.mp hi).1
    · exact (List.mem_range'_1.mp hj).1
  have hsub : (List.range' n (fuel + 1)).map f ⊆ l := by
    intro a ha
    obtain ⟨i, hi, rfl⟩ := List.mem_map.mp ha
    have := List.mem_range'_1.mp hi
    exact h i this.1 (by omega)
  have := (List.subperm_of_subset hnodup hsub).length_le
  rw [List.length_map, List.length_range'] at this
  omega

-- With as much fuel as there are elements in a list, the search comes to a number that gives none of them.
theorem firstFree_not_mem [DecidableEq α] (hf : ∀ i j, n ≤ i → n ≤ j → f i = f j → i = j) (hl : l.length ≤ fuel) :
    f (firstFree (fun i => f i ∈ l) fuel n) ∉ l := by
  obtain ⟨i, hn, hi, hmem⟩ := exists_not_mem hf hl
  simpa using @firstFree_free (fun i => decide (f i ∈ l)) fuel n i (by simpa using hmem) hn hi

end Search
