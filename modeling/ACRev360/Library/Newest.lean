import Mathlib.Data.List.Perm.Subperm
import Mathlib.Data.List.Sort
import Mathlib.Order.Basic

namespace Newest

theorem nodup_of_subperm {α β : Type} {key : α → β} {l l₁ : List α} (h : (l.map key).Nodup) (hl : l₁.Subperm l) :
    (l₁.map key).Nodup := by
  obtain ⟨l₂, hperm, hsub⟩ := hl
  exact (hperm.map key).nodup_iff.mp <| h.sublist <| hsub.map key

variable {α β : Type} [LinearOrder β] {key : α → β} {k : ℕ} {l l₁ l₂ : List α} {ls : List (List α)}
variable {before : α → α → Bool}

-- The order of a list by a key, the greatest first. What has the same key stays as it was.
def newestFirst (key : α → β) (l : List α) : List α :=
  l.mergeSort fun a b => key b ≤ key a

-- The first `k` in that order.
def newest (key : α → β) (k : ℕ) (l : List α) : List α :=
  (newestFirst key l).take k

-- What `newest` is for: the elements with the `k` greatest keys, or all if there are not as many.
structure IsNewest (key : α → β) (k : ℕ) (p : α → Prop) (l : List α) : Prop where
  mem     : ∀ a ∈ l, p a
  ordered : l.Pairwise fun a b => key b < key a
  length  : l.length ≤ k
  others  : ∀ b, p b → b ∉ l → l.length = k ∧ ∀ a ∈ l, key b < key a

theorem newestFirst_perm : (newestFirst key l).Perm l :=
  List.mergeSort_perm ..

theorem pairwise_newestFirst : (newestFirst key l).Pairwise fun a b => key b ≤ key a := by
  have h : (newestFirst key l).Pairwise fun a b => decide (key b ≤ key a) :=
    List.pairwise_mergeSort (fun _ _ _ hab hbc => decide_eq_true <| (of_decide_eq_true hbc).trans (of_decide_eq_true hab))
      (fun a b => by simpa using le_total (key b) (key a)) l
  exact h.imp of_decide_eq_true

-- Under different keys, there is one list that has the elements in order.
theorem eq_newestFirst (h : (l.map key).Nodup) (hperm : l₁.Perm l) (hl₁ : l₁.Pairwise fun a b => key b ≤ key a) :
    l₁ = newestFirst key l := by
  refine List.Perm.eq_of_pairwise (fun a b ha hb hab hba => ?_) hl₁ pairwise_newestFirst
    (hperm.trans newestFirst_perm.symm)
  exact List.inj_on_of_nodup_map h (hperm.subset ha) (newestFirst_perm.subset hb) (le_antisymm hba hab)

theorem newest_subperm : (newest key k l).Subperm l :=
  (List.take_sublist ..).subperm.trans newestFirst_perm.subperm

theorem flatten_subperm : (ls.map (newest key k)).flatten.Subperm ls.flatten := by
  induction ls with
  | nil => exact List.Subperm.refl []
  | cons l ls hi => exact List.Subperm.append newest_subperm hi

section Merging

-- Only the first `k` of two lists are among the first `k` when they are merged.
theorem take_merge : (l₁.merge l₂ before).take k = ((l₁.take k).merge (l₂.take k) before).take k := by
  induction k generalizing l₁ l₂ with
  | zero => simp
  | succ k hi =>
    have left {m : ℕ} (hm : k ≤ m) {l₁ l₂ : List α} :
        ((l₁.take m).merge l₂ before).take k = (l₁.merge l₂ before).take k := by
      rw [hi, List.take_take, Nat.min_eq_left hm, ← hi]
    have right {m : ℕ} (hm : k ≤ m) {l₁ l₂ : List α} :
        (l₁.merge (l₂.take m) before).take k = (l₁.merge l₂ before).take k := by
      rw [hi, List.take_take, Nat.min_eq_left hm, ← hi]
    cases l₁ with
    | nil => simp [List.take_take]
    | cons a l₁ =>
      cases l₂ with
      | nil => simp [List.take_take]
      | cons b l₂ =>
        rw [List.take_succ_cons, List.take_succ_cons, List.cons_merge_cons, List.cons_merge_cons]
        split
        case isTrue =>
          rw [← List.take_succ_cons (i := k) (a := b), List.take_succ_cons, List.take_succ_cons, left le_rfl,
            right k.le_succ]
        case isFalse =>
          rw [← List.take_succ_cons (i := k) (a := a), List.take_succ_cons, List.take_succ_cons, right le_rfl,
            left k.le_succ]

-- The first `k` of the first `k` are themselves.
theorem newest_newest (h : (l.map key).Nodup) : newest key k (newest key k l) = newest key k l := by
  have hsorted : newest key k l = newestFirst key (newest key k l) :=
    eq_newestFirst (nodup_of_subperm h newest_subperm) (List.Perm.refl _) pairwise_newestFirst.take
  rw [newest, ← hsorted, newest, List.take_take, Nat.min_self]

theorem newest_append (h : ((l₁ ++ l₂).map key).Nodup) : newest key k (l₁ ++ l₂) =
    ((newest key k l₁).merge (newest key k l₂) fun a b => key b ≤ key a).take k := by
  have hmerge : (newestFirst key l₁).merge (newestFirst key l₂) (fun a b => key b ≤ key a) =
      newestFirst key (l₁ ++ l₂) := by
    refine eq_newestFirst h ?_ ?_
    · exact (List.merge_perm_append _).trans <| newestFirst_perm.append newestFirst_perm
    · have hmerged : ((newestFirst key l₁).merge (newestFirst key l₂) fun a b => key b ≤ key a).Pairwise
          fun a b => decide (key b ≤ key a) :=
        List.pairwise_merge
          (fun _ _ _ hab hbc => decide_eq_true <| (of_decide_eq_true hbc).trans (of_decide_eq_true hab))
          (fun a b => by simpa using le_total (key b) (key a)) (newestFirst key l₁) (newestFirst key l₂)
          (pairwise_newestFirst.imp decide_eq_true) (pairwise_newestFirst.imp decide_eq_true)
      exact hmerged.imp of_decide_eq_true
  rw [newest, ← hmerge, take_merge, newest, newest]

-- To merge lists, their first `k` are enough.
theorem newest_flatten (h : (ls.flatten.map key).Nodup) :
    newest key k (ls.map (newest key k)).flatten = newest key k ls.flatten := by
  induction ls with
  | nil => rfl
  | cons l ls hi =>
    rw [List.flatten_cons] at h
    have hboth : (newest key k l ++ (ls.map (newest key k)).flatten).Subperm (l ++ ls.flatten) :=
      List.Subperm.append newest_subperm flatten_subperm
    have hboth := nodup_of_subperm h hboth
    rw [List.map_append, List.nodup_append] at h
    rw [List.map_cons, List.flatten_cons, newest_append hboth, newest_newest h.1, hi h.2.1, ← newest_append]
    · rw [List.flatten_cons]
    · rw [List.map_append, List.nodup_append]
      exact h

end Merging

theorem isNewest_newest (h : (l.map key).Nodup) : IsNewest key k (· ∈ l) (newest key k l) := by
  have hnodup : ((newestFirst key l).map key).Nodup := (newestFirst_perm.map key).nodup_iff.mpr h
  have hle : (newestFirst key l).Pairwise fun a b => key b ≤ key a := pairwise_newestFirst
  have hlt : (newestFirst key l).Pairwise fun a b => key b < key a :=
    (hle.and <| List.pairwise_map.mp hnodup).imp fun h => lt_of_le_of_ne h.1 h.2.symm
  constructor
  case mem => exact fun a ha => newestFirst_perm.subset <| List.take_subset _ _ ha
  case ordered => exact hlt.take
  case length => exact List.length_take_le ..
  case others =>
    intro b hb hnot
    have hmem : b ∈ (newestFirst key l).drop k := by
      have hb : b ∈ newestFirst key l := newestFirst_perm.symm.subset hb
      rw [← List.take_append_drop k (newestFirst key l)] at hb
      exact (List.mem_append.mp hb).resolve_left hnot
    rw [← List.take_append_drop k (newestFirst key l), List.pairwise_append] at hlt
    refine ⟨?_, fun a ha => hlt.2.2 a ha b hmem⟩
    have hlen := List.length_pos_of_mem hmem
    rw [List.length_drop] at hlen
    rw [newest, List.length_take]
    omega

end Newest
