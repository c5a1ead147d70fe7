import Mathlib.Algebra.BigOperators.Group.List.Basic
import Mathlib.Algebra.Order.BigOperators.Group.List
import Mathlib.Tactic.Abel
import Mathlib.Tactic.Linarith

-- A table maps primary keys to rows. The rows are kept sorted by key, so a key has at most one row
-- and two tables with the same contents are equal.
@[ext (iff := false)]
structure Table (α : Type*) where
  rows   : List (ℕ × α)
  sorted : rows.Pairwise (·.1 < ·.1)
deriving DecidableEq

namespace Table

variable {α β M : Type*} {t t₁ t₂ : Table α} {a b : α} {i k : ℕ}

def empty : Table α where
  rows   := []
  sorted := .nil

def get (t : Table α) (k : ℕ) : Option α :=
  t.rows.find? (·.1 = k) |>.map (·.2)

def filter (t : Table α) (p : ℕ → α → Bool) : List (ℕ × α) :=
  t.rows.filter fun r => p r.1 r.2

-- The row with the smallest key among those that satisfy `p`.
def first (t : Table α) (p : ℕ → α → Bool) : Option (ℕ × α) :=
  t.rows.find? fun r => p r.1 r.2

def sum [AddCommMonoid M] (t : Table α) (f : ℕ → α → M) : M :=
  t.rows.map (fun r => f r.1 r.2) |>.sum

-- A key that is in use keeps its row.
def insertRow (k : ℕ) (a : α) : List (ℕ × α) → List (ℕ × α)
  | [] => [(k, a)]
  | (i, b) :: rs =>
    if k < i then (k, a) :: (i, b) :: rs
    else if k = i then (i, b) :: rs
    else (i, b) :: insertRow k a rs

theorem mem_insertRow {r : ℕ × α} {rs : List (ℕ × α)} (h : r ∈ insertRow k a rs) :
    r = (k, a) ∨ r ∈ rs := by
  induction rs with
  | nil => simpa [insertRow] using h
  | cons hd tl hi =>
    unfold insertRow at h
    split at h
    · simpa using h
    · split at h
      · exact .inr h
      · rcases List.mem_cons.mp h with rfl | h
        · simp
        · rcases hi h with rfl | h <;> simp_all

theorem insertRow_sorted {rs : List (ℕ × α)} (h : rs.Pairwise (·.1 < ·.1)) :
    (insertRow k a rs).Pairwise (·.1 < ·.1) := by
  induction rs with
  | nil => simp [insertRow]
  | cons hd tl hi =>
    have ⟨hhd, htl⟩ := List.pairwise_cons.mp h
    unfold insertRow
    split
    case isTrue hlt =>
      refine List.pairwise_cons.mpr ⟨fun r hr => ?_, h⟩
      rcases List.mem_cons.mp hr with rfl | hr
      · exact hlt
      · exact hlt.trans (hhd r hr)
    case isFalse hge =>
      split
      · exact h
      · refine List.pairwise_cons.mpr ⟨fun r hr => ?_, hi htl⟩
        rcases mem_insertRow hr with rfl | hr
        · simp; omega
        · exact hhd r hr

def insert (t : Table α) (k : ℕ) (a : α) : Table α where
  rows   := insertRow k a t.rows
  sorted := insertRow_sorted t.sorted

def modify (t : Table α) (k : ℕ) (f : α → α) : Table α where
  rows   := t.rows.map fun r => if r.1 = k then (r.1, f r.2) else r
  sorted := by
    refine List.pairwise_map.mpr <| t.sorted.imp fun {r₁ r₂} h => ?_
    split <;> split <;> exact h

def erase (t : Table α) (k : ℕ) : Table α where
  rows   := t.rows.filter (·.1 ≠ k)
  sorted := t.sorted.filter _

theorem find?_eq_of_mem {rs : List (ℕ × α)} (hs : rs.Pairwise (·.1 < ·.1)) (h : (k, a) ∈ rs) :
    rs.find? (·.1 = k) = some (k, a) := by
  induction rs with
  | nil => contradiction
  | cons hd tl hi =>
    have ⟨hhd, htl⟩ := List.pairwise_cons.mp hs
    rcases List.mem_cons.mp h with rfl | h
    · simp
    · have := hhd _ h
      simp [Nat.ne_of_lt this, hi htl h]

theorem mem_rows_iff : (k, a) ∈ t.rows ↔ t.get k = some a where
  mp h := by simp [get, find?_eq_of_mem t.sorted h]
  mpr h := by
    simp only [get, Option.map_eq_some_iff] at h
    have ⟨r, hr, ha⟩ := h
    have hk := List.find?_some hr
    simp at hk
    exact hk ▸ ha ▸ List.mem_of_find?_eq_some hr

theorem get_eq_none_iff : t.get k = none ↔ ∀ r ∈ t.rows, r.1 ≠ k := by
  simp [get]

@[simp]
theorem get_empty : (empty : Table α).get k = none :=
  rfl

theorem mem_filter_iff {p : ℕ → α → Bool} : (k, a) ∈ t.filter p ↔ t.get k = some a ∧ p k a := by
  simp [filter, mem_rows_iff]

theorem keys_nodup {p : ℕ → α → Bool} : ((t.filter p).map (·.1)).Nodup :=
  List.pairwise_map.mpr <| (t.sorted.sublist List.filter_sublist).imp fun h => h.ne

theorem first_some {p : ℕ → α → Bool} (h : t.first p = some (k, a)) : t.get k = some a ∧ p k a := by
  have hm := List.mem_of_find?_eq_some h
  have hp := List.find?_some h
  exact ⟨mem_rows_iff.mp hm, hp⟩

theorem first_none {p : ℕ → α → Bool} (h : t.first p = none) (hg : t.get k = some a) : ¬p k a := by
  have := List.find?_eq_none.mp h (k, a) (mem_rows_iff.mpr hg)
  simpa using this

theorem isSome_first {p : ℕ → α → Bool} : (t.first p).isSome ↔ ∃ k a, t.get k = some a ∧ p k a := by
  constructor
  · intro h
    obtain ⟨⟨k, a⟩, hf⟩ := Option.isSome_iff_exists.mp h
    exact ⟨k, a, first_some hf⟩
  · rintro ⟨k, a, hg, hp⟩
    rw [Option.isSome_iff_ne_none]
    exact fun hn => first_none hn hg hp

theorem sorted_ext {rs₁ rs₂ : List (ℕ × α)} (h₁ : rs₁.Pairwise (·.1 < ·.1))
    (h₂ : rs₂.Pairwise (·.1 < ·.1)) (h : ∀ r, r ∈ rs₁ ↔ r ∈ rs₂) : rs₁ = rs₂ := by
  have irrefl : ∀ {rs : List (ℕ × α)}, rs.Pairwise (·.1 < ·.1) → rs.Nodup := fun h =>
    h.imp fun {r₁ r₂} hlt he => absurd (he ▸ hlt) (lt_irrefl _)
  refine List.Perm.eq_of_pairwise ?_ h₁ h₂ <| (List.perm_ext_iff_of_nodup (irrefl h₁) (irrefl h₂)).mpr h
  intro r₁ r₂ _ _ hlt hgt
  exact absurd hlt (Nat.lt_asymm hgt)

-- The rows that satisfy `p` are the same.
theorem filter_congr {p : ℕ → α → Bool} (h : ∀ k a, p k a → (t₁.get k = some a ↔ t₂.get k = some a)) :
    t₁.filter p = t₂.filter p := by
  refine sorted_ext (t₁.sorted.filter _) (t₂.sorted.filter _) fun ⟨k, a⟩ => ?_
  refine mem_filter_iff.trans <| Iff.trans ?_ mem_filter_iff.symm
  exact and_congr_left (h k a)

-- Changing the rows changes none of what `p` is about.
theorem filter_eq_map {p : ℕ → α → Bool} {g : ℕ → α → α} (h : ∀ k, t₂.get k = (t₁.get k).map (g k))
    (hp : ∀ k a, p k (g k a) = p k a) : t₂.filter p = (t₁.filter p).map fun r => (r.1, g r.1 r.2) := by
  refine sorted_ext (t₂.sorted.filter _) (List.pairwise_map.mpr <| t₁.sorted.filter _) fun ⟨k, b⟩ => ?_
  simp only [List.mem_map, Prod.exists, Prod.mk.injEq]
  rw [mem_filter_iff, h, Option.map_eq_some_iff]
  constructor
  · rintro ⟨⟨a, ha, rfl⟩, hb⟩
    exact ⟨k, a, mem_filter_iff.mpr ⟨ha, hp k a ▸ hb⟩, rfl, rfl⟩
  · rintro ⟨k, a, ha, rfl, rfl⟩
    have ⟨hget, hpa⟩ := mem_filter_iff.mp ha
    exact ⟨⟨a, hget, rfl⟩, (hp k a).trans hpa⟩

theorem ext_get (h : ∀ k, t₁.get k = t₂.get k) : t₁ = t₂ := by
  have : t₁.rows = t₂.rows := sorted_ext t₁.sorted t₂.sorted fun ⟨k, a⟩ => by
    simp [mem_rows_iff, h]
  cases t₁; cases t₂; simp_all

theorem get_insert_self (h : t.get k = none) : (t.insert k a).get k = some a := by
  rw [get_eq_none_iff] at h
  apply mem_rows_iff.mp
  show (k, a) ∈ insertRow k a t.rows
  generalize t.rows = rs at h
  induction rs with
  | nil => simp [insertRow]
  | cons hd tl hi =>
    unfold insertRow
    have := h hd (by simp)
    split
    · simp
    · split
      · simp_all
      · exact .tail _ <| hi fun r hr => h r (.tail _ hr)

theorem insert_of_mem (h : t.get k = some b) : t.insert k a = t := by
  have hm := mem_rows_iff.mpr h
  have hs := t.sorted
  suffices insertRow k a t.rows = t.rows by cases t; simp_all [insert]
  generalize t.rows = rs at hm hs
  induction rs with
  | nil => contradiction
  | cons hd tl hi =>
    have ⟨hhd, htl⟩ := List.pairwise_cons.mp hs
    unfold insertRow
    rcases List.mem_cons.mp hm with rfl | hm
    · simp
    · have := hhd _ hm
      simp at this
      split
      · omega
      · split
        · rfl
        · rw [hi hm htl]

theorem mem_insertRow_of_mem {r : ℕ × α} {rs : List (ℕ × α)} (h : r ∈ rs) : r ∈ insertRow k a rs := by
  induction rs with
  | nil => contradiction
  | cons hd tl hi =>
    unfold insertRow
    split
    · exact .tail _ h
    · split
      · exact h
      · rcases List.mem_cons.mp h with rfl | h
        · simp
        · exact .tail _ (hi h)

theorem get_insert_ne (h : i ≠ k) : (t.insert k a).get i = t.get i := by
  apply Option.ext
  intro b
  rw [← mem_rows_iff, ← mem_rows_iff]
  refine ⟨fun hm => ?_, mem_insertRow_of_mem⟩
  rcases mem_insertRow hm with he | hm
  · simp_all
  · exact hm

theorem get_insert : (t.insert k a).get i = if i = k then some ((t.get k).getD a) else t.get i := by
  split
  case isTrue h =>
    subst h
    cases hg : t.get i with
    | none => simp [get_insert_self hg]
    | some b => simp [insert_of_mem hg, hg]
  case isFalse h => exact get_insert_ne h

@[simp]
theorem get_modify : (t.modify k g).get i = if i = k then (t.get k).map g else t.get i := by
  simp only [get, modify, List.find?_map, Option.map_map]
  have hp : ((fun r : ℕ × α => decide (r.1 = i)) ∘ fun r => if r.1 = k then (r.1, g r.2) else r)
      = fun r => decide (r.1 = i) := by
    funext r
    simp only [Function.comp]
    split <;> rfl
  rw [hp]
  split
  case isTrue h =>
    subst h
    cases hf : t.rows.find? fun r => decide (r.1 = i) with
    | none => rfl
    | some r =>
      have hr := List.find?_some hf
      simp at hr
      simp [hr]
  case isFalse h =>
    cases hf : t.rows.find? fun r => decide (r.1 = i) with
    | none => rfl
    | some r =>
      have hr := List.find?_some hf
      simp at hr
      simp [hr, h]

@[simp]
theorem get_erase : (t.erase k).get i = if i = k then none else t.get i := by
  apply Option.ext
  intro b
  rw [← mem_rows_iff]
  simp only [erase, List.mem_filter, mem_rows_iff]
  split <;> simp_all

theorem modify_of_none {g : α → α} (h : t.get k = none) : t.modify k g = t := by
  apply ext_get
  intro i
  rw [get_modify]
  split <;> simp_all

theorem modify_id : t.modify k id = t := by
  apply ext_get
  intro i
  rw [get_modify]
  split <;> simp_all

theorem modify_modify {g h : α → α} : (t.modify k g).modify k h = t.modify k (h ∘ g) := by
  apply ext_get
  intro i
  rw [get_modify, get_modify, get_modify, get_modify]
  split <;> simp

section Sum

variable [AddCommMonoid M] {f g : ℕ → α → M}

@[simp]
theorem sum_empty : (empty : Table α).sum f = 0 :=
  rfl

theorem sum_congr (h : ∀ k a, t.get k = some a → f k a = g k a) : t.sum f = t.sum g := by
  unfold sum
  congr 1
  refine List.map_congr_left fun r hr => h r.1 r.2 ?_
  exact mem_rows_iff.mp hr

-- The sum depends on the summands that the keys have.
theorem sum_eq_of_map {t : Table α} {u : Table β} {f : ℕ → α → M} {g : ℕ → β → M}
    (h : ∀ k, (t.get k).map (f k) = (u.get k).map (g k)) : t.sum f = u.sum g := by
  have : t.rows.map (fun r => (r.1, f r.1 r.2)) = u.rows.map fun r => (r.1, g r.1 r.2) := by
    refine sorted_ext (List.pairwise_map.mpr t.sorted) (List.pairwise_map.mpr u.sorted) fun ⟨k, m⟩ => ?_
    have hk := h k
    simp only [List.mem_map, Prod.exists, Prod.mk.injEq, mem_rows_iff, ↓existsAndEq,
      true_and]
    constructor
    · rintro ⟨a, ha, rfl⟩
      simpa [ha, eq_comm] using hk
    · rintro ⟨b, hb, rfl⟩
      simpa [hb] using hk
  simpa [sum, Function.comp_def] using congrArg (fun l => (l.map Prod.snd).sum) this

theorem sum_eq_zero (h : ∀ k a, t.get k = some a → f k a = 0) : t.sum f = 0 := by
  rw [sum_congr h]
  simp [sum]

theorem sum_add : t.sum (fun k a => f k a + g k a) = t.sum f + t.sum g := by
  unfold sum
  generalize t.rows = rs
  induction rs with
  | nil => simp
  | cons hd tl hi => simp [hi]; abel

-- Summing over the rows that satisfy `p` is summing with a guard.
theorem sum_filter {p : ℕ → α → Bool} :
    ((t.filter p).map fun r => f r.1 r.2).sum = t.sum fun k a => if p k a then f k a else 0 := by
  unfold sum filter
  generalize t.rows = rs
  induction rs with
  | nil => rfl
  | cons hd tl hi => by_cases h : p hd.1 hd.2 <;> simp [h, hi]

-- The rows with a summand are the same.
theorem sum_eq_of_iff (h : ∀ k a, f k a ≠ 0 → (t₁.get k = some a ↔ t₂.get k = some a)) :
    t₁.sum f = t₂.sum f := by
  classical
  have hsum : ∀ t : Table α, t.sum f = ((t.filter fun k a => f k a ≠ 0).map fun r => f r.1 r.2).sum :=
    fun t => by
      rw [sum_filter]
      refine sum_congr fun k a _ => ?_
      by_cases h : f k a = 0 <;> simp [h]
  rw [hsum t₁, hsum t₂, filter_congr fun k a hp => h k a (by simpa using hp)]

theorem perm_insertRow {rs : List (ℕ × α)} (h : ∀ r ∈ rs, r.1 ≠ k) : (insertRow k a rs).Perm ((k, a) :: rs) := by
  induction rs with
  | nil => rfl
  | cons hd tl hi =>
    have ⟨hhead, htail⟩ := List.forall_mem_cons.mp h
    unfold insertRow
    split
    · rfl
    · rw [if_neg (Ne.symm hhead)]
      exact (List.Perm.cons hd <| hi htail).trans (.swap _ _ _)

theorem perm_filter_insert {p : ℕ → α → Bool} (h : t.get k = none) :
    ((t.insert k a).filter p).Perm (if p k a then (k, a) :: t.filter p else t.filter p) := by
  refine ((perm_insertRow <| get_eq_none_iff.mp h).filter fun r => p r.1 r.2).trans ?_
  rw [List.filter_cons]
  rfl

theorem sum_insert (h : t.get k = none) : (t.insert k a).sum f = f k a + t.sum f := by
  have hn := get_eq_none_iff.mp h
  unfold sum
  show ((insertRow k a t.rows).map _).sum = _
  generalize t.rows = rs at hn
  induction rs with
  | nil => simp [insertRow]
  | cons hd tl hi =>
    unfold insertRow
    have := hn hd (by simp)
    split
    · simp
    · split
      · simp_all
      · have := hi fun r hr => hn r (.tail _ hr)
        simp [this]
        abel

-- Splits off the row of a key, so that `modify` and `erase` change one summand.
theorem sum_eq_erase (h : t.get k = some a) : t.sum f = f k a + (t.erase k).sum f := by
  have hm := mem_rows_iff.mpr h
  have hs := t.sorted
  unfold sum erase
  simp only
  generalize t.rows = rs at hm hs
  induction rs with
  | nil => contradiction
  | cons hd tl hi =>
    have ⟨hhd, htl⟩ := List.pairwise_cons.mp hs
    rcases List.mem_cons.mp hm with rfl | hm
    · have : ∀ r ∈ tl, r.1 ≠ k := fun r hr => Nat.ne_of_gt (hhd r hr)
      have : tl.filter (·.1 ≠ k) = tl := List.filter_eq_self.mpr fun r hr => by simp [this r hr]
      rw [List.filter_cons_of_neg (by simp), this]
      rfl
    · have hlt := hhd _ hm
      simp at hlt
      have hi := hi hm htl
      simp only [List.filter_cons, Nat.ne_of_lt hlt, ne_eq, not_false_eq_true, decide_true,
        ↓reduceIte, List.map_cons, List.sum_cons] at hi ⊢
      rw [hi]
      abel

theorem erase_modify {g : α → α} : (t.modify k g).erase k = t.erase k := by
  apply ext_get
  intro i
  rw [get_erase, get_erase, get_modify]
  split <;> simp_all

theorem sum_modify_eq {g : α → α} (h : t.get k = some a) :
    (t.modify k g).sum f = f k (g a) + (t.erase k).sum f := by
  have : (t.modify k g).get k = some (g a) := by simp [h]
  rw [sum_eq_erase this, erase_modify]

-- A change that leaves the summand of the row as it is leaves the sum as it is.
theorem sum_modify_same {g : α → α} (h : ∀ a, t.get k = some a → f k (g a) = f k a) :
    (t.modify k g).sum f = t.sum f := by
  cases hk : t.get k with
  | none => rw [modify_of_none hk]
  | some a => rw [sum_modify_eq hk, sum_eq_erase hk, h a hk]

-- A summand at one key only.
theorem sum_single {f : α → M} : t.sum (fun k a => if k = i then f a else 0) = ((t.get i).map f).getD 0 := by
  cases h : t.get i with
  | none => exact sum_eq_zero fun k a ha => if_neg fun hk => by simp [hk, h] at ha
  | some a =>
    rw [sum_eq_erase h, if_pos rfl, sum_eq_zero (t := t.erase i), add_zero]
    · rfl
    · intro k b hb
      rw [get_erase] at hb
      split at hb
      · contradiction
      · exact if_neg ‹_›

theorem sum_comm {u : Table β} {f : ℕ → α → ℕ → β → M} :
    t.sum (fun k a => u.sum (f k a)) = u.sum fun i b => t.sum fun k a => f k a i b := by
  unfold sum
  generalize t.rows = rs
  induction rs with
  | nil => simp
  | cons r rs hi =>
    simp only [List.map_cons, List.sum_cons, hi]
    exact (sum_add (t := u) (f := f r.1 r.2) (g := fun i b => (rs.map fun r => f r.1 r.2 i b).sum)).symm

end Sum

theorem sum_modify [AddCommGroup M] {f : ℕ → α → M} {g : α → α} (h : t.get k = some a) :
    (t.modify k g).sum f = t.sum f + (f k (g a) - f k a) := by
  rw [sum_modify_eq h, sum_eq_erase h]
  abel

theorem sum_sub [AddCommGroup M] {f g : ℕ → α → M} :
    t.sum (fun k a => f k a - g k a) = t.sum f - t.sum g := by
  rw [eq_sub_iff_add_eq, ← sum_add]
  exact sum_congr fun _ _ _ => by abel

-- Summands that differ at one row only.
theorem sum_eq_of_ne [AddCommGroup M] {f g : ℕ → α → M} (hk : t.get k = some a)
    (h : ∀ i b, i ≠ k → t.get i = some b → g i b = f i b) :
    t.sum g = t.sum f + (g k a - f k a) := by
  have : (t.erase k).sum g = (t.erase k).sum f := sum_congr fun i b hi => by
    rw [get_erase] at hi
    split at hi
    · contradiction
    · exact h i b ‹_› hi
  rw [sum_eq_erase hk, @sum_eq_erase _ _ t a k _ f hk, this]
  abel

section Order

variable [AddCommMonoid M] [PartialOrder M] [IsOrderedAddMonoid M] {f g : ℕ → α → M}

theorem sum_nonneg (h : ∀ k a, t.get k = some a → 0 ≤ f k a) : 0 ≤ t.sum f := by
  apply List.sum_nonneg
  simp only [List.mem_map, forall_exists_index, and_imp]
  rintro _ r hr rfl
  exact h r.1 r.2 (mem_rows_iff.mp hr)

theorem sum_le_sum (h : ∀ k a, t.get k = some a → f k a ≤ g k a) : t.sum f ≤ t.sum g := by
  unfold sum
  exact List.sum_le_sum fun r hr => h r.1 r.2 (mem_rows_iff.mp hr)

theorem le_sum (h : ∀ k a, t.get k = some a → 0 ≤ f k a) (hk : t.get k = some a) :
    f k a ≤ t.sum f := by
  rw [sum_eq_erase hk]
  refine le_add_of_nonneg_right <| sum_nonneg fun i b hi => h i b ?_
  rw [get_erase] at hi
  split at hi <;> simp_all

end Order

section Map

-- The keys stay as they are.
def map (t : Table α) (f : α → β) : Table β where
  rows   := t.rows.map fun r => (r.1, f r.2)
  sorted := List.pairwise_map.mpr t.sorted

@[simp]
theorem get_map {f : α → β} : (t.map f).get k = (t.get k).map f := by
  simp only [get, map, List.find?_map, Option.map_map]
  rfl

end Map

end Table
