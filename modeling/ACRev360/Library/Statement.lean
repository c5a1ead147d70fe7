import Mathlib.Data.List.Pairwise
import ACRev360.Library.Relational

variable {R : Relational} {t t' : R.Name} {i k : ℕ}

namespace Relational.Database

variable {s s₁ s₂ : R.Database} {r : R.Rec t} {g : R.Rec t → R.Rec t}

def insert (s : R.Database) (t : R.Name) (k : ℕ) (r : R.Rec t) : R.Database :=
  if k ∈ s.retired t then s
  else { s with table := Function.update s.table t <| (s.table t).insert k r }

def modify (s : R.Database) (t : R.Name) (k : ℕ) (g : R.Rec t → R.Rec t) : R.Database where
  table   := Function.update s.table t <| (s.table t).modify k g
  retired := s.retired

def erase (s : R.Database) (t : R.Name) (k : ℕ) : R.Database where
  table   := Function.update s.table t <| (s.table t).erase k
  retired := Function.update s.retired t <| k :: s.retired t

-- A key of the new row is in use, its primary key or one of a unique constraint.
def conflicts (s : R.Database) (t : R.Name) (k : ℕ) (r : R.Rec t) : Bool :=
  k ∈ s.retired t || ((s.table t).get k).isSome || (R.keys t r).any fun u =>
    R.names.any fun t => (s.table t).rows.any fun r => u ∈ R.keys t r.2

@[simp]
theorem insert_table_ne (h : t' ≠ t) : (s.insert t k r).table t' = s.table t' := by
  unfold insert
  split
  · rfl
  · simp [Function.update_of_ne h]

@[simp]
theorem insert_table (h : k ∉ s.retired t) : (s.insert t k r).table t = (s.table t).insert k r := by
  simp [insert, h]

theorem get_insert_of_some {r' : R.Rec t'} (h : (s.table t').get i = some r') :
    ((s.insert t k r).table t').get i = some r' := by
  by_cases ht : t' = t
  case neg => rwa [insert_table_ne ht]
  case pos =>
    subst ht
    unfold insert
    split
    case isTrue => exact h
    case isFalse =>
      simp only [Function.update_self, Table.get_insert]
      split <;> simp_all

theorem get_insert_cases {r' : R.Rec t} (h : ((s.insert t k r).table t).get i = some r') :
    (i = k ∧ r' = r) ∨ (s.table t).get i = some r' := by
  unfold insert at h
  split at h
  case isTrue => exact .inr h
  case isFalse =>
    simp only [Function.update_self, Table.get_insert] at h
    split at h
    case isTrue hi =>
      cases hk : (s.table t).get k with
      | none => exact .inl ⟨hi, by simpa [hk, eq_comm] using h⟩
      | some r₀ => exact .inr (by simpa [hk, hi] using h)
    case isFalse => exact .inr h

@[simp]
theorem insert_retired : (s.insert t k r).retired = s.retired := by
  unfold insert
  split <;> rfl

@[simp]
theorem modify_table_ne (h : t' ≠ t) : (s.modify t k g).table t' = s.table t' := by
  simp [modify, Function.update_of_ne h]

@[simp]
theorem modify_table : (s.modify t k g).table t = (s.table t).modify k g := by
  simp [modify]

theorem get_modify_cases {r' : R.Rec t} (h : ((s.modify t k g).table t).get i = some r') :
    ∃ r, (s.table t).get i = some r ∧ (i = k ∧ r' = g r ∨ r' = r) := by
  rw [modify_table, Table.get_modify] at h
  split at h
  case isTrue hi =>
    have ⟨r, hr, he⟩ := Option.map_eq_some_iff.mp h
    exact ⟨r, hi ▸ hr, .inl ⟨hi, he.symm⟩⟩
  case isFalse => exact ⟨r', h, .inr rfl⟩

theorem get_modify_of_some {r : R.Rec t} (h : (s.table t).get i = some r) :
    ∃ r', ((s.modify t k g).table t).get i = some r' ∧ (r' = g r ∨ r' = r) := by
  rw [modify_table, Table.get_modify]
  split
  case isTrue hi => exact ⟨g r, by rw [← hi, h]; rfl, .inl rfl⟩
  case isFalse => exact ⟨r, h, .inr rfl⟩

theorem modify_of_fixed {r : R.Rec t} (h : (s.table t).get k = some r) (hg : g r = r) :
    s.modify t k g = s := by
  have : (s.table t).modify k g = s.table t := Table.ext_get fun i => by
    rw [Table.get_modify]
    split
    case isTrue hi => rw [hi, h, Option.map_some, hg]
    case isFalse => rfl
  rw [modify, this, Function.update_eq_self]

@[simp]
theorem modify_retired : (s.modify t k g).retired = s.retired :=
  rfl

@[simp]
theorem erase_table_ne (h : t' ≠ t) : (s.erase t k).table t' = s.table t' := by
  simp [erase, Function.update_of_ne h]

@[simp]
theorem erase_table : (s.erase t k).table t = (s.table t).erase k := by
  simp [erase]

theorem conflicts_false (h : s.conflicts t k r = false) :
    k ∉ s.retired t ∧ (s.table t).get k = none ∧ ∀ u ∈ R.keys t r, ∀ t' i, ¬s.Holds u t' i := by
  simp only [conflicts, Bool.or_eq_false_iff, decide_eq_false_iff_not, Option.isSome_eq_false_iff,
    Option.isNone_iff_eq_none, List.any_eq_false] at h
  refine ⟨h.1.1, h.1.2, fun u hu t' i hheld => ?_⟩
  obtain ⟨r', hr', hk⟩ := hheld
  have := h.2 u hu
  simp only [List.any_eq_true, not_exists, not_and] at this
  exact this t' (R.mem_names t') (i, r') (Table.mem_rows_iff.mpr hr') (by simpa using hk)

-- Under a new primary key, a conflict is one of a unique constraint.
theorem holds_of_conflicts (hr : k ∉ s.retired t) (hk : (s.table t).get k = none)
    (h : s.conflicts t k r) : ∃ u ∈ R.keys t r, ∃ t' i, s.Holds u t' i := by
  simp only [conflicts, hr, hk, decide_false, Option.isSome_none, Bool.or_self, Bool.false_or,
    List.any_eq_true] at h
  obtain ⟨u, hu, t', _, ⟨i, r'⟩, hr', hmem⟩ := h
  exact ⟨u, hu, t', i, r', Table.mem_rows_iff.mp hr', by simpa using hmem⟩

theorem holds_insert_of_mem {u : R.Key} (h : s.Holds u t' i) : (s.insert t k r).Holds u t' i := by
  have ⟨r', hr', hu⟩ := h
  by_cases hk : k ∈ s.retired t
  case pos => simpa [insert, hk] using h
  case neg =>
    refine ⟨r', ?_, hu⟩
    by_cases ht : t' = t
    case neg => rwa [insert_table_ne ht]
    case pos =>
      subst ht
      rw [insert_table hk, Table.get_insert]
      split
      · simp_all
      · exact hr'

theorem holds_insert {u : R.Key} : (s.insert t k r).Holds u t' i ↔
    s.Holds u t' i ∨ (t' = t ∧ i = k ∧ k ∉ s.retired t ∧ (s.table t).get k = none ∧ u ∈ R.keys t r)
    := by
  refine ⟨fun ⟨r', hr', hu⟩ => ?mp, ?mpr⟩
  case mp =>
    by_cases hk : k ∈ s.retired t
    case pos => exact .inl ⟨r', by simpa [insert, hk] using hr', hu⟩
    case neg =>
      by_cases ht : t' = t
      case neg => exact .inl ⟨r', by rwa [insert_table_ne ht] at hr', hu⟩
      case pos =>
        subst ht
        rw [insert_table hk, Table.get_insert] at hr'
        split at hr'
        case isFalse => exact .inl ⟨r', hr', hu⟩
        case isTrue hi =>
          subst hi
          cases hg : (s.table t').get i with
          | some a => simp [hg] at hr'; exact .inl ⟨a, hg, hr' ▸ hu⟩
          | none => simp [hg] at hr'; exact .inr ⟨rfl, rfl, hk, rfl, hr' ▸ hu⟩
  case mpr =>
    rintro (h | ⟨rfl, rfl, hk, hg, hu⟩)
    · exact holds_insert_of_mem h
    · exact ⟨r, by rw [insert_table hk, Table.get_insert_self hg], hu⟩

theorem agree_insert_of_ne {row : R.Row} (h : row ∉ Row.row t k :: (R.keys t r).map Row.key) :
    Agree row s (s.insert t k r) := by
  cases row with
  | row t' i =>
    refine ⟨?_, by simp⟩
    by_cases hk : k ∈ s.retired t
    case pos => simp [insert, hk]
    case neg =>
      by_cases ht : t' = t
      case neg => rw [insert_table_ne ht]
      case pos =>
        subst ht
        have : i ≠ k := fun hi => h (by simp [hi])
        rw [insert_table hk, Table.get_insert_ne this]
  | key u =>
    intro t' i
    rw [holds_insert]
    simp at h
    tauto

theorem agree_insert (h : Agree (.row t k) s₁ s₂) {row : R.Row} (hr : Agree row s₁ s₂) :
    Agree row (s₁.insert t k r) (s₂.insert t k r) := by
  cases row with
  | key u =>
    intro t' i
    rw [holds_insert, holds_insert, hr t' i, h.1, h.2]
  | row t' i =>
    refine ⟨?_, by simpa using hr.2⟩
    by_cases hk : k ∈ s₁.retired t
    case pos => simpa [insert, hk, h.2.mp hk] using hr.1
    case neg =>
      have hk' : k ∉ s₂.retired t := hk ∘ h.2.mpr
      by_cases ht : t' = t
      case neg => rw [insert_table_ne ht, insert_table_ne ht, hr.1]
      case pos =>
        subst ht
        rw [insert_table hk, insert_table hk', Table.get_insert, Table.get_insert, hr.1, h.1]

theorem evolves_insert (row : R.Row) : Evolves row s (s.insert t k r) := by
  cases row with
  | key u => trivial
  | row t' i =>
    by_cases hk : k ∈ s.retired t
    case pos => simpa [insert, hk] using evolves_of_agree ((agree_equivalence _).refl s)
    case neg =>
      by_cases ht : t' = t
      case neg =>
        exact evolves_of_agree ⟨by rw [insert_table_ne ht], by simp⟩
      case pos =>
        subst ht
        refine ⟨fun hi => ?_, fun r' hr' => .inl ⟨r', ?_, rfl⟩⟩
        · have : i ≠ k := fun he => hk (he ▸ hi)
          simp [insert_table hk, Table.get_insert_ne this, hi]
        · rw [insert_table hk, Table.get_insert]
          split <;> simp_all

theorem agree_erase_of_ne (hk : ∀ r, R.keys t r = []) {row : R.Row} (h : row ≠ .row t k) :
    Agree row s (s.erase t k) := by
  cases row with
  | row t' i =>
    by_cases ht : t' = t
    case neg => exact ⟨by rw [erase_table_ne ht], by simp [erase, Function.update_of_ne ht]⟩
    case pos =>
      subst ht
      have : i ≠ k := fun hi => h (by simp [hi])
      simp [Agree, this, erase]
  | key u =>
    intro t' i
    by_cases ht : t' = t
    case neg => simp [Holds, erase_table_ne ht]
    case pos =>
      subst ht
      simp [Holds, hk]

theorem agree_erase : Agree (.row t k) (s₁.erase t k) (s₂.erase t k) :=
  ⟨by simp, by simp [erase]⟩

theorem evolves_erase (row : R.Row) : Evolves row s (s.erase t k) := by
  cases row with
  | key u => trivial
  | row t' i =>
    by_cases ht : t' = t
    case neg =>
      exact evolves_of_agree ⟨by rw [erase_table_ne ht], by simp [erase, Function.update_of_ne ht]⟩
    case pos =>
      subst ht
      refine ⟨fun hi => ⟨by simp [erase, hi], fun hn => by simp [hn]⟩, fun r hr => ?_⟩
      by_cases hi : i = k
      case pos => exact .inr ⟨by simp [hi], by simp [erase, hi]⟩
      case neg => exact .inl ⟨r, by simp [hi, hr], rfl⟩

end Relational.Database

-- A change of a row that leaves its unique columns and its fixed columns as they are.
structure Relational.Keeping (R : Relational) (t : R.Name) (g : R.Rec t → R.Rec t) : Prop where
  keys  : ∀ r, R.keys t (g r) = R.keys t r
  fixed : ∀ r, R.fixed t (g r) = R.fixed t r

namespace Relational.Database

variable {s s₁ s₂ : R.Database} {g : R.Rec t → R.Rec t}

theorem holds_modify (hg : R.Keeping t g) {u : R.Key} :
    (s.modify t k g).Holds u t' i ↔ s.Holds u t' i := by
  by_cases ht : t' = t
  case neg => simp [Holds, modify_table_ne ht]
  case pos =>
    subst ht
    simp only [Holds, modify_table, Table.get_modify]
    split
    · simp_all [hg.keys]
    · rfl

-- No two rows of the table have a unique value in common.
def Unique (t : R.Name) (s : R.Database) : Prop :=
  ∀ ⦃u j k⦄, s.Holds u t j → s.Holds u t k → j = k

theorem Unique.congr (h : Unique t s₁) (ht : s₂.table t = s₁.table t) : Unique t s₂ := by
  intro u j k hj hk
  rw [Holds, ht] at hj hk
  exact h hj hk

theorem Unique.of_pairwise (h : (s.table t).rows.Pairwise fun x y => ∀ u ∈ R.keys t x.2, u ∉ R.keys t y.2) :
    Unique t s := by
  have hsymm : Std.Symm fun x y : ℕ × R.Rec t => ∀ u ∈ R.keys t x.2, u ∉ R.keys t y.2 :=
    ⟨fun _ _ h u hy hx => h u hx hy⟩
  rintro u j k ⟨a, ha, hu⟩ ⟨b, hb, hu'⟩
  by_contra hne
  refine h.forall (Table.mem_rows_iff.mpr ha) (Table.mem_rows_iff.mpr hb) (fun he => hne ?_) u hu hu'
  exact congrArg Prod.fst he

theorem Unique.insert {r : R.Rec t} (h : Unique t s) (hc : s.conflicts t k r = false) :
    Unique t (s.insert t k r) := by
  have ⟨_, _, hfree⟩ := conflicts_false hc
  intro u i j hi hj
  rcases holds_insert.mp hi with hi' | ⟨_, hik, _, _, hu⟩
  · rcases holds_insert.mp hj with hj' | ⟨_, _, _, _, hu⟩
    · exact h hi' hj'
    · exact absurd hi' <| hfree u hu _ _
  · rcases holds_insert.mp hj with hj' | ⟨_, hjk, _⟩
    · exact absurd hj' <| hfree u hu _ _
    · exact hik.trans hjk.symm

theorem Unique.modify (h : Unique t' s) (hg : R.Keeping t g) : Unique t' (s.modify t k g) :=
  fun _ _ _ hi hj => h ((holds_modify hg).mp hi) ((holds_modify hg).mp hj)

theorem agree_modify_of_ne (hg : R.Keeping t g) {row : R.Row} (h : row ≠ .row t k) :
    Agree row s (s.modify t k g) := by
  cases row with
  | row t' i =>
    by_cases ht : t' = t
    case neg => exact ⟨by rw [modify_table_ne ht], .rfl⟩
    case pos =>
      subst ht
      have : i ≠ k := fun hi => h (by simp [hi])
      exact ⟨by simp [this], .rfl⟩
  | key u => exact fun _ _ => (holds_modify hg).symm

theorem agree_modify (h : Agree (.row t k) s₁ s₂) :
    Agree (.row t k) (s₁.modify t k g) (s₂.modify t k g) :=
  ⟨by simp [h.1], h.2⟩

theorem evolves_modify (hg : R.Keeping t g) (row : R.Row) : Evolves row s (s.modify t k g) := by
  by_cases h : row = .row t k
  case neg => exact evolves_of_agree <| agree_modify_of_ne hg h
  case pos =>
    subst h
    refine ⟨fun hi => ⟨hi, fun hn => by simp [hn]⟩, fun r hr => .inl ⟨g r, ?_, hg.fixed r⟩⟩
    simp [hr]

end Relational.Database

-- A change of a row that gives up some of its unique columns and leaves its fixed columns as they are.
structure Relational.Dropping (R : Relational) (t : R.Name) (g : R.Rec t → R.Rec t) : Prop where
  keys  : ∀ r, R.keys t (g r) ⊆ R.keys t r
  fixed : ∀ r, R.fixed t (g r) = R.fixed t r

namespace Relational.Database

variable {s s₁ s₂ : R.Database} {g : R.Rec t → R.Rec t} {us : List R.Key}

-- The row is changed if it has no other unique values than `us`.
def drop (s : R.Database) (t : R.Name) (k : ℕ) (us : List R.Key) (g : R.Rec t → R.Rec t) : R.Database :=
  if ((s.table t).get k).any fun r => R.keys t r ⊆ us then s.modify t k g else s

theorem drop_of_get {r : R.Rec t} (h : (s.table t).get k = some r) :
    s.drop t k (R.keys t r) g = s.modify t k g := by
  simp [drop, h]

theorem holds_of_modify (hg : R.Dropping t g) {u : R.Key} (h : (s.modify t k g).Holds u t' i) :
    s.Holds u t' i := by
  have ⟨r, hr, hu⟩ := h
  by_cases ht : t' = t
  case neg => exact ⟨r, by rwa [modify_table_ne ht] at hr, hu⟩
  case pos =>
    subst ht
    rw [modify_table, Table.get_modify] at hr
    split at hr
    case isFalse => exact ⟨r, hr, hu⟩
    case isTrue hi =>
      obtain ⟨r', hr', rfl⟩ := Option.map_eq_some_iff.mp hr
      exact ⟨r', hi ▸ hr', hg.keys r' hu⟩

theorem holds_modify_ne {u : R.Key} (h : t' = t → i ≠ k) :
    (s.modify t k g).Holds u t' i ↔ s.Holds u t' i := by
  by_cases ht : t' = t
  case neg => simp [Holds, modify_table_ne ht]
  case pos =>
    subst ht
    simp [Holds, h rfl]

theorem Unique.drop (h : Unique t' s) (hg : R.Dropping t g) : Unique t' (s.modify t k g) :=
  fun _ _ _ hi hj => h (holds_of_modify hg hi) (holds_of_modify hg hj)

theorem agree_drop_of_ne (hg : R.Dropping t g) {row : R.Row}
    (h : row ∉ Row.row t k :: us.map Row.key) : Agree row s (s.drop t k us g) := by
  unfold drop
  split
  case isFalse => exact (agree_equivalence row).refl s
  case isTrue hus =>
    obtain ⟨r, hr, hsub⟩ := Option.any_eq_true _ _ |>.mp hus
    cases row with
    | row t' i =>
      by_cases ht : t' = t
      case neg => exact ⟨by rw [modify_table_ne ht], .rfl⟩
      case pos =>
        subst ht
        have : i ≠ k := fun hi => h (by simp [hi])
        exact ⟨by simp [this], .rfl⟩
    | key u =>
      -- The row has not had the value before, so it does not have it now.
      intro t' i
      refine ⟨fun hu => ?_, holds_of_modify hg⟩
      rw [holds_modify_ne]
      · exact hu
      · rintro rfl rfl
        obtain ⟨r', hr', hmem⟩ := hu
        obtain rfl := Option.some.inj <| hr.symm.trans hr'
        exact h <| by simpa using of_decide_eq_true hsub hmem

theorem agree_drop (h : Agree (.row t k) s₁ s₂) {row : R.Row} (hr : Agree row s₁ s₂) :
    Agree row (s₁.drop t k us g) (s₂.drop t k us g) := by
  unfold drop
  rw [h.1]
  split
  case isFalse => exact hr
  case isTrue =>
    cases row with
    | row t' i =>
      refine ⟨?_, hr.2⟩
      by_cases ht : t' = t
      case neg => rw [modify_table_ne ht, modify_table_ne ht, hr.1]
      case pos =>
        subst ht
        rw [modify_table, modify_table, Table.get_modify, Table.get_modify, hr.1, h.1]
    | key u =>
      intro t' i
      by_cases hk : t' = t ∧ i = k
      case neg =>
        have hne : t' = t → i ≠ k := fun ht hi => hk ⟨ht, hi⟩
        rw [holds_modify_ne hne, holds_modify_ne hne, hr t' i]
      case pos =>
        obtain ⟨rfl, rfl⟩ := hk
        simp [Holds, h.1]

theorem evolves_drop (hg : R.Dropping t g) (row : R.Row) : Evolves row s (s.drop t k us g) := by
  unfold drop
  split
  case isFalse => exact evolves_of_agree <| (agree_equivalence row).refl s
  case isTrue =>
    cases row with
    | key u => trivial
    | row t' i =>
      by_cases hk : t' = t ∧ i = k
      case neg =>
        refine evolves_of_agree ⟨?_, .rfl⟩
        by_cases ht : t' = t
        case neg => rw [modify_table_ne ht]
        case pos =>
          subst ht
          simp [show i ≠ k from fun hi => hk ⟨rfl, hi⟩]
      case pos =>
        obtain ⟨rfl, rfl⟩ := hk
        refine ⟨fun hi => ⟨hi, fun hn => by simp [hn]⟩, fun r hr => .inl ⟨g r, ?_, hg.fixed r⟩⟩
        simp [hr]

section Removal

-- The row is deleted if it has no other unique values than `us`.
def remove (s : R.Database) (t : R.Name) (k : ℕ) (us : List R.Key) : R.Database :=
  if ((s.table t).get k).any fun r => R.keys t r ⊆ us then s.erase t k else s

theorem remove_of_get {r : R.Rec t} (h : (s.table t).get k = some r) :
    s.remove t k (R.keys t r) = s.erase t k := by
  simp [remove, h]

theorem holds_of_erase {u : R.Key} (h : (s.erase t k).Holds u t' i) : s.Holds u t' i := by
  have ⟨r, hr, hu⟩ := h
  by_cases ht : t' = t
  case neg => exact ⟨r, by rwa [erase_table_ne ht] at hr, hu⟩
  case pos =>
    subst ht
    rw [erase_table, Table.get_erase] at hr
    split at hr
    · contradiction
    · exact ⟨r, hr, hu⟩

theorem holds_erase_ne {u : R.Key} (h : t' = t → i ≠ k) : (s.erase t k).Holds u t' i ↔ s.Holds u t' i := by
  by_cases ht : t' = t
  case neg => simp [Holds, erase_table_ne ht]
  case pos =>
    subst ht
    simp [Holds, h rfl]

theorem agree_remove_of_ne {row : R.Row} (h : row ∉ Row.row t k :: us.map Row.key) :
    Agree row s (s.remove t k us) := by
  unfold remove
  split
  case isFalse => exact (agree_equivalence row).refl s
  case isTrue hus =>
    obtain ⟨r, hr, hsub⟩ := Option.any_eq_true _ _ |>.mp hus
    cases row with
    | row t' i =>
      by_cases ht : t' = t
      case neg => exact ⟨by rw [erase_table_ne ht], by simp [erase, Function.update_of_ne ht]⟩
      case pos =>
        subst ht
        have : i ≠ k := fun hi => h (by simp [hi])
        simp [Agree, this, erase]
    | key u =>
      -- The row has not had the value.
      intro t' i
      refine ⟨fun hu => ?_, holds_of_erase⟩
      rw [holds_erase_ne]
      · exact hu
      · rintro rfl rfl
        obtain ⟨r', hr', hmem⟩ := hu
        obtain rfl := Option.some.inj <| hr.symm.trans hr'
        exact h <| by simpa using of_decide_eq_true hsub hmem

theorem agree_remove (h : Agree (.row t k) s₁ s₂) {row : R.Row} (hr : Agree row s₁ s₂) :
    Agree row (s₁.remove t k us) (s₂.remove t k us) := by
  unfold remove
  rw [h.1]
  split
  case isFalse => exact hr
  case isTrue =>
    cases row with
    | row t' i =>
      by_cases ht : t' = t
      case neg =>
        refine ⟨by rw [erase_table_ne ht, erase_table_ne ht, hr.1], ?_⟩
        simpa [erase, Function.update_of_ne ht] using hr.2
      case pos =>
        subst ht
        refine ⟨?_, by simp [erase, hr.2]⟩
        rw [erase_table, erase_table, Table.get_erase, Table.get_erase, hr.1]
    | key u =>
      intro t' i
      by_cases hk : t' = t ∧ i = k
      case neg =>
        have hne : t' = t → i ≠ k := fun ht hi => hk ⟨ht, hi⟩
        rw [holds_erase_ne hne, holds_erase_ne hne, hr t' i]
      case pos =>
        obtain ⟨rfl, rfl⟩ := hk
        simp [Holds]

theorem evolves_remove (row : R.Row) : Evolves row s (s.remove t k us) := by
  unfold remove
  split
  · exact evolves_erase row
  · exact evolves_of_agree <| (agree_equivalence row).refl s

end Removal

end Relational.Database

namespace Relational

open Database

def insertAct (t : R.Name) (k : ℕ) (r : R.Rec t) : Act R.schema where
  locks   := .row t k :: (R.keys t r).map .key
  sees    := []
  eff s   := s.insert t k r
  frame _ := agree_insert_of_ne
  det h row hr := agree_insert (h (.row t k) (by simp)) (h row hr)
  evolves row _ := evolves_insert row

def updateAct (t : R.Name) (k : ℕ) (g : R.Rec t → R.Rec t) (hg : R.Keeping t g) : Act R.schema where
  locks   := [.row t k]
  sees    := []
  eff s   := s.modify t k g
  frame _ h := agree_modify_of_ne hg (by simpa using h)
  det h row hr := by
    rw [List.mem_singleton.mp hr]
    exact agree_modify <| h (.row t k) (by simp)
  evolves row _ := evolves_modify hg row

def deleteAct (t : R.Name) (k : ℕ) (hk : ∀ r, R.keys t r = []) : Act R.schema where
  locks   := [.row t k]
  sees    := []
  eff s   := s.erase t k
  frame _ h := agree_erase_of_ne hk (by simpa using h)
  det _ row hr := by
    rw [List.mem_singleton.mp hr]
    exact agree_erase
  evolves row _ := evolves_erase row

def closeAct (t : R.Name) (k : ℕ) (us : List R.Key) (g : R.Rec t → R.Rec t) (hg : R.Dropping t g) :
    Act R.schema where
  locks   := .row t k :: us.map .key
  sees    := []
  eff s   := s.drop t k us g
  frame _ := agree_drop_of_ne hg
  det h row hr := agree_drop (h (.row t k) (by simp)) (h row hr)
  evolves row _ := evolves_drop hg row

def removeAct (t : R.Name) (k : ℕ) (us : List R.Key) : Act R.schema where
  locks   := .row t k :: us.map .key
  sees    := []
  eff s   := s.remove t k us
  frame _ := agree_remove_of_ne
  det h row hr := agree_remove (h (.row t k) (by simp)) (h row hr)
  evolves row _ := evolves_remove row

variable {α : Type}

-- Raises an exception after which the transaction takes no statement.
def abort (e : R.Error) : Prog R.schema α :=
  .raise ⟨e, true⟩

def refuse (e : R.Error) : Prog R.schema α :=
  .raise ⟨e, false⟩

-- A query that takes no lock, but relies on the facets it sees to stay as they are.
def select (f : R.Database → α) (sees : List R.Facet) : Prog R.schema α := do
  let s ← .step fun _ => .look [] sees
  return f s

-- SELECT ... FOR UPDATE of one row: the row as it is once its lock is granted.
def selectForUpdate (t : R.Name) (k : ℕ) : Prog R.schema (Option (R.Rec t)) := do
  let s ← .step fun s => .look (if ((s.table t).get k).isSome then [.row t k] else []) []
  return (s.table t).get k

-- INSERT under the next primary key of the table's sequence. It waits for the transactions that have
-- inserted the same unique values, and fails if they have committed.
def create (t : R.Name) (r : R.Rec t) : Prog R.schema ℕ := do
  let k ← .fresh t
  let s ← .step fun s =>
    if s.conflicts t k r then .look (.row t k :: (R.keys t r).map .key) [] else insertAct t k r
  if s.conflicts t k r then abort R.integrityError
  return k

-- UPDATE of one row: the row as it was when its lock was granted, if there is one.
def update (t : R.Name) (k : ℕ) (g : R.Rec t → R.Rec t)
    (hg : R.Keeping t g := by exact ⟨fun _ => rfl, fun _ => rfl⟩) :
    Prog R.schema (Option (R.Rec t)) := do
  let s ← .step fun s => if ((s.table t).get k).isSome then updateAct t k g hg else .look [] []
  return (s.table t).get k

-- The UPDATE of a saved object, which fails if its row is gone.
def save (t : R.Name) (k : ℕ) (g : R.Rec t → R.Rec t)
    (hg : R.Keeping t g := by exact ⟨fun _ => rfl, fun _ => rfl⟩) : Prog R.schema Unit := do
  if (← update t k g hg).isNone then abort R.databaseError

-- The UPDATE of a saved object whose row gives up unique values. Who inserts one of them waits for it.
def close (t : R.Name) (k : ℕ) (g : R.Rec t → R.Rec t)
    (hg : R.Dropping t g := by exact ⟨fun _ => by simp, fun _ => rfl⟩) : Prog R.schema Unit := do
  let s ← .step fun s =>
    match (s.table t).get k with
    | some r => closeAct t k (R.keys t r) g hg
    | none   => .look [] []
  if ((s.table t).get k).isNone then abort R.databaseError

def delete (t : R.Name) (k : ℕ)
    (hk : ∀ r, R.keys t r = [] := by exact fun _ => rfl) : Prog R.schema Unit := do
  let _ ← .step fun s =>
    if ((s.table t).get k).isSome then deleteAct t k hk else .look [] []
  return ()

-- DELETE of a row with unique values. Who inserts one of them waits for it.
def remove (t : R.Name) (k : ℕ) : Prog R.schema Unit := do
  let _ ← .step fun s =>
    match (s.table t).get k with
    | some r => removeAct t k (R.keys t r)
    | none   => .look [] []
  return ()

end Relational
