import ACRev360.Library.Rules

variable {R : Relational} {t t' : R.Name} {i k : ℕ}

-- A change of a row that leaves its fixed columns as they are.
structure Relational.Fixing (R : Relational) (t : R.Name) (g : R.Rec t → R.Rec t) : Prop where
  fixed : ∀ r, R.fixed t (g r) = R.fixed t r

namespace Relational.Database

variable {s s₁ s₂ : R.Database} {r : R.Rec t} {g : R.Rec t → R.Rec t} {us : List R.Key}

-- Another row has a unique value of `r`, which the row `k` is to become.
def clashes (s : R.Database) (t : R.Name) (k : ℕ) (r : R.Rec t) : Bool :=
  (R.keys t r).any fun u => R.names.any fun t' => (s.table t').rows.any fun x =>
    (R.keys t' x.2).contains u && !(t' = t && x.1 = k)

theorem clashes_false (h : s.clashes t k r = false) {u : R.Key} (hu : u ∈ R.keys t r) (hi : s.Holds u t' i) :
    t' = t ∧ i = k := by
  obtain ⟨r', hr', hu'⟩ := hi
  simp only [clashes, List.any_eq_false] at h
  have := h u hu
  simp only [List.any_eq_true, not_exists, not_and] at this
  have := this t' (R.mem_names t') (i, r') (Table.mem_rows_iff.mpr hr')
  simpa [hu'] using this

-- The row is changed if it neither has nor gets other unique values than `us`.
def rekey (s : R.Database) (t : R.Name) (k : ℕ) (us : List R.Key) (g : R.Rec t → R.Rec t) : R.Database :=
  if ((s.table t).get k).any fun r => R.keys t r ++ R.keys t (g r) ⊆ us then s.modify t k g else s

theorem rekey_of_get (h : (s.table t).get k = some r) :
    s.rekey t k (R.keys t r ++ R.keys t (g r)) g = s.modify t k g := by
  simp only [rekey, h, Option.any_some, decide_eq_true (List.Subset.refl _), if_true]

theorem agree_rekey_of_ne {row : R.Row} (h : row ∉ Row.row t k :: us.map Row.key) :
    Agree row s (s.rekey t k us g) := by
  unfold rekey
  split
  case isFalse => exact (agree_equivalence row).refl s
  case isTrue hus =>
    obtain ⟨r, hr, hsub⟩ := Option.any_eq_true _ _ |>.mp hus
    have hsub := of_decide_eq_true hsub
    cases row with
    | row t' i =>
      by_cases ht : t' = t
      case neg => exact ⟨by rw [modify_table_ne ht], .rfl⟩
      case pos =>
        subst ht
        have : i ≠ k := fun hi => h (by simp [hi])
        exact ⟨by simp [this], .rfl⟩
    | key u =>
      -- The row has the value neither before nor afterwards.
      have hu : u ∉ us := fun hu => h <| by simp [hu]
      intro t' i
      by_cases hk : t' = t ∧ i = k
      case neg => rw [holds_modify_ne fun ht hi => hk ⟨ht, hi⟩]
      case pos =>
        obtain ⟨rfl, rfl⟩ := hk
        refine iff_of_false ?before ?after
        case before =>
          rintro ⟨r', hr', hmem⟩
          obtain rfl := Option.some.inj <| hr.symm.trans hr'
          exact hu <| hsub <| List.mem_append_left _ hmem
        case after =>
          rintro ⟨r', hr', hmem⟩
          rw [modify_table, Table.get_modify, if_pos rfl, hr, Option.map_some] at hr'
          obtain rfl := Option.some.inj hr'
          exact hu <| hsub <| List.mem_append_right _ hmem

theorem agree_rekey (h : Agree (.row t k) s₁ s₂) {row : R.Row} (hr : Agree row s₁ s₂) :
    Agree row (s₁.rekey t k us g) (s₂.rekey t k us g) := by
  unfold rekey
  rw [h.1]
  split
  case isFalse => exact hr
  case isTrue =>
    cases row with
    | row t' i =>
      refine ⟨?_, hr.2⟩
      by_cases ht : t' = t
      case neg => rw [modify_table_ne ht, modify_table_ne ht, hr.1]
      case pos =>
        subst ht
        rw [modify_table, modify_table, Table.get_modify, Table.get_modify, hr.1, h.1]
    | key u =>
      intro t' i
      by_cases hk : t' = t ∧ i = k
      case neg =>
        have hne : t' = t → i ≠ k := fun ht hi => hk ⟨ht, hi⟩
        rw [holds_modify_ne hne, holds_modify_ne hne, hr t' i]
      case pos =>
        obtain ⟨rfl, rfl⟩ := hk
        simp [Holds, h.1]

theorem evolves_rekey (hg : R.Fixing t g) (row : R.Row) : Evolves row s (s.rekey t k us g) := by
  unfold rekey
  split
  case isFalse => exact evolves_of_agree <| (agree_equivalence row).refl s
  case isTrue =>
    cases row with
    | key u => trivial
    | row t' i =>
      by_cases hk : t' = t ∧ i = k
      case neg =>
        refine evolves_of_agree ⟨?_, .rfl⟩
        by_cases ht : t' = t
        case neg => rw [modify_table_ne ht]
        case pos =>
          subst ht
          simp [show i ≠ k from fun hi => hk ⟨rfl, hi⟩]
      case pos =>
        obtain ⟨rfl, rfl⟩ := hk
        refine ⟨fun hi => ⟨hi, fun hn => by simp [hn]⟩, fun r hr => .inl ⟨g r, ?_, hg.fixed r⟩⟩
        simp [hr]

end Relational.Database

namespace Relational

open Database

def rekeyAct (t : R.Name) (k : ℕ) (us : List R.Key) (g : R.Rec t → R.Rec t) (hg : R.Fixing t g) :
    Act R.schema where
  locks   := .row t k :: us.map .key
  sees    := []
  eff s   := s.rekey t k us g
  frame _ := agree_rekey_of_ne
  det h row hr := agree_rekey (h (.row t k) (by simp)) (h row hr)
  evolves row _ := evolves_rekey hg row

-- The UPDATE of a saved object whose row gets other unique values. It waits for the transactions that
-- have inserted the same ones, and fails if they have committed.
def replace (t : R.Name) (k : ℕ) (g : R.Rec t → R.Rec t) (hg : R.Fixing t g := by exact ⟨fun _ => rfl⟩) :
    Prog R.schema Unit := do
  let s ← .step fun s =>
    match (s.table t).get k with
    | some r =>
      if s.clashes t k (g r) then .look (.row t k :: (R.keys t (g r)).map .key) []
      else rekeyAct t k (R.keys t r ++ R.keys t (g r)) g hg
    | none   => .look [] []
  match (s.table t).get k with
  | some r => if s.clashes t k (g r) then abort R.integrityError
  | none   => abort R.databaseError

theorem post_replace {s : R.Database} {g : R.Rec t → R.Rec t} {hg : R.Fixing t g}
    {Q : Except R.Exn Unit → R.Database → Prop}
    (h : ∀ r, (s.table t).get k = some r → s.clashes t k (g r) = false → Q (.ok ()) (s.modify t k g))
    (he : ∀ e, Q (.error e) s) : Prog.Post (replace t k g hg) s Q := by
  refine .bind <| .step ?_
  cases hk : (s.table t).get k with
  | none => simpa [hk] using .raise <| he _
  | some r =>
    cases hc : s.clashes t k (g r) with
    | true => simpa [hk, hc] using .raise <| he _
    | false => simpa [hk, hc, rekeyAct, rekey_of_get hk] using .ret <| h r hk hc

-- What a row becomes has none of the unique values of the others.
theorem Database.Unique.replace {s : R.Database} {g : R.Rec t → R.Rec t} {r : R.Rec t}
    (h : Unique t s) (hk : (s.table t).get k = some r) (hc : s.clashes t k (g r) = false) :
    Unique t (s.modify t k g) := by
  have hnew {u i} (hi : (s.modify t k g).Holds u t i) : i = k ∧ u ∈ R.keys t (g r) ∨ i ≠ k ∧ s.Holds u t i := by
    by_cases he : i = k
    case neg => exact .inr ⟨he, (holds_modify_ne fun _ => he).mp hi⟩
    case pos =>
      obtain ⟨r', hr', hu⟩ := hi
      rw [modify_table, Table.get_modify, if_pos he, hk, Option.map_some] at hr'
      obtain rfl := Option.some.inj hr'
      exact .inl ⟨he, hu⟩
  intro u i j hi hj
  rcases hnew hi with ⟨hik, hu⟩ | ⟨_, hi'⟩
  · rcases hnew hj with ⟨hjk, _⟩ | ⟨_, hj'⟩
    · exact hik.trans hjk.symm
    · exact hik.trans (clashes_false hc hu hj').2.symm
  · rcases hnew hj with ⟨hjk, hu⟩ | ⟨_, hj'⟩
    · exact (clashes_false hc hu hi').2.trans hjk.symm
    · exact h hi' hj'

end Relational
