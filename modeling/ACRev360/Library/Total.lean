import ACRev360.Library.Rules

variable {S : Schema} {α β γ : Type}

namespace Script

variable {c : S.State} {x : Txn S} {n : S.Seq → ℕ} {p : Script S α}

theorem exec_bind {f : α → Script S β} : (p.bind f).exec c x n =
    match p.exec c x n with
    | (.ok a, y, m)    => (f a).exec c y m
    | (.error e, y, m) => (.error e, y, m) := by
  induction p generalizing x n with
  | ret a => rfl
  | raise e => rfl
  | step act k hi => exact hi _
  | fresh q k hi => exact hi _
  | mark k hi => exact hi x
  | reset sp k hi => exact hi

theorem exec_tryCatch {f : S.Exn → Script S α} : (p.tryCatch f).exec c x n =
    match p.exec c x n with
    | (.ok a, y, m)    => (.ok a, y, m)
    | (.error e, y, m) => (f e).exec c y m := by
  induction p generalizing x n with
  | ret a => rfl
  | raise e => rfl
  | step act k hi => exact hi _
  | fresh q k hi => exact hi _
  | mark k hi => exact hi x
  | reset sp k hi => exact hi

-- Sequences only go on.
theorem exec_seq_le (q : S.Seq) : n q ≤ (p.exec c x n).2.2 q := by
  induction p generalizing x n with
  | ret a => exact le_rfl
  | raise e => exact le_rfl
  | step act k hi => exact hi _
  | fresh q' k hi =>
    refine le_trans ?_ (hi (n q') (x := x) (n := Function.update n q' (n q' + 1)))
    by_cases h : q = q'
    · simp [h]
    · simp [Function.update_of_ne h]
  | mark k hi => exact hi x
  | reset sp k hi => exact hi

end Script

-- The result of a program may be left out.
theorem Prog.call_discard {p : Prog S α} {s t : S.State} {n m : S.Seq → ℕ} {a : α} (h : p.call s n = (.ok a, t, m)) :
    (do let _ ← p : Prog S Unit).call s n = (.ok (), t, m) := by
  unfold Prog.call at *
  rw [show (p >>= fun _ => pure ()).script.exec s .start n = _ from Script.exec_bind]
  generalize p.script.exec s .start n = out at *
  match out with
  | (.ok b, y, m) =>
    simp only at h ⊢
    split at h
    case isTrue => simp_all [Script.exec, pure]
    case isFalse => simp at h
  | (.error e, y, m) => simp at h

variable {R : Relational} {t t' : R.Name} {k : ℕ}

namespace Relational

namespace Database

variable {s : R.Database} {n m : R.Name → ℕ}

-- The row that a foreign key refers to is there.
def Has (s : R.Database) (ref : R.Name × ℕ) : Prop :=
  ∃ r, (s.table ref.1).get ref.2 = some r

theorem valid_iff : s.valid ↔ ∀ t k r, (s.table t).get k = some r → ∀ ref ∈ R.refs t r, s.Has ref := by
  refine ⟨fun h t k r hr ref href => valid_ref h hr href, fun h => ?_⟩
  simp only [valid, List.all_eq_true]
  rintro t _ ⟨k, r⟩ hr ref href
  exact Option.isSome_iff_exists.mpr <| h t k r (Table.mem_rows_iff.mp hr) ref href

-- A database between transactions: foreign keys refer to rows, and the primary keys that the sequences
-- will hand out have never been in use.
structure Proper (s : R.Database) (n : R.Name → ℕ) : Prop where
  refs  : ∀ {t k r}, (s.table t).get k = some r → ∀ ref ∈ R.refs t r, s.Has ref
  fresh : ∀ {t k}, n t ≤ k → k ∉ s.retired t ∧ (s.table t).get k = none

theorem Proper.valid (h : s.Proper n) : s.valid :=
  valid_iff.mpr fun _ _ _ hr => h.refs hr

theorem proper_of_bounds (hv : s.valid)
    (h : R.names.all fun t => (s.table t).rows.all (·.1 < n t) && (s.retired t).all (· < n t)) :
    s.Proper n where
  refs hr := valid_iff.mp hv _ _ _ hr
  fresh {t k} hk := by
    have h := List.all_eq_true.mp h t (R.mem_names t)
    simp only [Bool.and_eq_true, List.all_eq_true, decide_eq_true_eq] at h
    refine ⟨fun hr => absurd (h.2 k hr) hk.not_gt, Table.get_eq_none_iff.mpr fun r hr he => ?_⟩
    exact absurd (h.1 r hr) (he ▸ hk).not_gt

theorem Proper.mono (h : s.Proper n) (hn : ∀ t, n t ≤ m t) : s.Proper m where
  refs     := h.refs
  fresh hk := h.fresh <| (hn _).trans hk

theorem Has.insert {ref : R.Name × ℕ} {r : R.Rec t} (h : s.Has ref) : (s.insert t k r).Has ref :=
  h.imp fun _ hr => get_insert_of_some hr

theorem Has.modify {ref : R.Name × ℕ} {g : R.Rec t → R.Rec t} (h : s.Has ref) :
    (s.modify t k g).Has ref := by
  obtain ⟨r, hr⟩ := h
  by_cases ht : ref.1 = t
  case neg => exact ⟨r, by rwa [modify_table_ne ht]⟩
  case pos =>
    obtain ⟨t', i⟩ := ref
    subst ht
    simp only [Has, modify_table, Table.get_modify]
    split
    · exact ⟨g r, by simp_all⟩
    · exact ⟨r, hr⟩

theorem Has.of_only {ref : R.Name × ℕ} {ts : List R.Name} {s' : R.Database} (h : s.Has ref)
    (ho : Only ts s s') (ht : ref.1 ∉ ts) : s'.Has ref := by
  obtain ⟨r, hr⟩ := h
  exact ⟨r, (congrArg (·.get ref.2) (ho ref.1 ht)).trans hr⟩

theorem Proper.insert {r : R.Rec t} (h : s.Proper n) (hr : ∀ ref ∈ R.refs t r, s.Has ref) :
    (s.insert t (n t) r).Proper (Function.update n t (n t + 1)) where
  refs {t' i r'} hr' ref href := by
    by_cases ht : t' = t
    case neg => exact (h.refs (insert_table_ne ht ▸ hr') ref href).insert
    case pos =>
      subst ht
      rcases get_insert_cases hr' with ⟨_, rfl⟩ | hr'
      · exact (hr ref href).insert
      · exact (h.refs hr' ref href).insert
  fresh {t' i} hi := by
    rw [insert_retired]
    by_cases ht : t' = t
    case neg =>
      rw [Function.update_of_ne ht] at hi
      rw [insert_table_ne ht]
      exact h.fresh hi
    case pos =>
      subst ht
      rw [Function.update_self] at hi
      have ⟨hr, hn⟩ := h.fresh (show n t' ≤ i by omega)
      exact ⟨hr, by rw [insert_table (h.fresh le_rfl).1, Table.get_insert_ne (by omega), hn]⟩

theorem Proper.modify {g : R.Rec t → R.Rec t} (h : s.Proper n)
    (hg : ∀ r, (s.table t).get k = some r → ∀ ref ∈ R.refs t (g r), s.Has ref) :
    (s.modify t k g).Proper n where
  refs {t' i r'} hr' ref href := by
    by_cases ht : t' = t
    case neg => exact (h.refs (modify_table_ne ht ▸ hr') ref href).modify
    case pos =>
      subst ht
      rw [modify_table, Table.get_modify] at hr'
      split at hr'
      case isTrue hi =>
        obtain ⟨r, hr, rfl⟩ := Option.map_eq_some_iff.mp hr'
        exact (hg r hr ref href).modify
      case isFalse => exact (h.refs hr' ref href).modify
  fresh {t' i} hi := by
    refine ⟨(h.fresh hi).1, ?_⟩
    by_cases ht : t' = t
    case neg => rw [modify_table_ne ht, (h.fresh hi).2]
    case pos =>
      subst ht
      rw [modify_table, Table.get_modify]
      split
      case isTrue he => rw [← he, (h.fresh hi).2, Option.map_none]
      case isFalse => exact (h.fresh hi).2

end Database

-- Wherever a transaction that sees `s` runs `p` alone, in a database whose sequences are ahead, it
-- comes to an outcome and to a state it then sees that satisfy `Q`, and references are kept.
def Runs (p : Prog R.schema α) (s : R.Database) (Q : Except R.Exn α → R.Database → Prop) : Prop :=
  ∀ c (x : Txn R.schema) n, x.pend c = s → s.Proper n →
    Q (p.script.exec c x n).1 ((p.script.exec c x n).2.1.pend c) ∧
    Database.Proper ((p.script.exec c x n).2.1.pend c) (p.script.exec c x n).2.2

namespace Runs

open Database

variable {s : R.Database} {Q Q' : Except R.Exn α → R.Database → Prop}

theorem ret {a : α} (h : Q (.ok a) s) : Runs (pure a) s Q := by
  rintro c x n rfl hp
  exact ⟨h, hp⟩

theorem raise {e : R.Exn} (h : Q (.error e) s) : Runs (Prog.raise e) s Q := by
  rintro c x n rfl hp
  exact ⟨h, hp⟩

theorem mono {p : Prog R.schema α} (h : Runs p s Q) (hq : ∀ r t, Q r t → Q' r t) : Runs p s Q' :=
  fun c x n hs hp => (h c x n hs hp).imp_left <| hq _ _

-- The references of the state may be relied on.
theorem of_refs {p : Prog R.schema α}
    (h : (∀ t k r, (s.table t).get k = some r → ∀ ref ∈ R.refs t r, s.Has ref) → Runs p s Q) :
    Runs p s Q :=
  fun c x n hs hp => h (fun _ _ _ => hp.refs) c x n hs hp

theorem and_post {p : Prog R.schema α} (h : Runs p s Q) (h' : Prog.Post p s Q') :
    Runs p s fun r t => Q r t ∧ Q' r t :=
  fun c x n hs hp => ⟨⟨(h c x n hs hp).1, (h' c x hs).exec n⟩, (h c x n hs hp).2⟩

theorem bind {p : Prog R.schema β} {f : β → Prog R.schema α}
    (h : Runs p s fun r t => match r with | .ok b => Runs (f b) t Q | .error e => Q (.error e) t) :
    Runs (p >>= f) s Q := by
  intro c x n hs hp
  have ⟨hr, hp⟩ := h c x n hs hp
  rw [show (p >>= f).script.exec c x n = _ from Script.exec_bind]
  generalize p.script.exec c x n = out at *
  match out with
  | (.ok b, y, m)    => exact hr c y m rfl hp
  | (.error e, y, m) => exact ⟨hr, hp⟩

theorem attempt {p : Prog R.schema α} {Q : Except R.Exn (Except R.Exn α) → R.Database → Prop}
    (h : Runs p s fun r t => Q (.ok r) t) : Runs p.attempt s Q := by
  intro c x n hs hp
  have ⟨hr, hp⟩ := h c x n hs hp
  rw [show p.attempt.script.exec c x n = _ from Script.exec_tryCatch, Script.exec_bind]
  generalize p.script.exec c x n = out at *
  match out with
  | (.ok b, y, m)    => exact ⟨hr, hp⟩
  | (.error e, y, m) => exact ⟨hr, hp⟩

theorem atomic {p : Prog R.schema α}
    (h : Runs p s fun r t => match r with
      | .ok a    => Q (.ok a) t
      | .error e => Q (.error { e with aborted := false }) s) : Runs p.atomic s Q := by
  intro c x n hs hp
  have ⟨hr, hp'⟩ := h c x n hs hp
  have hle := p.script.exec_seq_le (c := c) (x := x) (n := n)
  rw [show p.atomic.script.exec c x n = _ from Script.exec_tryCatch]
  generalize p.script.exec c x n = out at *
  match out with
  | (.ok b, y, m)    => exact ⟨hr, hp'⟩
  | (.error e, y, m) =>
    subst hs
    exact ⟨hr, hp.mono hle⟩

-- A call of the program commits what the program comes to, unless it fails.
theorem call {p : Prog R.schema α} {n : R.Name → ℕ} (h : Runs p s Q) (hs : s.Proper n) :
    (∃ a t m, p.call s n = (.ok a, t, m) ∧ Q (.ok a) t) ∨
      ∃ e t m, p.call s n = (.error e, s, m) ∧ Q (.error e) t := by
  have ⟨hq, hp⟩ := h s .start n rfl hs
  unfold Prog.call
  generalize p.script.exec s .start n = out at *
  match out with
  | (.ok a, y, m) =>
    refine .inl ⟨a, _, m, ?_, hq⟩
    exact if_pos hp.valid
  | (.error e, y, m) => exact .inr ⟨e, _, m, rfl, hq⟩

end Runs

section Statements

open Database

variable {s : R.Database}

theorem runs_select {f : R.Database → α} {sees : List R.Facet}
    {Q : Except R.Exn α → R.Database → Prop} (h : Q (.ok (f s)) s) : Runs (select f sees) s Q := by
  rintro c x n rfl hp
  exact ⟨h, hp⟩

theorem runs_selectForUpdate {Q : Except R.Exn (Option (R.Rec t)) → R.Database → Prop}
    (h : Q (.ok ((s.table t).get k)) s) : Runs (selectForUpdate t k) s Q := by
  rintro c x n rfl hp
  exact ⟨h, hp⟩

theorem exec_create {r : R.Rec t} {c : R.Database} {x : Txn R.schema} {n : R.Name → ℕ} :
    (create t r).script.exec c x n =
      if Database.conflicts (x.pend c) t (n t) r then
        (.error ⟨R.integrityError, true⟩, x.add (.look (.row t (n t) :: (R.keys t r).map .key) []),
          Function.update n t (n t + 1))
      else (.ok (n t), x.add (insertAct t (n t) r), Function.update n t (n t + 1)) := by
  have hexec : (create t r).script.exec c x n =
      (if Database.conflicts (x.pend c) t (n t) r then abort R.integrityError >>= fun _ => pure (n t)
        else pure (n t) : Prog R.schema ℕ).script.exec c
        (x.add (if Database.conflicts (x.pend c) t (n t) r then
          .look (.row t (n t) :: (R.keys t r).map .key) [] else insertAct t (n t) r))
        (Function.update n t (n t + 1)) := rfl
  rw [hexec]
  split <;> rfl

theorem runs_create {r : R.Rec t} {Q : Except R.Exn ℕ → R.Database → Prop}
    (hrefs : ∀ ref ∈ R.refs t r, s.Has ref)
    (h : (∀ u ∈ R.keys t r, ∀ t' i, ¬s.Holds u t' i) → ∀ k, k ∉ s.retired t →
      (s.table t).get k = none → Q (.ok k) (s.insert t k r))
    (he : ∀ u ∈ R.keys t r, ∀ t' i, s.Holds u t' i → Q (.error ⟨R.integrityError, true⟩) s) :
    Runs (create t r) s Q := by
  rintro c x n rfl hp
  rw [exec_create]
  have hnew := hp.fresh (t := t) le_rfl
  split
  case isTrue hc => 
    obtain ⟨u, hu, t', i, hi⟩ := holds_of_conflicts hnew.1 hnew.2 hc
    refine ⟨he u hu t' i hi, hp.mono fun t' => ?_⟩
    by_cases ht : t' = t
    · simp [ht]
    · simp [Function.update_of_ne ht]
  case isFalse hc =>
    have ⟨hr, hk, hfree⟩ := conflicts_false (eq_false_of_ne_true hc)
    exact ⟨h hfree _ hr hk, hp.insert hrefs⟩

theorem runs_update {g : R.Rec t → R.Rec t} {hg : R.Keeping t g} {r : R.Rec t}
    {Q : Except R.Exn (Option (R.Rec t)) → R.Database → Prop} (hr : (s.table t).get k = some r)
    (hrefs : ∀ ref ∈ R.refs t (g r), ref ∈ R.refs t r ∨ s.Has ref)
    (h : Q (.ok (some r)) (s.modify t k g)) : Runs (update t k g hg) s Q := by
  rintro c x n rfl hp
  have hmodify : Proper ((x.pend c).modify t k g) n := hp.modify fun r' hr' ref href => by
    obtain rfl := Option.some.inj <| hr.symm.trans hr'
    exact (hrefs ref href).elim (hp.refs hr ref) id
  have hexec : (update t k g hg).script.exec c x n =
      (.ok (((x.pend c).table t).get k), x.add (if (((x.pend c).table t).get k).isSome then
        updateAct t k g hg else .look [] []), n) := rfl
  rw [hexec, hr]
  exact ⟨h, hmodify⟩

theorem runs_close {g : R.Rec t → R.Rec t} {hg : R.Dropping t g} {r : R.Rec t}
    {Q : Except R.Exn Unit → R.Database → Prop} (hr : (s.table t).get k = some r)
    (hrefs : ∀ ref ∈ R.refs t (g r), ref ∈ R.refs t r ∨ s.Has ref) (h : Q (.ok ()) (s.modify t k g)) :
    Runs (close t k g hg) s Q := by
  rintro c x n rfl hp
  have hmodify : Proper ((x.pend c).modify t k g) n := hp.modify fun r' hr' ref href => by
    obtain rfl := Option.some.inj <| hr.symm.trans hr'
    exact (hrefs ref href).elim (hp.refs hr ref) id
  obtain ⟨act, hexec, hact⟩ : ∃ act : Act R.schema, (close t k g hg).script.exec c x n =
      (if (((x.pend c).table t).get k).isNone then abort R.databaseError else pure () :
        Prog R.schema Unit).script.exec c (x.add act) n ∧ act = closeAct t k (R.keys t r) g hg :=
    ⟨_, rfl, by simp only [hr]⟩
  rw [hexec, hact, hr]
  show Q (.ok ()) (drop (x.pend c) t k (R.keys t r) g) ∧ Proper (drop (x.pend c) t k (R.keys t r) g) n
  rw [drop_of_get hr]
  exact ⟨h, hmodify⟩

theorem runs_save {g : R.Rec t → R.Rec t} {hg : R.Keeping t g} {r : R.Rec t}
    {Q : Except R.Exn Unit → R.Database → Prop} (hr : (s.table t).get k = some r)
    (hrefs : ∀ ref ∈ R.refs t (g r), ref ∈ R.refs t r ∨ s.Has ref) (h : Q (.ok ()) (s.modify t k g)) :
    Runs (save t k g hg) s Q :=
  .bind <| runs_update hr hrefs <| .ret h

end Statements

end Relational
