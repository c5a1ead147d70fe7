import ACRev360.Library.Interference
import ACRev360.Library.Statement

variable {R : Relational} {t : R.Name} {k : ℕ} {α : Type}

namespace Relational

open Database

section Serial

variable {s : R.Database}

theorem post_select {f : R.Database → α} {sees : List R.Facet}
    {Q : Except R.Exn α → R.Database → Prop} (h : Q (.ok (f s)) s) :
    Prog.Post (select f sees) s Q :=
  .bind <| .step <| .ret h

theorem post_selectForUpdate {Q : Except R.Exn (Option (R.Rec t)) → R.Database → Prop}
    (h : Q (.ok ((s.table t).get k)) s) : Prog.Post (selectForUpdate t k) s Q :=
  .bind <| .step <| .ret h

theorem post_create {r : R.Rec t} {Q : Except R.Exn ℕ → R.Database → Prop}
    (h : ∀ k, s.conflicts t k r = false → Q (.ok k) (s.insert t k r)) (he : ∀ e, Q (.error e) s) :
    Prog.Post (create t r) s Q := by
  refine .bind <| .fresh fun k => .bind <| .step ?_
  cases hc : s.conflicts t k r with
  | true => simpa [hc] using .bind <| .raise <| he _
  | false => simpa [hc] using .bind <| .ret <| .ret <| h k hc

theorem post_update {g : R.Rec t → R.Rec t} {hg : R.Keeping t g}
    {Q : Except R.Exn (Option (R.Rec t)) → R.Database → Prop}
    (h : ∀ r, (s.table t).get k = some r → Q (.ok (some r)) (s.modify t k g))
    (hn : (s.table t).get k = none → Q (.ok none) s) : Prog.Post (update t k g hg) s Q := by
  refine .bind <| .step ?_
  cases hk : (s.table t).get k with
  | none => simpa [hk] using .ret (hn hk)
  | some r => simpa [hk] using .ret (h r hk)

theorem post_save {g : R.Rec t → R.Rec t} {hg : R.Keeping t g}
    {Q : Except R.Exn Unit → R.Database → Prop}
    (h : ∀ r, (s.table t).get k = some r → Q (.ok ()) (s.modify t k g)) (he : ∀ e, Q (.error e) s) :
    Prog.Post (save t k g hg) s Q :=
  .bind <| post_update (fun r hr => .ret <| h r hr) fun _ => .raise <| he _

theorem post_close {g : R.Rec t → R.Rec t} {hg : R.Dropping t g}
    {Q : Except R.Exn Unit → R.Database → Prop}
    (h : ∀ r, (s.table t).get k = some r → Q (.ok ()) (s.modify t k g)) (he : ∀ e, Q (.error e) s) :
    Prog.Post (close t k g hg) s Q := by
  refine .bind <| .step ?_
  cases hk : (s.table t).get k with
  | none => simpa [hk] using .raise <| he _
  | some r => simpa [hk, closeAct, drop_of_get hk] using .ret (h r hk)

theorem post_delete {hk : ∀ r, R.keys t r = []} {Q : Except R.Exn Unit → R.Database → Prop}
    (h : ∀ r, (s.table t).get k = some r → Q (.ok ()) (s.erase t k))
    (hn : (s.table t).get k = none → Q (.ok ()) s) : Prog.Post (delete t k hk) s Q := by
  refine .bind <| .step ?_
  cases hr : (s.table t).get k with
  | none => simpa [hr] using .ret (hn hr)
  | some r => simpa [hr] using .ret (h r hr)

theorem post_remove {Q : Except R.Exn Unit → R.Database → Prop}
    (h : ∀ r, (s.table t).get k = some r → Q (.ok ()) (s.erase t k))
    (hn : (s.table t).get k = none → Q (.ok ()) s) : Prog.Post (remove t k) s Q := by
  refine .bind <| .step ?_
  cases hr : (s.table t).get k with
  | none => simpa [hr] using .ret (hn hr)
  | some r => simpa [hr, removeAct, remove_of_get hr] using .ret (h r hr)

end Serial

section Concurrent

variable {L : Rely R.schema} {c : R.Database} {x : Txn R.schema} {seen : List R.Facet}

theorem wp_select {f : R.Database → α} {sees : List R.Facet} {Q : Ends R.schema α}
    (h : ∀ d, Interf L x (sees ++ seen) c d → Q (.ok (f (x.pend c))) d x (sees ++ seen)) :
    (select f sees).Wp L Q c x seen := by
  refine .bind <| .step fun _ d hd => ?_
  rw [Txn.add_look_nil] at hd ⊢
  exact h d hd

theorem wp_selectForUpdate {Q : Ends R.schema (Option (R.Rec t))}
    (h : ∀ r, ((x.pend c).table t).get k = some r → L.takes x c (.look [.row t k] []) →
      ∀ d, Interf L (x.add (.look [.row t k] [])) seen c d →
        Q (.ok (some r)) d (x.add (.look [.row t k] [])) seen)
    (hn : ((x.pend c).table t).get k = none → ∀ d, Interf L x seen c d → Q (.ok none) d x seen) :
    (selectForUpdate t k).Wp L Q c x seen := by
  refine .bind <| .step fun ht d hd => ?_
  cases hk : ((x.pend c).table t).get k with
  | none =>
    simp only [hk, Option.isSome_none, Bool.false_eq_true, if_false] at ht hd ⊢
    rw [Txn.add_look_nil] at hd ⊢
    exact .ret <| hn hk d hd
  | some r =>
    simp only [hk, Option.isSome_some, if_true] at ht hd ⊢
    exact .ret <| h r hk ht d hd

theorem wp_create {r : R.Rec t} {Q : Ends R.schema ℕ}
    (h : ∀ k, (x.pend c).conflicts t k r = false → L.takes x c (insertAct t k r) →
      ∀ d, Interf L (x.add (insertAct t k r)) seen c d → Q (.ok k) d (x.add (insertAct t k r)) seen)
    (he : ∀ e d y, Interf L x seen c d → x.Sub y → y.pend = x.pend → Q (.error e) d y seen) :
    (create t r).Wp L Q c x seen := by
  refine .bind <| .fresh fun k => .bind <| .step fun ht d hd => ?_
  cases hc : (x.pend c).conflicts t k r with
  | true =>
    simp only [hc, if_true] at ht hd ⊢
    exact .bind <| .raise <| he _ d _ (hd.mono (x.sub_add _) (List.Subset.refl _)) (x.sub_add _) rfl
  | false =>
    simp only [hc, if_false, Bool.false_eq_true] at ht hd ⊢
    exact .bind <| .ret <| .ret <| h k hc ht d hd

theorem wp_update {g : R.Rec t → R.Rec t} {hg : R.Keeping t g} {Q : Ends R.schema (Option (R.Rec t))}
    (h : ∀ r, ((x.pend c).table t).get k = some r → L.takes x c (updateAct t k g hg) →
      ∀ d, Interf L (x.add (updateAct t k g hg)) seen c d →
        Q (.ok (some r)) d (x.add (updateAct t k g hg)) seen)
    (hn : ((x.pend c).table t).get k = none → ∀ d, Interf L x seen c d → Q (.ok none) d x seen) :
    (update t k g hg).Wp L Q c x seen := by
  refine .bind <| .step fun ht d hd => ?_
  cases hk : ((x.pend c).table t).get k with
  | none =>
    simp only [hk, Option.isSome_none, Bool.false_eq_true, if_false] at ht hd ⊢
    rw [Txn.add_look_nil] at hd ⊢
    exact .ret <| hn hk d hd
  | some r =>
    simp only [hk, Option.isSome_some, if_true] at ht hd ⊢
    exact .ret <| h r hk ht d hd

theorem wp_save {g : R.Rec t → R.Rec t} {hg : R.Keeping t g} {Q : Ends R.schema Unit}
    (h : ∀ r, ((x.pend c).table t).get k = some r → L.takes x c (updateAct t k g hg) →
      ∀ d, Interf L (x.add (updateAct t k g hg)) seen c d →
        Q (.ok ()) d (x.add (updateAct t k g hg)) seen)
    (he : ∀ e d, Interf L x seen c d → Q (.error e) d x seen) : (save t k g hg).Wp L Q c x seen :=
  .bind <| wp_update (fun r hr ht d hd => .ret <| h r hr ht d hd)
    fun _ d hd => .raise <| he _ d hd

theorem wp_close {g : R.Rec t → R.Rec t} {hg : R.Dropping t g} {Q : Ends R.schema Unit}
    (h : ∀ r, ((x.pend c).table t).get k = some r → L.takes x c (closeAct t k (R.keys t r) g hg) →
      ∀ d, Interf L (x.add (closeAct t k (R.keys t r) g hg)) seen c d →
        Q (.ok ()) d (x.add (closeAct t k (R.keys t r) g hg)) seen)
    (he : ∀ e d, Interf L x seen c d → Q (.error e) d x seen) : (close t k g hg).Wp L Q c x seen := by
  refine .bind <| .step fun ht d hd => ?_
  cases hk : ((x.pend c).table t).get k with
  | none =>
    simp only [hk, Option.isNone_none, if_true] at ht hd ⊢
    rw [Txn.add_look_nil] at hd ⊢
    exact .raise <| he _ d hd
  | some r =>
    simp only [hk, Option.isNone_some, if_false, Bool.false_eq_true] at ht hd ⊢
    exact .ret <| h r hk ht d hd

theorem wp_delete {hk : ∀ r, R.keys t r = []} {Q : Ends R.schema Unit}
    (h : ∀ r, ((x.pend c).table t).get k = some r → L.takes x c (deleteAct t k hk) →
      ∀ d, Interf L (x.add (deleteAct t k hk)) seen c d → Q (.ok ()) d (x.add (deleteAct t k hk)) seen)
    (hn : ((x.pend c).table t).get k = none → ∀ d, Interf L x seen c d → Q (.ok ()) d x seen) :
    (delete t k hk).Wp L Q c x seen := by
  refine .bind <| .step fun ht d hd => ?_
  cases hr : ((x.pend c).table t).get k with
  | none =>
    simp only [hr, Option.isSome_none, Bool.false_eq_true, if_false] at ht hd ⊢
    rw [Txn.add_look_nil] at hd ⊢
    exact .ret <| hn hr d hd
  | some r =>
    simp only [hr, Option.isSome_some, if_true] at ht hd ⊢
    exact .ret <| h r hr ht d hd

end Concurrent

section Keeps

variable {P : R.Database → R.Database → Prop}

theorem keeps_abort {e : R.Error} : Prog.Keeps P (abort e : Prog R.schema α) :=
  .raise

theorem keeps_refuse {e : R.Error} : Prog.Keeps P (refuse e : Prog R.schema α) :=
  .raise

variable [Std.Refl P]

theorem keeps_select {f : R.Database → α} {sees : List R.Facet} :
    Prog.Keeps P (select f sees) :=
  .bind (.step fun _ _ => Std.Refl.refl _) fun _ => .ret

theorem keeps_selectForUpdate : Prog.Keeps P (selectForUpdate t k) :=
  .bind (.step fun _ _ => Std.Refl.refl _) fun _ => .ret

theorem keeps_create {r : R.Rec t} (h : ∀ k s, P s (s.insert t k r)) :
    Prog.Keeps P (create t r) := by
  refine .bind .fresh fun k => .bind (.step fun v s => ?_) fun v => ?_
  · split
    · exact Std.Refl.refl _
    · exact h k s
  · split
    · exact .bind keeps_abort fun _ => .ret
    · exact .ret

theorem keeps_update {g : R.Rec t → R.Rec t} {hg : R.Keeping t g}
    (h : ∀ s, P s (s.modify t k g)) : Prog.Keeps P (update t k g hg) := by
  refine .bind (.step fun v s => ?_) fun v => .ret
  split
  · exact h s
  · exact Std.Refl.refl _

theorem keeps_save {g : R.Rec t → R.Rec t} {hg : R.Keeping t g}
    (h : ∀ s, P s (s.modify t k g)) : Prog.Keeps P (save t k g hg) := by
  refine .bind (keeps_update h) fun r => ?_
  split
  · exact keeps_abort
  · exact .ret

theorem keeps_delete {hk : ∀ r, R.keys t r = []} (h : ∀ s, P s (s.erase t k)) :
    Prog.Keeps P (delete t k hk) := by
  refine .bind (.step fun v s => ?_) fun v => .ret
  split
  · exact h s
  · exact Std.Refl.refl _

end Keeps

instance {I : R.Database → Prop} : @Std.Refl R.Database (Preserves (S := R.schema) I) where
  refl _ h := h

-- Only the tables `ts` differ.
def Database.Only (ts : List R.Name) (s₁ s₂ : R.Database) : Prop :=
  ∀ t, t ∉ ts → s₂.table t = s₁.table t

instance {ts : List R.Name} : Std.Refl (Database.Only ts) where
  refl _ _ _ := rfl

instance {ts : List R.Name} : IsTrans R.Database (Database.Only ts) where
  trans _ _ _ h₁ h₂ t ht := (h₂ t ht).trans (h₁ t ht)

theorem Database.Only.symm {ts : List R.Name} {s₁ s₂ : R.Database} (h : Database.Only ts s₁ s₂) :
    Database.Only ts s₂ s₁ :=
  fun t ht => (h t ht).symm

theorem maintains_create {r : R.Rec t} : (create t r).Maintains (S := R.schema) (Unique t) :=
  fun _ hs => post_create (fun _ hc => hs.insert hc) fun _ => hs

theorem unique_of_only {ts : List R.Name} {s₁ s₂ : R.Database} (h : Database.Only ts s₁ s₂)
    (ht : t ∉ ts) : Preserves (S := R.schema) (Unique t) s₁ s₂ :=
  fun hs => hs.congr (h t ht)

-- The program writes no other tables than `ts`.
abbrev Writes (ts : List R.Name) (p : Prog R.schema α) : Prop :=
  p.Keeps (Database.Only ts)

section Writes

variable {ts : List R.Name}

theorem only_insert {r : R.Rec t} {s : R.Database} (h : t ∈ ts) :
    Database.Only ts s (s.insert t k r) :=
  fun _ ht' => insert_table_ne fun he => ht' (he ▸ h)

theorem only_modify {g : R.Rec t → R.Rec t} {s : R.Database} (h : t ∈ ts) :
    Database.Only ts s (s.modify t k g) :=
  fun _ ht' => modify_table_ne fun he => ht' (he ▸ h)

theorem only_erase {s : R.Database} (h : t ∈ ts) : Database.Only ts s (s.erase t k) :=
  fun _ ht' => erase_table_ne fun he => ht' (he ▸ h)

theorem Database.Only.mono {ts' : List R.Name} {s₁ s₂ : R.Database} (h : Database.Only ts s₁ s₂)
    (hs : ∀ t ∈ ts, t ∈ ts') : Database.Only ts' s₁ s₂ :=
  fun t ht => h t (ht ∘ hs t)

theorem writes_create {r : R.Rec t} (h : t ∈ ts) : Writes ts (create t r) :=
  keeps_create fun _ _ => only_insert h

theorem writes_update {g : R.Rec t → R.Rec t} {hg : R.Keeping t g} (h : t ∈ ts) :
    Writes ts (update t k g hg) :=
  keeps_update fun _ => only_modify h

theorem writes_save {g : R.Rec t → R.Rec t} {hg : R.Keeping t g} (h : t ∈ ts) :
    Writes ts (save t k g hg) :=
  keeps_save fun _ => only_modify h

theorem writes_delete {hk : ∀ r, R.keys t r = []} (h : t ∈ ts) : Writes ts (delete t k hk) :=
  keeps_delete fun _ => only_erase h

end Writes

end Relational
