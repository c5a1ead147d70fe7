import ACRev360.Library.Replace

variable {S : Schema} {α β γ : Type} {s : S.State} {I : S.State → Prop}

theorem Script.Post.of_forall {p : Script S α} {c : S.State} {x : Txn S} {Q : Except S.Exn α → Txn S → Prop}
    (h : ∀ r y, Q r y) : p.Post c Q x := by
  induction p generalizing x with
  | ret a => exact h _ _
  | raise e => exact h _ _
  | step act k hi => exact hi _
  | fresh q k hi => exact fun n => hi n
  | mark k hi => exact hi x
  | reset sp k hi => exact hi

namespace Prog

theorem Post.of_forall {p : Prog S α} {Q : Except S.Exn α → S.State → Prop} (h : ∀ r t, Q r t) : Post p s Q :=
  fun _ _ _ => Script.Post.of_forall fun _ _ => h _ _

-- A program ends in `Q` if it returns, and in `I` if it raises.
def Contract (I : S.State → Prop) (Q : α → S.State → Prop) : Except S.Exn α → S.State → Prop
  | .ok a, t    => Q a t
  | .error _, t => I t

structure Ensures (I : S.State → Prop) (p : Prog S α) (s : S.State) (Q : α → S.State → Prop) : Prop where
  post : Post p s (Contract I Q)

namespace Ensures

variable {Q : α → S.State → Prop}

theorem ret {a : α} (h : Q a s) : Ensures I (pure a) s Q :=
  ⟨.ret h⟩

theorem raise {e : S.Exn} (h : I s) : Ensures I (Prog.raise e) s Q :=
  ⟨.raise h⟩

theorem imp {p : Prog S α} {R : α → S.State → Prop} (h : Ensures I p s R) (hq : ∀ a t, R a t → Q a t) :
    Ensures I p s Q :=
  ⟨h.post.mono fun r t hr => match r with
    | .ok a    => hq a t hr
    | .error _ => hr⟩

theorem weaken {p : Prog S α} {J : S.State → Prop} (h : Ensures I p s Q) (hj : ∀ t, I t → J t) : Ensures J p s Q :=
  ⟨h.post.mono fun r t hr => match r with
    | .ok _    => hr
    | .error _ => hj t hr⟩

theorem seq {p : Prog S β} {f : β → Prog S α} {R : β → S.State → Prop} (h : Ensures I p s R)
    (hf : ∀ b t, R b t → Ensures I (f b) t Q) : Ensures I (p >>= f) s Q := by
  refine ⟨.bind <| h.post.mono fun r t hr => ?_⟩
  cases r with
  | ok b => exact (hf b t hr).post
  | error e => exact hr

theorem map {p : Prog S β} {f : β → α} (h : Ensures I p s fun b t => Q (f b) t) : Ensures I (f <$> p) s Q := by
  rw [map_eq_pure_bind]
  exact h.seq fun _ _ ht => .ret ht

-- What runs under a condition comes before the rest of a program.
theorem when {c : Prop} [Decidable c] {p : Prog S PUnit} {f : PUnit → Prog S α} (h : c → Ensures I (p >>= f) s Q)
    (h' : ¬c → Ensures I (f ⟨⟩) s Q) : Ensures I (if c then p >>= f else f ⟨⟩) s Q := by
  split
  · exact h ‹_›
  · exact h' ‹_›

-- The rest of a program runs only if the guard does not raise.
theorem guard {c : Prop} [Decidable c] {e : S.Exn} {f : PUnit → Prog S α} (hi : I s)
    (h : ¬c → Ensures I (f ⟨⟩) s Q) : Ensures I (if c then Prog.raise e >>= f else f ⟨⟩) s Q :=
  when (fun _ => ⟨.bind <| .raise hi⟩) h

-- A caller that handles the exceptions goes on where the program raises.
theorem attempt {p : Prog S α} {J : S.State → Prop} {Q : Except S.Exn α → S.State → Prop}
    (h : Ensures J p s fun a t => Q (.ok a) t) (he : ∀ e t, J t → Q (.error e) t) : Ensures I p.attempt s Q := by
  refine ⟨.attempt <| h.post.mono fun r t hr => ?_⟩
  cases r with
  | ok a => exact hr
  | error e => exact he e t hr

-- A block that raises leaves nothing behind.
theorem atomic {p : Prog S α} (hi : I s) (h : Ensures (fun _ => True) p s Q) : Ensures I p.atomic s Q := by
  refine ⟨.atomic <| h.post.mono fun r t hr => ?_⟩
  cases r with
  | ok a => exact hr
  | error e => exact hi

theorem forM {f : γ → Prog S PUnit} {l : List γ} {J : S.State → Prop} (hj : J s)
    (h : ∀ a ∈ l, ∀ s, J s → Ensures I (f a) s fun _ t => J t) : Ensures I (l.forM f) s fun _ t => J t := by
  induction l generalizing s with
  | nil => exact ret hj
  | cons a l ih => exact seq (h a (.head _) s hj) fun _ t ht => ih ht fun b hb => h b (.tail _ hb)

end Ensures

end Prog

namespace Relational

open Database

variable {R : Relational} {s : R.Database} {I : R.Database → Prop} {t : R.Name} {k : ℕ}

theorem ensures_select {f : R.Database → β} {sees : List R.Facet} {g : β → Prog R.schema α}
    {Q : α → R.Database → Prop} (h : Prog.Ensures I (g (f s)) s Q) : Prog.Ensures I (select f sees >>= g) s Q :=
  ⟨.bind <| post_select h.post⟩

theorem ensures_create {r : R.Rec t} {Q : ℕ → R.Database → Prop} (hi : I s)
    (h : ∀ k, s.conflicts t k r = false → Q k (s.insert t k r)) : Prog.Ensures I (create t r) s Q :=
  ⟨post_create h fun _ => hi⟩

theorem ensures_save {g : R.Rec t → R.Rec t} {hg : R.Keeping t g} {Q : Unit → R.Database → Prop} (hi : I s)
    (h : ∀ r, (s.table t).get k = some r → Q () (s.modify t k g)) : Prog.Ensures I (save t k g hg) s Q :=
  ⟨post_save h fun _ => hi⟩

theorem ensures_replace {g : R.Rec t → R.Rec t} {hg : R.Fixing t g} {Q : Unit → R.Database → Prop} (hi : I s)
    (h : ∀ r, (s.table t).get k = some r → s.clashes t k (g r) = false → Q () (s.modify t k g)) :
    Prog.Ensures I (replace t k g hg) s Q :=
  ⟨post_replace h fun _ => hi⟩

theorem ensures_close {g : R.Rec t → R.Rec t} {hg : R.Dropping t g} {Q : Unit → R.Database → Prop} (hi : I s)
    (h : ∀ r, (s.table t).get k = some r → Q () (s.modify t k g)) : Prog.Ensures I (close t k g hg) s Q :=
  ⟨post_close h fun _ => hi⟩

theorem ensures_remove {Q : Unit → R.Database → Prop} (h : ∀ r, (s.table t).get k = some r → Q () (s.erase t k))
    (hn : (s.table t).get k = none → Q () s) : Prog.Ensures I (remove t k) s Q :=
  ⟨post_remove h hn⟩

theorem ensures_removeAll {ks : List ℕ} : Prog.Ensures I (ks.forM fun k => remove t k) s fun _ u =>
    Only [t] s u ∧ (∀ i, (u.table t).get i = if i ∈ ks then none else (s.table t).get i) ∧
    ∀ n, n ≠ t → u.retired n = s.retired n := by
  induction ks generalizing s with
  | nil => exact .ret ⟨Std.Refl.refl _, fun _ => by simp, fun _ _ => rfl⟩
  | cons k ks hi =>
    refine .seq (R := fun _ u => u = s.erase t k ∨ u = s ∧ (s.table t).get k = none)
      (ensures_remove (fun _ _ => .inl rfl) fun hn => .inr ⟨rfl, hn⟩) fun _ u hu => hi.imp fun _ v hv => ?_
    obtain ⟨honly, hget, hretired⟩ := hv
    rcases hu with rfl | ⟨rfl, hn⟩
    · refine ⟨IsTrans.trans _ _ _ (only_erase <| .head _) honly, fun i => ?_, fun n hne => ?_⟩
      · rw [hget, erase_table, Table.get_erase]
        by_cases hk : i = k <;> simp [hk]
      · rw [hretired n hne]
        simp [erase, Function.update_of_ne hne]
    · refine ⟨honly, fun i => ?_, hretired⟩
      rw [hget]
      by_cases hk : i = k <;> simp_all

end Relational
