import ACRev360.Library.Serial

variable {S : Schema} {α β γ : Type} {P : S.State → S.State → Prop}

-- Whatever is committed, `x` has changed it by `P` further than `o` has.
def Txn.Extends (P : S.State → S.State → Prop) (o x : Txn S) : Prop :=
  ∀ c, P (o.pend c) (x.pend c)

namespace Script

-- Each statement of the script changes every state by `P`, whatever has been read before. The
-- savepoints it goes back to extend the transaction `o` it started in.
def Keeps (P : S.State → S.State → Prop) (o : Txn S) : Script S α → Prop
  | ret _      => True
  | raise _    => True
  | step act k => ∀ v, (∀ s, P s ((act v).eff s)) ∧ (k v).Keeps P o
  | fresh _ k  => ∀ n, (k n).Keeps P o
  | mark k     => ∀ x, Txn.Extends P o x → (k x).Keeps P o
  | reset sp k => Txn.Extends P o sp ∧ k.Keeps P o

variable {o x : Txn S} {p : Script S α}

theorem Keeps.bind {f : α → Script S β} (h : p.Keeps P o) (hf : ∀ a, (f a).Keeps P o) :
    (p.bind f).Keeps P o := by
  induction p with
  | ret a => exact hf a
  | raise e => trivial
  | step act k hi => exact fun v => ⟨(h v).left, hi v (h v).right⟩
  | fresh q k hi => exact fun n => hi n (h n)
  | mark k hi => exact fun sp hsp => hi sp (h sp hsp)
  | reset sp k hi => exact ⟨h.left, hi h.right⟩

theorem Keeps.tryCatch {f : S.Exn → Script S α} (h : p.Keeps P o) (hf : ∀ e, (f e).Keeps P o) :
    (p.tryCatch f).Keeps P o := by
  induction p with
  | ret a => trivial
  | raise e => exact hf e
  | step act k hi => exact fun v => ⟨(h v).left, hi v (h v).right⟩
  | fresh q k hi => exact fun n => hi n (h n)
  | mark k hi => exact fun sp hsp => hi sp (h sp hsp)
  | reset sp k hi => exact ⟨h.left, hi h.right⟩

theorem Keeps.post [IsTrans S.State P] (h : p.Keeps P o) (hx : Txn.Extends P o x) {c : S.State} :
    p.Post c (fun _ y => Txn.Extends P o y) x := by
  induction p generalizing x with
  | ret a => exact hx
  | raise e => exact hx
  | step act k hi =>
    refine hi _ (h _).right fun d => ?_
    exact IsTrans.trans _ _ _ (hx d) ((h _).left _)
  | fresh q k hi => exact fun n => hi n (h n) hx
  | mark k hi => exact hi x (h x hx) hx
  | reset sp k hi => exact hi h.right h.left

end Script

namespace Prog

-- Each statement of the program changes every state by `P`, whatever the program has read before.
def Keeps (P : S.State → S.State → Prop) (p : Prog S α) : Prop :=
  ∀ o, p.script.Keeps P o

namespace Keeps

theorem ret {a : α} : (pure a : Prog S α).Keeps P :=
  fun _ => trivial

theorem raise {e : S.Exn} : (Prog.raise e : Prog S α).Keeps P :=
  fun _ => trivial

theorem step {act : S.State → Act S} (h : ∀ v s, P s ((act v).eff s)) : (Prog.step act).Keeps P :=
  fun _ v => ⟨h v, trivial⟩

theorem fresh {q : S.Seq} : (Prog.fresh q).Keeps P :=
  fun _ _ => trivial

theorem bind {p : Prog S α} {f : α → Prog S β} (h : p.Keeps P) (hf : ∀ a, (f a).Keeps P) :
    (p >>= f).Keeps P :=
  fun o => (h o).bind fun a => hf a o

theorem act {a : Act S} (h : ∀ s, P s (a.eff s)) : (Prog.act a).Keeps P :=
  bind (step fun _ => h) fun _ => ret

theorem attempt {p : Prog S α} (h : p.Keeps P) : p.attempt.Keeps P :=
  fun o => .tryCatch (.bind (h o) fun _ => trivial) fun _ => trivial

theorem atomic {p : Prog S α} (h : p.Keeps P) : p.atomic.Keeps P :=
  fun o _ hsp => (h o).tryCatch fun _ => ⟨hsp, trivial⟩

theorem foldlM {f : β → γ → Prog S β} (h : ∀ b a, (f b a).Keeps P) {b : β} {l : List γ} :
    (l.foldlM f b).Keeps P := by
  induction l generalizing b with
  | nil => exact ret
  | cons a l hi => exact bind (h b a) fun _ => hi

theorem post [Std.Refl P] [IsTrans S.State P] {p : Prog S α} {s : S.State} (h : p.Keeps P) :
    Post p s fun _ t => P s t := by
  rintro c x rfl
  exact (h x).post (fun _ => Std.Refl.refl _) |>.mono fun _ _ hy => hy c

theorem returns [Std.Refl P] [IsTrans S.State P] {p : Prog S α} {s : S.State} (h : p.Keeps P) :
    Post p s (OnReturn fun _ t => P s t) :=
  h.post.mono fun r _ ht => match r with
    | .ok _    => ht
    | .error _ => trivial

end Keeps

end Prog

-- What holds of a state, once it does.
def Preserves (I : S.State → Prop) (s t : S.State) : Prop :=
  I s → I t

instance {I : S.State → Prop} : Std.Refl (Preserves I) where
  refl _ h := h

instance {I : S.State → Prop} : IsTrans S.State (Preserves I) where
  trans _ _ _ h₁ h₂ := h₂ ∘ h₁

namespace Prog

-- A transaction that runs the program alone sees `I` from then on, whatever the outcome.
def Maintains (I : S.State → Prop) (p : Prog S α) : Prop :=
  ∀ s, I s → Post p s fun _ t => I t

namespace Maintains

variable {I : S.State → Prop}

theorem of_keeps {p : Prog S α} (h : p.Keeps (Preserves I)) : p.Maintains I :=
  fun _ hi => h.post.mono fun _ _ ht => ht hi

theorem returns {p : Prog S α} {s : S.State} (h : p.Maintains I) (hs : I s) : Post p s (OnReturn fun _ t => I t) :=
  (h s hs).mono fun r _ ht => match r with
    | .ok _    => ht
    | .error _ => trivial

theorem ret {a : α} : (pure a : Prog S α).Maintains I :=
  of_keeps .ret

theorem raise {e : S.Exn} : (Prog.raise e : Prog S α).Maintains I :=
  of_keeps .raise

theorem bind {p : Prog S β} {f : β → Prog S α} (h : p.Maintains I) (hf : ∀ b, (f b).Maintains I) :
    (p >>= f).Maintains I := by
  refine fun s hi => .bind <| (h s hi).mono fun r t ht => ?_
  cases r with
  | ok b => exact hf b t ht
  | error e => exact ht

theorem attempt {p : Prog S α} (h : p.Maintains I) : p.attempt.Maintains I :=
  fun s hi => .attempt (h s hi)

theorem atomic {p : Prog S α} (h : p.Maintains I) : p.atomic.Maintains I := by
  refine fun s hi => .atomic <| (h s hi).mono fun r t ht => ?_
  cases r with
  | ok a => exact ht
  | error e => exact hi

theorem foldlM {f : β → γ → Prog S β} (h : ∀ b a, (f b a).Maintains I) {b : β} {l : List γ} :
    (l.foldlM f b).Maintains I := by
  induction l generalizing b with
  | nil => exact ret
  | cons a l hi => exact bind (h b a) fun _ => hi

end Maintains

end Prog
