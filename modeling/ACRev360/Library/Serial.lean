import ACRev360.Library.Program

variable {S : Schema} {α β γ : Type} {s t : S.State}

namespace Script

-- The script comes to an end that satisfies `Q` while nothing else is committed to `c`, whatever
-- primary keys the sequences hand out.
def Post (c : S.State) (Q : Except S.Exn α → Txn S → Prop) : Script S α → Txn S → Prop
  | ret a, x      => Q (.ok a) x
  | raise e, x    => Q (.error e) x
  | step act k, x => (k (x.pend c)).Post c Q (x.add (act (x.pend c)))
  | fresh _ k, x  => ∀ n, (k n).Post c Q x
  | mark k, x     => (k x).Post c Q x
  | reset sp k, _ => k.Post c Q sp

namespace Post

variable {c : S.State} {x : Txn S} {p : Script S α} {Q Q' : Except S.Exn α → Txn S → Prop}

theorem exec (h : p.Post c Q x) (n : S.Seq → ℕ) : Q (p.exec c x n).1 (p.exec c x n).2.1 := by
  induction p generalizing x n with
  | ret a => exact h
  | raise e => exact h
  | step act k hi => exact hi _ h n
  | fresh q k hi => exact hi _ (h _) _
  | mark k hi => exact hi x h n
  | reset sp k hi => exact hi h n

theorem mono (h : p.Post c Q x) (hq : ∀ r y, Q r y → Q' r y) : p.Post c Q' x := by
  induction p generalizing x with
  | ret a => exact hq _ _ h
  | raise e => exact hq _ _ h
  | step act k hi => exact hi _ h
  | fresh q k hi => exact fun n => hi n (h n)
  | mark k hi => exact hi x h
  | reset sp k hi => exact hi h

theorem and (h : p.Post c Q x) (h' : p.Post c Q' x) :
    p.Post c (fun r y => Q r y ∧ Q' r y) x := by
  induction p generalizing x with
  | ret a => exact ⟨h, h'⟩
  | raise e => exact ⟨h, h'⟩
  | step act k hi => exact hi _ h h'
  | fresh q k hi => exact fun n => hi n (h n) (h' n)
  | mark k hi => exact hi x h h'
  | reset sp k hi => exact hi h h'

theorem bind {f : α → Script S β} {Q : Except S.Exn β → Txn S → Prop}
    (h : p.Post c (fun r y => match r with
      | .ok a    => (f a).Post c Q y
      | .error e => Q (.error e) y) x) : (p.bind f).Post c Q x := by
  induction p generalizing x with
  | ret a => exact h
  | raise e => exact h
  | step act k hi => exact hi _ h
  | fresh q k hi => exact fun n => hi n (h n)
  | mark k hi => exact hi x h
  | reset sp k hi => exact hi h

theorem tryCatch {f : S.Exn → Script S α}
    (h : p.Post c (fun r y => match r with
      | .ok a    => Q (.ok a) y
      | .error e => (f e).Post c Q y) x) : (p.tryCatch f).Post c Q x := by
  induction p generalizing x with
  | ret a => exact h
  | raise e => exact h
  | step act k hi => exact hi _ h
  | fresh q k hi => exact fun n => hi n (h n)
  | mark k hi => exact hi x h
  | reset sp k hi => exact hi h

end Post

end Script

namespace Prog

-- Wherever a transaction that sees `s` runs `p` alone, it comes to an outcome and to a state it then
-- sees that satisfy `Q`.
def Post (p : Prog S α) (s : S.State) (Q : Except S.Exn α → S.State → Prop) : Prop :=
  ∀ c x, x.pend c = s → p.script.Post c (fun r y => Q r (y.pend c)) x

-- A postcondition that says something about the runs that return only.
def OnReturn (Q : α → S.State → Prop) : Except S.Exn α → S.State → Prop
  | .ok a, t    => Q a t
  | .error _, _ => True

namespace Post

variable {Q Q' : Except S.Exn α → S.State → Prop}

theorem ret {a : α} (h : Q (.ok a) s) : Post (pure a) s Q := by
  rintro c x rfl
  exact h

theorem raise {e : S.Exn} (h : Q (.error e) s) : Post (Prog.raise e) s Q := by
  rintro c x rfl
  exact h

theorem mono {p : Prog S α} (h : Post p s Q) (hq : ∀ r t, Q r t → Q' r t) : Post p s Q' :=
  fun c x hs => (h c x hs).mono fun _ _ => hq _ _

theorem and {p : Prog S α} (h : Post p s Q) (h' : Post p s Q') :
    Post p s fun r t => Q r t ∧ Q' r t :=
  fun c x hs => (h c x hs).and (h' c x hs)

theorem bind {p : Prog S β} {f : β → Prog S α}
    (h : Post p s fun r t => match r with | .ok b => Post (f b) t Q | .error e => Q (.error e) t) :
    Post (p >>= f) s Q := by
  refine fun c x hs => Script.Post.bind <| (h c x hs).mono fun r y hr => ?_
  cases r with
  | ok b => exact hr c y rfl
  | error e => exact hr

theorem imp {p : Prog S α} {Q R : α → S.State → Prop} (h : Post p s (OnReturn Q))
    (hq : ∀ a t, Q a t → R a t) : Post p s (OnReturn R) :=
  h.mono fun r t hr => match r with
    | .ok a    => hq a t hr
    | .error _ => trivial

theorem both {p : Prog S α} {Q R : α → S.State → Prop} (h : Post p s (OnReturn Q))
    (h' : Post p s (OnReturn R)) : Post p s (OnReturn fun a t => Q a t ∧ R a t) :=
  (h.and h').mono fun r t hr => match r with
    | .ok _    => hr
    | .error _ => trivial

-- What follows a program only runs if the program returns.
theorem seq {p : Prog S β} {f : β → Prog S α} {Q : β → S.State → Prop} {R : α → S.State → Prop}
    (h : Post p s (OnReturn Q)) (hf : ∀ b t, Q b t → Post (f b) t (OnReturn R)) :
    Post (p >>= f) s (OnReturn R) := by
  refine bind <| h.mono fun r t hr => ?_
  cases r with
  | ok b => exact hf b t hr
  | error e => trivial

theorem step {act : S.State → Act S} {Q : Except S.Exn S.State → S.State → Prop}
    (h : Q (.ok s) ((act s).eff s)) : Post (Prog.step act) s Q := by
  rintro c x rfl
  exact h

theorem act {a : Act S} {Q : Except S.Exn Unit → S.State → Prop} (h : Q (.ok ()) (a.eff s)) :
    Post (Prog.act a) s Q :=
  bind <| step <| ret h

theorem fresh {q : S.Seq} {Q : Except S.Exn ℕ → S.State → Prop} (h : ∀ n, Q (.ok n) s) :
    Post (Prog.fresh q) s Q := by
  rintro c x rfl
  exact h

theorem attempt {p : Prog S α} {Q : Except S.Exn (Except S.Exn α) → S.State → Prop}
    (h : Post p s fun r t => Q (.ok r) t) : Post p.attempt s Q := by
  refine fun c x hs => .tryCatch <| .bind <| (h c x hs).mono fun r y hr => ?_
  cases r <;> exact hr

theorem atomic {p : Prog S α}
    (h : Post p s fun r t => match r with
      | .ok a    => Q (.ok a) t
      | .error e => Q (.error (S.contained e)) s) : Post p.atomic s Q := by
  rintro c x rfl
  refine Script.Post.tryCatch <| (h c x rfl).mono fun r y hr => ?_
  cases r <;> exact hr

-- A loop that keeps `I`, which relates what is accumulated to the elements still to come.
theorem foldlM {f : β → γ → Prog S β} {I : β → List γ → S.State → Prop}
    (step : ∀ {b a l s}, I b (a :: l) s → Post (f b a) s (OnReturn fun b' t => I b' l t)) {b : β}
    {l : List γ} (h : I b l s) : Post (l.foldlM f b) s (OnReturn fun b' t => I b' [] t) := by
  induction l generalizing b s with
  | nil => exact ret h
  | cons a l hi =>
    refine bind <| (step h).mono fun r t hr => ?_
    cases r with
    | ok b' => exact hi hr
    | error e => trivial

theorem forM {f : γ → Prog S PUnit} {I : S.State → Prop} {l : List γ}
    (step : ∀ a ∈ l, ∀ {s}, I s → Post (f a) s (OnReturn fun _ t => I t)) (h : I s) :
    Post (l.forM f) s (OnReturn fun _ t => I t) := by
  induction l generalizing s with
  | nil => exact ret h
  | cons a l hi =>
    refine seq (step a (.head _) h) fun _ t ht => ?_
    exact hi (fun b hb => step b (.tail _ hb)) ht

end Post

-- What a call commits satisfies the postcondition of its program.
theorem call_ok {p : Prog S α} {Q : Except S.Exn α → S.State → Prop} {n m : S.Seq → ℕ} {a : α}
    (h : Post p s Q) (hc : p.call s n = (.ok a, t, m)) : Q (.ok a) t ∧ S.valid t := by
  have := (h s .start rfl).exec n
  unfold call at hc
  generalize p.script.exec s .start n = out at *
  match out with
  | (.ok b, y, m) =>
    simp only at hc this
    split at hc
    · simp_all
    · simp at hc
  | (.error e, y, m) => simp at hc

-- A call that only reads.
theorem call_of_reads {p : Prog S α} {n : S.Seq → ℕ} {a : α} (h : Post p s fun out t => out = .ok a ∧ t = s)
    (hs : S.valid s) : ∃ m, p.call s n = (.ok a, s, m) := by
  have := (h s .start rfl).exec n
  unfold call
  generalize p.script.exec s .start n = out at *
  match out with
  | (.ok b, y, m) =>
    have hb : b = a := Except.ok.inj this.1
    have hy : y.pend s = s := this.2
    exact ⟨m, by simp [hb, hy, hs]⟩
  | (.error e, _, _) => exact absurd this.1 (by simp)

-- A call that fails commits nothing.
theorem call_error {p : Prog S α} {n m : S.Seq → ℕ} {e : S.Exn}
    (hc : p.call s n = (.error e, t, m)) : t = s := by
  unfold call at hc
  generalize p.script.exec s .start n = out at *
  match out with
  | (.ok b, y, m) =>
    simp only at hc
    split at hc <;> simp_all
  | (.error e, y, m) => simp_all

section Sessions

-- A program that has been run, the state it was run in and the state it led to.
structure Served (S : Schema) (R : Type) where
  request : R
  before  : S.State
  after   : S.State

variable {R : Type} {init : S.State → Prop} {run : R → Prog S Unit}
  {ok : List (Served S R) → S.State → R → Prop} {past : List (Served S R)}

-- The states that programs lead to that are run one after the other and meet `ok`, which knows what
-- has been run before, the last first.
inductive Session (init : S.State → Prop) (run : R → Prog S Unit)
    (ok : List (Served S R) → S.State → R → Prop) : List (Served S R) → S.State → Prop
  | start {s : S.State} : init s → Session init run ok [] s
  | serve {past : List (Served S R)} {s t : S.State} {n m out} (r : R) :
    Session init run ok past s → ok past s r → (run r).call s n = (out, t, m) →
      Session init run ok (⟨r, s, t⟩ :: past) t

-- What the programs keep when they return, and what does not mind a program that fails, holds in every
-- state that is reached.
theorem Session.preserves {P : List (Served S R) → S.State → Prop} (h : Session init run ok past s)
    (start : ∀ {s}, init s → P [] s)
    (serve : ∀ {past s r}, P past s → ok past s r →
      Post (run r) s (OnReturn fun _ t => S.valid t → P (⟨r, s, t⟩ :: past) t))
    (fail : ∀ {past s r}, P past s → P (⟨r, s, s⟩ :: past) s) : P past s := by
  induction h with
  | start h => exact start h
  | serve r _ hok hc hp =>
    rename_i out _
    cases out with
    | error e =>
      obtain rfl := call_error hc
      exact fail hp
    | ok a =>
      have ⟨ht, hv⟩ := call_ok (serve hp hok) hc
      exact ht hv

end Sessions

end Prog
