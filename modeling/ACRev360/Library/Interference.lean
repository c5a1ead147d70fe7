import ACRev360.Library.Concurrent
import ACRev360.Library.Effects

variable {S : Schema} {ι α β γ : Type}

-- What a call knows of the others. The commits of calls that hold none of the rows `h` change the
-- state by `guar h`, and leave the facets that the call has seen as they are as far as these are
-- `calm`. A statement of a transaction takes its locks only while `takes` holds of the committed
-- state, and the transaction is committed only while `lands` does.
structure Rely (S : Schema) where
  guar  : (S.Row → Bool) → S.State → S.State → Prop
  calm  : S.Facet → Prop
  takes : Txn S → S.State → Act S → Prop
  lands : Txn S → S.State → Prop
  refl  : ∀ h c, guar h c c
  trans : ∀ {h c d e}, guar h c d → guar h d e → guar h c e
  -- Those who hold none of more rows do no more.
  anti  : ∀ {h h' c d}, (∀ r, h r → h' r) → guar h' c d → guar h c d

-- What others may have committed since, as seen by a call that runs in `x` and has seen `seen`.
structure Interf (L : Rely S) (x : Txn S) (seen : List S.Facet) (c d : S.State) : Prop where
  guar    : L.guar x.held c d
  agree   : ∀ r, x.held r → S.Agree r c d
  evolves : ∀ r, S.Evolves r c d
  same    : ∀ f ∈ seen, L.calm f → S.Same f c d

namespace Interf

variable {L : Rely S} {x y : Txn S} {seen seen' : List S.Facet} {c d e : S.State}

theorem refl (L : Rely S) (x : Txn S) (seen : List S.Facet) (c : S.State) : Interf L x seen c c where
  guar      := L.refl _ c
  agree _ _ := (S.agree _).refl c
  evolves _ := S.evolves_of_agree <| (S.agree _).refl c
  same _ _ _ := (S.same _).refl c

theorem trans (h₁ : Interf L x seen c d) (h₂ : Interf L x seen d e) : Interf L x seen c e where
  guar       := L.trans h₁.guar h₂.guar
  agree r hr := (S.agree r).trans (h₁.agree r hr) (h₂.agree r hr)
  evolves r  := S.evolves_trans (h₁.evolves r) (h₂.evolves r)
  same f hf hc := (S.same f).trans (h₁.same f hf hc) (h₂.same f hf hc)

theorem mono (h : Interf L y seen' c d) (hx : x.Sub y) (hs : seen ⊆ seen') :
    Interf L x seen c d where
  guar       := L.anti hx h.guar
  agree r hr := h.agree r (hx r hr)
  evolves    := h.evolves
  same f hf := h.same f (hs hf)

-- The rows that the call holds and the facets that it has seen stay as it sees them.
theorem view_agree (h : Interf L x seen c d) {r : S.Row} (hr : x.held r) :
    S.Agree r (x.pend c) (x.pend d) :=
  Txn.agree_of_held h.agree hr

theorem view_same (h : Interf L x seen c d) {f : S.Facet} (hf : f ∈ seen) (hc : L.calm f) :
    S.Same f (x.pend c) (x.pend d) :=
  Txn.same_of_held h.agree (h.same f hf hc)

end Interf

-- What a call may leave behind: its outcome, the committed state, its transaction and what it has
-- seen.
abbrev Ends (S : Schema) (α : Type) := Except S.Exn α → S.State → Txn S → List S.Facet → Prop

namespace Script

-- The script comes to an end that satisfies `Q`, whatever the others commit between its statements.
def Wp (L : Rely S) (Q : Ends S α) : Script S α → S.State → Txn S → List S.Facet → Prop
  | ret a, c, x, seen      => Q (.ok a) c x seen
  | raise e, c, x, seen    => Q (.error e) c x seen
  | step act k, c, x, seen =>
    let a := act (x.pend c)
    L.takes x c a → ∀ d, Interf L (x.add a) (a.sees ++ seen) c d →
      (k (x.pend c)).Wp L Q d (x.add a) (a.sees ++ seen)
  | fresh _ k, c, x, seen  => ∀ n, (k n).Wp L Q c x seen
  | mark k, c, x, seen     => (k x).Wp L Q c x seen
  | reset sp k, c, _, seen => ∀ d, Interf L sp seen c d → k.Wp L Q d sp seen

namespace Wp

variable {L : Rely S} {Q Q' : Ends S α} {p : Script S α} {c : S.State} {x : Txn S}
  {seen : List S.Facet}

theorem mono (h : p.Wp L Q c x seen) (hq : ∀ r d y seen', Q r d y seen' → Q' r d y seen') :
    p.Wp L Q' c x seen := by
  induction p generalizing c x seen with
  | ret a => exact hq _ _ _ _ h
  | raise e => exact hq _ _ _ _ h
  | step act k hi => exact fun ht d hd => hi _ (h ht d hd)
  | fresh q k hi => exact fun n => hi n (h n)
  | mark k hi => exact hi x h
  | reset sp k hi => exact fun d hd => hi (h d hd)

theorem of_forall (h : ∀ r d y seen', Q r d y seen') : p.Wp L Q c x seen := by
  induction p generalizing c x seen with
  | ret a => exact h _ _ _ _
  | raise e => exact h _ _ _ _
  | step act k hi => exact fun _ d _ => hi _
  | fresh q k hi => exact fun n => hi n
  | mark k hi => exact hi x
  | reset sp k hi => exact fun d _ => hi

theorem and (h : p.Wp L Q c x seen) (h' : p.Wp L Q' c x seen) :
    p.Wp L (fun r d y seen' => Q r d y seen' ∧ Q' r d y seen') c x seen := by
  induction p generalizing c x seen with
  | ret a => exact ⟨h, h'⟩
  | raise e => exact ⟨h, h'⟩
  | step act k hi => exact fun ht d hd => hi _ (h ht d hd) (h' ht d hd)
  | fresh q k hi => exact fun n => hi n (h n) (h' n)
  | mark k hi => exact hi x h h'
  | reset sp k hi => exact fun d hd => hi (h d hd) (h' d hd)

theorem bind {f : α → Script S β} {Q : Ends S β}
    (h : p.Wp L (fun r d y seen' => match r with
      | .ok a    => (f a).Wp L Q d y seen'
      | .error e => Q (.error e) d y seen') c x seen) : (p.bind f).Wp L Q c x seen := by
  induction p generalizing c x seen with
  | ret a => exact h
  | raise e => exact h
  | step act k hi => exact fun ht d hd => hi _ (h ht d hd)
  | fresh q k hi => exact fun n => hi n (h n)
  | mark k hi => exact hi x h
  | reset sp k hi => exact fun d hd => hi (h d hd)

theorem tryCatch {f : S.Exn → Script S α}
    (h : p.Wp L (fun r d y seen' => match r with
      | .ok a    => Q (.ok a) d y seen'
      | .error e => (f e).Wp L Q d y seen') c x seen) : (p.tryCatch f).Wp L Q c x seen := by
  induction p generalizing c x seen with
  | ret a => exact h
  | raise e => exact h
  | step act k hi => exact fun ht d hd => hi _ (h ht d hd)
  | fresh q k hi => exact fun n => hi n (h n)
  | mark k hi => exact hi x h
  | reset sp k hi => exact fun d hd => hi (h d hd)

-- A call keeps the locks it had and remembers what it had seen, so what these protect stays.
theorem stable {o : Txn S} {P : S.State → Prop} (hn : p.Nested o x) (ho : o.Sub x)
    {seen₀ : List S.Facet} (hs : seen₀ ⊆ seen) (hp : ∀ {c d}, Interf L o seen₀ c d → P c → P d)
    (h : P c) : p.Wp L (fun _ d y seen' => P d ∧ o.Sub y ∧ seen₀ ⊆ seen') c x seen := by
  induction p generalizing c x seen with
  | ret a => exact ⟨h, hn, hs⟩
  | raise e => exact ⟨h, hn, hs⟩
  | step act k hi =>
    intro _ d hd
    have ho' := ho.trans <| x.sub_add (act (x.pend c))
    have hs' : seen₀ ⊆ (act (x.pend c)).sees ++ seen := fun f hf => List.mem_append_right _ (hs hf)
    exact hi _ (hn _) ho' hs' <| hp (hd.mono ho' hs') h
  | fresh q k hi => exact fun n => hi n (hn n) ho hs h
  | mark k hi => exact hi x hn ho hs h
  | reset sp k hi => exact fun d hd => hi hn.2.2 hn.1 hs <| hp (hd.mono hn.1 hs) h

-- While what the call holds keeps the others from committing anything, it runs as it does alone.
theorem of_post {o : Txn S} {Q : Except S.Exn α → Txn S → Prop} (hn : p.Nested o x) (ho : o.Sub x)
    {seen₀ : List S.Facet} (hs : seen₀ ⊆ seen) (hc : ∀ d, Interf L o seen₀ c d → d = c)
    (h : p.Post c Q x) : p.Wp L (fun r d y _ => d = c ∧ Q r y) c x seen := by
  induction p generalizing x seen with
  | ret a => exact ⟨rfl, h⟩
  | raise e => exact ⟨rfl, h⟩
  | step act k hi =>
    intro _ d hd
    have ho' := ho.trans <| x.sub_add (act (x.pend c))
    have hs' : seen₀ ⊆ (act (x.pend c)).sees ++ seen := fun f hf => List.mem_append_right _ (hs hf)
    obtain rfl := hc d <| hd.mono ho' hs'
    exact hi _ (hn _) ho' hs' h
  | fresh q k hi => exact fun n => hi n (hn n) ho hs (h n)
  | mark k hi => exact hi x hn ho hs h
  | reset sp k hi =>
    intro d hd
    obtain rfl := hc d <| hd.mono hn.1 hs
    exact hi hn.2.2 hn.1 hs h

theorem keeps {P : S.State → S.State → Prop} [IsTrans S.State P] {o : Txn S} (hk : p.Keeps P o)
    (h : Txn.Extends P o x) : p.Wp L (fun _ _ y _ => Txn.Extends P o y) c x seen := by
  induction p generalizing c x seen with
  | ret a => exact h
  | raise e => exact h
  | step act k hi =>
    intro _ d _
    refine hi _ (hk _).2 fun b => ?_
    exact IsTrans.trans _ _ _ (h b) ((hk _).1 _)
  | fresh q k hi => exact fun n => hi n (hk n) h
  | mark k hi => exact hi x (hk x h) h
  | reset sp k hi => exact fun d _ => hi hk.2 hk.1

end Wp

end Script

namespace Prog

def Wp (L : Rely S) (p : Prog S α) (Q : Ends S α) (c : S.State) (x : Txn S)
    (seen : List S.Facet) : Prop :=
  p.script.Wp L Q c x seen

namespace Wp

variable {L : Rely S} {Q Q' : Ends S α} {p : Prog S α} {c : S.State} {x : Txn S}
  {seen : List S.Facet}

theorem mono (h : p.Wp L Q c x seen) (hq : ∀ r d y seen', Q r d y seen' → Q' r d y seen') :
    p.Wp L Q' c x seen :=
  Script.Wp.mono h hq

theorem of_forall (h : ∀ r d y seen', Q r d y seen') : p.Wp L Q c x seen :=
  Script.Wp.of_forall h

theorem and (h : p.Wp L Q c x seen) (h' : p.Wp L Q' c x seen) :
    p.Wp L (fun r d y seen' => Q r d y seen' ∧ Q' r d y seen') c x seen :=
  Script.Wp.and h h'

theorem ret {a : α} (h : Q (.ok a) c x seen) : (pure a : Prog S α).Wp L Q c x seen :=
  h

theorem raise {e : S.Exn} (h : Q (.error e) c x seen) : (Prog.raise e).Wp L Q c x seen :=
  h

theorem step {act : S.State → Act S} {Q : Ends S S.State}
    (h : L.takes x c (act (x.pend c)) →
      ∀ d, Interf L (x.add (act (x.pend c))) ((act (x.pend c)).sees ++ seen) c d →
        Q (.ok (x.pend c)) d (x.add (act (x.pend c))) ((act (x.pend c)).sees ++ seen)) :
    (Prog.step act).Wp L Q c x seen :=
  h

theorem fresh {q : S.Seq} {Q : Ends S ℕ} (h : ∀ n, Q (.ok n) c x seen) :
    (Prog.fresh q).Wp L Q c x seen :=
  h

theorem bind {p : Prog S β} {f : β → Prog S α}
    (h : p.Wp L (fun r d y seen' => match r with
      | .ok b    => (f b).Wp L Q d y seen'
      | .error e => Q (.error e) d y seen') c x seen) : (p >>= f).Wp L Q c x seen :=
  Script.Wp.bind h

theorem attempt {Q : Ends S (Except S.Exn α)}
    (h : p.Wp L (fun r d y seen' => Q (.ok r) d y seen') c x seen) :
    p.attempt.Wp L Q c x seen := by
  refine Script.Wp.tryCatch <| Script.Wp.bind <| Script.Wp.mono h fun r d y seen' hr => ?_
  cases r <;> exact hr

theorem atomic
    (h : p.Wp L (fun r d y seen' => match r with
      | .ok a    => Q (.ok a) d y seen'
      | .error e => ∀ d', Interf L x seen' d d' → Q (.error (S.contained e)) d' x seen') c x seen) :
    p.atomic.Wp L Q c x seen := by
  refine Script.Wp.tryCatch <| Script.Wp.mono h fun r d y seen' hr => ?_
  cases r <;> exact hr

theorem foldlM {f : β → γ → Prog S β} {I : β → List γ → S.State → Txn S → List S.Facet → Prop}
    {E : S.Exn → S.State → Txn S → List S.Facet → Prop}
    (step : ∀ {b a l c x seen}, I b (a :: l) c x seen → (f b a).Wp L (fun r d y seen' => match r with
      | .ok b'   => I b' l d y seen'
      | .error e => E e d y seen') c x seen) {b : β} {l : List γ} (h : I b l c x seen) :
    (l.foldlM f b).Wp L (fun r d y seen' => match r with
      | .ok b'   => I b' [] d y seen'
      | .error e => E e d y seen') c x seen := by
  induction l generalizing b c x seen with
  | nil => exact ret h
  | cons a l hi =>
    refine bind <| (step h).mono fun r d y seen' hr => ?_
    cases r with
    | ok b' => exact hi hr
    | error e => exact hr

theorem stable {P : S.State → Prop} (hp : ∀ {c d}, Interf L x seen c d → P c → P d) (h : P c) :
    p.Wp L (fun _ d y seen' => P d ∧ x.Sub y ∧ seen ⊆ seen') c x seen :=
  Script.Wp.stable (p.nested x) (.refl x) (List.Subset.refl seen) hp h

theorem of_post {s : S.State} {Q : Except S.Exn α → S.State → Prop} (h : p.Post s Q)
    (hs : x.pend c = s) (hc : ∀ d, Interf L x seen c d → d = c) :
    p.Wp L (fun r d y _ => d = c ∧ Q r (y.pend c)) c x seen :=
  Script.Wp.of_post (p.nested x) (.refl x) (List.Subset.refl seen) hc (h c x hs)

theorem keeps {P : S.State → S.State → Prop} [Std.Refl P] [IsTrans S.State P] (hk : p.Keeps P) :
    p.Wp L (fun _ _ y _ => Txn.Extends P x y) c x seen :=
  Script.Wp.keeps (hk x) fun _ => Std.Refl.refl _

-- What the others keep stays, and the call does no more than its statements do.
theorem frame {P : S.State → S.State → Prop} [Std.Refl P] [IsTrans S.State P] (hk : p.Keeps P)
    {I : S.State → Prop} (hi : ∀ {c d}, Interf L x seen c d → I c → I d) (h : I c) :
    p.Wp L (fun _ d y seen' => I d ∧ Txn.Extends P x y ∧ seen ⊆ seen') c x seen :=
  ((stable hi h).and (keeps hk)).mono fun _ _ _ _ ⟨⟨hd, _, hs⟩, hy⟩ => ⟨hd, hy, hs⟩

end Wp

end Prog

namespace Sys

variable [DecidableEq ι] [Fintype ι] {α : Type}

-- The statement that call `i` runs next, if it runs one.
def Takes (takes : Txn S → S.State → Act S → Prop) (s : Sys S ι α) (i : ι) : Prop :=
  ∀ act k x seen, s.procs i = .running (.step act k) x seen →
    takes x s.committed (act (x.pend s.committed))

-- If call `i` is about to be committed, it may be.
def Lands (lands : Txn S → S.State → Prop) (s : Sys S ι α) (i : ι) : Prop :=
  ∀ a x seen, s.procs i = .running (.ret a) x seen → lands x s.committed

-- The step from `s` to `s'` leaves the facet as it is if another running call has seen it.
def Calm (f : S.Facet) (s : Sys S ι α) (i : ι) (s' : Sys S ι α) : Prop :=
  ∀ j ≠ i, ∀ p x seen, s.procs j = .running p x seen → f ∈ seen → S.Same f s.committed s'.committed

-- The states that are reached by steps that meet `ok`.
inductive Run (ok : Sys S ι α → ι → Sys S ι α → Prop) (s₀ : Sys S ι α) : Sys S ι α → Prop
  | start : Run ok s₀ s₀
  | step {s s' i} : Run ok s₀ s → s.step i = some s' → ok s i s' → Run ok s₀ s'

theorem Run.mono {ok ok' : Sys S ι α → ι → Sys S ι α → Prop} {s₀ s : Sys S ι α} (h : Run ok s₀ s)
    (hok : ∀ s i s', ok s i s' → ok' s i s') : Run ok' s₀ s := by
  induction h with
  | start => exact .start
  | step _ hs ho hi => exact .step hi hs (hok _ _ _ ho)

-- The events of a log lead from one committed state to another.
def Linked (c : S.State) : List (Event S ι α) → S.State → Prop
  | [], d     => d = c
  | e :: l, d => d = e.after ∧ Linked c l e.before

omit [DecidableEq ι] [Fintype ι] in
-- What every event keeps holds between any two committed states.
theorem Linked.preserves {c d : S.State} {l : List (Event S ι α)} {P : S.State → Prop}
    (h : Linked c l d) (hc : P c) (hp : ∀ e ∈ l, P e.before → P e.after) : P d := by
  induction l generalizing d with
  | nil => exact h ▸ hc
  | cons e l hi =>
    have ⟨hd, hl⟩ := h
    exact hd ▸ hp e (by simp) (hi hl fun e' he' => hp e' (.tail _ he'))

omit [DecidableEq ι] [Fintype ι] in
theorem Linked.before {c d : S.State} {l : List (Event S ι α)} {P : S.State → Prop}
    (h : Linked c l d) (hc : P c) (hp : ∀ e ∈ l, P e.before → P e.after) : ∀ e ∈ l, P e.before := by
  induction l generalizing d with
  | nil => simp
  | cons e l hi =>
    have ⟨_, hl⟩ := h
    have hp' : ∀ e' ∈ l, P e'.before → P e'.after := fun e' he' => hp e' (.tail _ he')
    intro e' he'
    rcases List.mem_cons.mp he' with rfl | he'
    · exact hl.preserves hc hp'
    · exact hi hl hp' e' he'

theorem Run.exec {s₀ s : Sys S ι α} (h : Run (fun _ _ _ => True) s₀ s) (schedule : List ι) :
    Run (fun _ _ _ => True) s₀ (s.exec schedule) := by
  induction schedule generalizing s with
  | nil => exact h
  | cons i schedule hi =>
    simp only [Sys.exec]
    cases hs : s.step i with
    | none => exact hi h
    | some s' => exact hi (h.step hs trivial)

theorem Run.linked {ok : Sys S ι α → ι → Sys S ι α → Prop} {c : S.State} {n : S.Seq → ℕ}
    {calls : ι → Prog S α} {s : Sys S ι α} (h : Run ok (Sys.start c n calls) s) :
    Linked c s.log s.committed := by
  induction h with
  | start => rfl
  | step _ hs _ hi =>
    have ⟨p, x, seen, _, hc⟩ := step_cases hs
    rcases hc with ⟨a, _, _, rfl⟩ | ⟨a, _, rfl⟩ | ⟨e, _, rfl⟩ | ⟨act, k, _, _, rfl⟩ | ⟨q, k, _, rfl⟩ |
      ⟨k, _, rfl⟩ | ⟨sp, k, _, rfl⟩
    · exact ⟨rfl, hi⟩
    · exact ⟨rfl, hi⟩
    · exact ⟨rfl, hi⟩
    all_goals exact hi

-- A call ends in an event that satisfies `E`, whether it commits or not.
def Ended (L : Rely S) (E : Event S ι α → Prop) (i : ι) : Ends S α
  | .ok a, c, x, _    =>
    (L.lands x c → S.valid (x.pend c) → E ⟨i, .ok a, c, x.pend c, x.held⟩) ∧
      E ⟨i, .error S.invalid, c, c, x.held⟩
  | .error e, c, x, _ => E ⟨i, .error e, c, c, x.held⟩

variable {L : ι → Rely S} {E : Event S ι α → Prop}

-- What calls do when they end is what the others rely on, as far as they hold none of the same rows.
def Guarantees (L : ι → Rely S) (E : Event S ι α → Prop) : Prop :=
  ∀ i e, E e → ∀ h, (∀ r, h r → e.held r = false) → (L i).guar h e.before e.after

-- Each call relies on the others alone.
def Respects (L : ι → Rely S) (E : Event S ι α → Prop) : Prop :=
  ∀ i e, e.who ≠ i → E e → ∀ h, (∀ r, h r → e.held r = false) → (L i).guar h e.before e.after

omit [DecidableEq ι] [Fintype ι] in
theorem Guarantees.respects (h : Guarantees L E) : Respects L E :=
  fun i e _ => h i e

-- No two calls hold the same row, and every call can go on as it relies on the others to let it.
structure Sound (L : ι → Rely S) (E : Event S ι α → Prop) (s : Sys S ι α) : Prop where
  excl   : ∀ {i j r}, i ≠ j → (s.procs i).holds r → (s.procs j).holds r = false
  nested : ∀ {i p x seen}, s.procs i = .running p x seen → ∃ o, p.Nested o x
  wp     : ∀ {i p x seen}, s.procs i = .running p x seen →
    ∀ d, Interf (L i) x seen s.committed d → p.Wp (L i) (Ended (L i) E i) d x seen
  log    : ∀ e ∈ s.log, E e

namespace Sound

variable {s s' : Sys S ι α} {i : ι} {p p' : Script S α} {x y : Txn S} {seen seen' : List S.Facet}

omit [DecidableEq ι] [Fintype ι] in
theorem wp_self (h : Sound L E s) (hi : s.procs i = .running p x seen) :
    p.Wp (L i) (Ended (L i) E i) s.committed x seen :=
  h.wp hi _ <| .refl _ _ _ _

-- The call goes on in a transaction that holds what it held and what was free.
theorem put (h : Sound L E s) (hi : s.procs i = .running p x seen)
    (hy : ∀ r, y.held r → x.held r ∨ s.free i r) (hn : ∃ o, p'.Nested o y)
    (hw : ∀ d, Interf (L i) y seen' s.committed d → p'.Wp (L i) (Ended (L i) E i) d y seen') :
    Sound L E (s.put i (.running p' y seen')) where
  excl {j k r} hjk hj := by
    have hfree : ∀ k, k ≠ i → (y.held r → (s.procs k).holds r = false) := by
      intro k hk hr
      rcases hy r hr with hx | hf
      · exact h.excl hk.symm (by simpa [hi, Proc.holds] using hx)
      · exact of_decide_eq_true hf k hk
    simp only [Sys.put, Function.update_apply] at hj ⊢
    split at hj
    case isTrue he =>
      subst he
      rw [if_neg hjk.symm]
      exact hfree k hjk.symm hj
    case isFalse he =>
      split
      case isTrue =>
        cases hr : y.held r with
        | false => exact hr
        | true => simp [hfree j he hr] at hj
      case isFalse => exact h.excl hjk hj
  nested {j} _ _ _ hj := by
    simp only [Sys.put, Function.update_apply] at hj
    split at hj
    · cases hj; exact hn
    · exact h.nested hj
  wp {j} _ _ _ hj d hd := by
    simp only [Sys.put, Function.update_apply] at hj
    split at hj
    case isTrue he => cases hj; exact he ▸ hw d (he ▸ hd)
    case isFalse => exact h.wp hj d hd
  log := h.log

omit [Fintype ι] in
-- The call ends. What it changes is confined to the rows it held.
theorem finish (h : Sound L E s) (hE : Respects L E)
    (hi : s.procs i = .running p x seen) {r : Except S.Exn α} {c : S.State}
    (he : E ⟨i, r, s.committed, c, x.held⟩) (hf : ∀ r, x.held r = false → S.Agree r s.committed c)
    (hv : ∀ r, S.Evolves r s.committed c)
    (hc : ∀ f j, (L j).calm f → Calm f s i (s.finish i r c)) : Sound L E (s.finish i r c) where
  excl {j k r} hjk hj := by
    simp only [Sys.finish, Function.update_apply] at hj ⊢
    split at hj
    · simp [Proc.holds] at hj
    · split
      · rfl
      · exact h.excl hjk hj
  nested {j} _ _ _ hj := by
    simp only [Sys.finish, Function.update_apply] at hj
    split at hj
    · contradiction
    · exact h.nested hj
  wp {j q y seen'} hj d hd := by
    simp only [Sys.finish, Function.update_apply] at hj
    split at hj
    case isTrue => contradiction
    case isFalse hji =>
      refine h.wp hj d <| Interf.trans ?_ hd
      have hfree : ∀ r, y.held r → x.held r = false := fun r hr => by
        have : (s.procs j).holds r := by simpa [hj, Proc.holds] using hr
        simpa [hi, Proc.holds] using h.excl hji this
      refine ⟨hE j _ (Ne.symm hji) he y.held hfree, fun r hr => hf r (hfree r hr), hv, fun f hf hcalm => ?_⟩
      exact hc f j hcalm j hji q y seen' hj hf
  log e hl := by
    have held : (s.procs i).holds = x.held := by simp only [hi]; rfl
    rcases List.mem_cons.mp hl with rfl | hl
    · exact held ▸ he
    · exact h.log e hl

theorem step (h : Sound L E s) (hE : Respects L E)
    (hs : s.step i = some s') (ht : Takes (L i).takes s i) (hl : Lands (L i).lands s i)
    (hc : ∀ f j, (L j).calm f → Calm f s i s') : Sound L E s' := by
  have ⟨p, x, seen, hi, hcases⟩ := step_cases hs
  have hw := h.wp_self hi
  have stays : ∀ r, S.Agree r s.committed s.committed := fun r => (S.agree r).refl _
  rcases hcases with ⟨a, rfl, hv, rfl⟩ | ⟨a, rfl, rfl⟩ | ⟨e, rfl, rfl⟩ | ⟨act, k, rfl, hf, rfl⟩ |
    ⟨q, k, rfl, rfl⟩ | ⟨k, rfl, rfl⟩ | ⟨sp, k, rfl, rfl⟩
  · exact h.finish hE hi (hw.1 (hl _ _ _ hi) hv) (fun r => x.frame _) (fun r => x.evolves r _) hc
  · exact h.finish hE hi hw.2 (fun r _ => stays r) (fun r => S.evolves_of_agree (stays r)) hc
  · exact h.finish hE hi hw (fun r _ => stays r) (fun r => S.evolves_of_agree (stays r)) hc
  · have ⟨o, hn⟩ := h.nested hi
    refine h.put hi (fun r hr => ?_) ⟨o, hn _⟩ fun d hd => hw (ht _ _ _ _ hi) d hd
    exact (Txn.add_held.mp hr).imp id (hf r)
  · have ⟨o, hn⟩ := h.nested hi
    have := h.put hi (fun r hr => .inl hr) ⟨o, hn (s.seq q)⟩ fun d hd => h.wp hi d hd (s.seq q)
    exact ⟨this.excl, this.nested, this.wp, this.log⟩
  · have ⟨o, hn⟩ := h.nested hi
    exact h.put hi (fun r hr => .inl hr) ⟨o, hn⟩ fun d hd => h.wp hi d hd
  · have ⟨o, hn⟩ := h.nested hi
    exact h.put hi (fun r hr => .inl <| hn.2.1 r hr) ⟨o, hn.2.2⟩ hw

end Sound

-- Where each step takes its locks and commits as its call assumes, and leaves what the others have
-- seen if they rely on that, all calls end as their programs say.
theorem Run.sound_of_respects {ok : Sys S ι α → ι → Sys S ι α → Prop} {c : S.State} {n : S.Seq → ℕ}
    {calls : ι → Prog S α} {s : Sys S ι α} (h : Run ok (Sys.start c n calls) s)
    (hE : Respects L E)
    (hok : ∀ s i s', ok s i s' → Takes (L i).takes s i ∧ Lands (L i).lands s i ∧
      ∀ f j, (L j).calm f → Calm f s i s')
    (hw : ∀ i d, Interf (L i) .start [] c d → (calls i).Wp (L i) (Ended (L i) E i) d .start []) :
    ∀ e ∈ s.log, E e := by
  suffices Sound L E s from this.log
  induction h with
  | start => exact {
      excl   := fun _ h => by simp [Sys.start, Proc.holds] at h
      nested := fun h => by cases h; exact ⟨_, (calls _).nested _⟩
      wp     := fun h d hd => by cases h; exact hw _ d hd
      log    := fun _ h => by simp [Sys.start] at h
    }
  | step _ hs ho hi =>
    have ⟨ht, hl, hc⟩ := hok _ _ _ ho
    exact hi.step hE hs ht hl hc

theorem Run.sound {ok : Sys S ι α → ι → Sys S ι α → Prop} {c : S.State} {n : S.Seq → ℕ}
    {calls : ι → Prog S α} {s : Sys S ι α} (h : Run ok (Sys.start c n calls) s)
    (hE : Guarantees L E)
    (hok : ∀ s i s', ok s i s' → Takes (L i).takes s i ∧ Lands (L i).lands s i ∧
      ∀ f j, (L j).calm f → Calm f s i s')
    (hw : ∀ i d, Interf (L i) .start [] c d → (calls i).Wp (L i) (Ended (L i) E i) d .start []) :
    ∀ e ∈ s.log, E e :=
  h.sound_of_respects hE.respects hok hw

-- The other calls have not started, or are done.
def Alone (s : Sys S ι α) (i : ι) : Prop :=
  ∀ j ≠ i, (∃ p, s.procs j = .running p .start []) ∨ ∃ r, s.procs j = .done r

section Alone

variable {ok : Sys S ι α → ι → Sys S ι α → Prop} {s₀ s : Sys S ι α} {i : ι}

omit [Fintype ι] in
theorem Alone.put (h : s.Alone i) {q : Proc S α} : (s.put i q).Alone i := by
  intro j hj
  simpa only [Sys.put, Function.update_of_ne hj] using h j hj

theorem Alone.free (h : s.Alone i) (r : S.Row) : s.free i r := by
  refine decide_eq_true fun j hj => ?_
  rcases h j hj with ⟨p, hp⟩ | ⟨r, hr⟩
  · simp [hp, Proc.holds]
  · simp [hr, Proc.holds]

omit [DecidableEq ι] [Fintype ι] in
theorem Alone.calm (h : s.Alone i) (f : S.Facet) (s' : Sys S ι α) : Calm f s i s' := by
  intro j hj p x seen hp hf
  rcases h j hj with ⟨p', hp'⟩ | ⟨r, hr⟩
  · cases hp.symm.trans hp'
    contradiction
  · exact nomatch hp.symm.trans hr

theorem Run.script {p : Script S α} {x : Txn S} {seen : List S.Facet} (h : Run ok s₀ s)
    (hi : s.procs i = .running p x seen) (ha : s.Alone i) {c : S.State} (hs : s.committed = c)
    (hok : ∀ t t', t.Alone i → t.committed = c → ok t i t') {r : Except S.Exn α} {y : Txn S}
    {n : S.Seq → ℕ} (he : p.exec c x s.seq = (r, y, n)) :
    ∃ t seen', Run ok s₀ t ∧ t.committed = c ∧ t.seq = n ∧ t.log = s.log ∧ t.Alone i ∧
      t.procs = Function.update s.procs i (.running (.of r) y seen') := by
  induction p generalizing s x seen with
  | ret a =>
    cases he
    exact ⟨s, seen, h, hs, rfl, rfl, ha, (Function.update_eq_self_iff.mpr hi.symm).symm⟩
  | raise e =>
    cases he
    exact ⟨s, seen, h, hs, rfl, rfl, ha, (Function.update_eq_self_iff.mpr hi.symm).symm⟩
  | step act k hk =>
    have hfree : ∀ r ∈ (act (x.pend s.committed)).locks, s.free i r := fun r _ => ha.free r
    have hstep : s.step i = some (s.put i <| .running (k (x.pend s.committed))
        (x.add (act (x.pend s.committed))) ((act (x.pend s.committed)).sees ++ seen)) := by
      simp only [Sys.step, hi]
      exact if_pos <| List.all_eq_true.mpr hfree
    have hrun := h.step hstep <| hok _ _ ha hs
    subst hs
    obtain ⟨t, seen', hrun, hc, hn, hl, ht, hp⟩ :=
      hk _ hrun (Function.update_self ..) ha.put rfl he
    exact ⟨t, seen', hrun, hc, hn, hl, ht, hp.trans (Function.update_idem ..)⟩
  | fresh q k hk =>
    have hstep : s.step i = some { s.put i (.running (k (s.seq q)) x seen) with
        seq := Function.update s.seq q (s.seq q + 1) } := by simp only [Sys.step, hi]
    obtain ⟨t, seen', hrun, hc, hn, hl, ht, hp⟩ :=
      hk _ (h.step hstep <| hok _ _ ha hs) (Function.update_self ..) ha.put hs he
    exact ⟨t, seen', hrun, hc, hn, hl, ht, hp.trans (Function.update_idem ..)⟩
  | mark k hk =>
    have hstep : s.step i = some (s.put i <| .running (k x) x seen) := by simp only [Sys.step, hi]
    obtain ⟨t, seen', hrun, hc, hn, hl, ht, hp⟩ :=
      hk _ (h.step hstep <| hok _ _ ha hs) (Function.update_self ..) ha.put hs he
    exact ⟨t, seen', hrun, hc, hn, hl, ht, hp.trans (Function.update_idem ..)⟩
  | reset sp k hk =>
    have hstep : s.step i = some (s.put i <| .running k sp seen) := by simp only [Sys.step, hi]
    obtain ⟨t, seen', hrun, hc, hn, hl, ht, hp⟩ :=
      hk (h.step hstep <| hok _ _ ha hs) (Function.update_self ..) ha.put hs he
    exact ⟨t, seen', hrun, hc, hn, hl, ht, hp.trans (Function.update_idem ..)⟩

-- A call that has not started may run to its end on its own, as it does when it is served.
theorem Run.serve {p : Prog S α} (h : Run ok s₀ s) (hi : s.procs i = .running p.script .start [])
    (ha : s.Alone i) (hok : ∀ t t', t.Alone i → t.committed = s.committed → ok t i t')
    {r : Except S.Exn α} {c : S.State} {n : S.Seq → ℕ} (hp : p.call s.committed s.seq = (r, c, n)) :
    ∃ held, Run ok s₀ ⟨c, n, Function.update s.procs i (.done r), ⟨i, r, s.committed, c, held⟩ :: s.log⟩ := by
  cases he : p.script.exec s.committed .start s.seq with | mk r' out =>
  obtain ⟨y, m⟩ := out
  obtain ⟨t, seen, hrun, hc, hn, hl, ht, hprocs⟩ := h.script hi ha rfl hok he
  have hti : t.procs i = .running (.of r') y seen := by
    rw [hprocs, Function.update_self]
  have finish : ∀ {r c}, t.step i = some (t.finish i r c) → t.finish i r c =
      ⟨c, m, Function.update s.procs i (.done r), ⟨i, r, s.committed, c, y.held⟩ :: s.log⟩ := by
    intro r c _
    simp only [Sys.finish, hc, hn, hl, hti, hprocs, Function.update_idem]
    rfl
  have hrun' : ∀ {r c}, t.step i = some (t.finish i r c) → Run ok s₀
      ⟨c, m, Function.update s.procs i (.done r), ⟨i, r, s.committed, c, y.held⟩ :: s.log⟩ :=
    fun hstep => finish hstep ▸ hrun.step hstep (hok _ _ ht hc)
  simp only [Prog.call, he] at hp
  cases r' with
  | error e =>
    cases hp
    exact ⟨_, hrun' <| by simp only [Sys.step, hti, Script.of, hc]⟩
  | ok a =>
    cases hv : S.valid (y.pend s.committed) with
    | true =>
      simp only [hv, if_true] at hp
      cases hp
      exact ⟨_, hrun' <| by simp only [Sys.step, hti, Script.of, hc, hv, if_true]⟩
    | false =>
      simp only [hv, Bool.false_eq_true, if_false] at hp
      cases hp
      exact ⟨_, hrun' <| by simp only [Sys.step, hti, Script.of, hc, hv, Bool.false_eq_true, if_false]⟩

end Alone

end Sys
