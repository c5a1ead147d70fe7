import ACRev360.Library.Rules

variable {S : Schema} {α β γ : Type}

-- The others keep an invariant of the committed states.
class Rely.Keeps (L : Rely S) (H : S.State → Prop) : Prop where
  keeps : ∀ {h c d}, L.guar h c d → H c → H d

-- The committed state meets `H`, and the transaction makes `I` of every such state that agrees with it on the rows
-- that the transaction holds.
structure Txn.Steady (H : S.State → Prop) (I : S.State → S.State → Prop) (c : S.State) (x : Txn S) : Prop where
  holds : H c
  makes : ∀ d, (∀ r, x.held r → S.Agree r c d) → H d → I d (x.pend d)

namespace Txn

-- The states that agree on what a transaction holds look alike to it there, once it has taken a statement.
theorem agree_of_add {x : Txn S} {a : Act S} {c d : S.State} (h : ∀ r, (x.add a).held r → S.Agree r c d) {r : S.Row}
    (hr : (x.add a).held r) : S.Agree r (x.pend c) (x.pend d) := by
  cases hx : x.held r with
  | true => exact x.det (fun r hr => h r <| add_held.mpr <| .inl hr) r hx
  | false =>
    have hcd := (S.agree r).trans (h r hr) (x.frame d hx)
    exact (S.agree r).trans ((S.agree r).symm <| x.frame c hx) hcd

namespace Steady

variable {L : Rely S} {H : S.State → Prop} {I J : S.State → S.State → Prop} {c d : S.State} {x : Txn S}
  {seen : List S.Facet}

theorem imp (h : x.Steady H I c) (hi : ∀ {d s}, I d s → J d s) : x.Steady H J c :=
  ⟨h.holds, fun d hd hh => hi <| h.makes d hd hh⟩

theorem self (h : x.Steady H I c) : I c (x.pend c) :=
  h.makes c (fun r _ => (S.agree r).refl c) h.holds

-- What the others commit does not matter.
theorem interf [L.Keeps H] (h : x.Steady H I c) (hd : Interf L x seen c d) : x.Steady H I d :=
  ⟨Rely.Keeps.keeps hd.guar h.holds, fun e he => h.makes e fun r hr => (S.agree r).trans (hd.agree r hr) (he r hr)⟩

-- One statement more.
theorem add {a : Act S} (h : x.Steady H I c)
    (ha : ∀ {d s}, (∀ r, (x.add a).held r → S.Agree r (x.pend c) s) → I d s → J d (a.eff s)) :
    (x.add a).Steady H J c := by
  refine ⟨h.holds, fun d hd hh => ha (fun r hr => agree_of_add hd hr) <| h.makes d (fun r hr => hd r ?_) hh⟩
  exact x.sub_add a r hr

end Steady

end Txn

namespace Prog

-- Wherever the program returns, its transaction makes `J` of the states.
def Steadies (L : Rely S) (H : S.State → Prop) (p : Prog S α) (J : α → S.State → S.State → Prop) (c : S.State)
    (x : Txn S) (seen : List S.Facet) : Prop :=
  p.Wp L (fun out d y _ => ∀ a, out = .ok a → y.Steady H (J a) d) c x seen

namespace Steadies

variable {L : Rely S} {H : S.State → Prop} {I : S.State → S.State → Prop} {J : α → S.State → S.State → Prop}
  {c : S.State} {x : Txn S} {seen : List S.Facet}

theorem ret {a : α} (h : x.Steady H (J a) c) : (pure a : Prog S α).Steadies L H J c x seen :=
  Wp.ret fun _ he => Except.ok.inj he ▸ h

theorem raise {e : S.Exn} : (Prog.raise e : Prog S α).Steadies L H J c x seen := by
  refine Wp.raise fun a he => ?_
  contradiction

theorem imp {p : Prog S α} {J' : α → S.State → S.State → Prop} (h : p.Steadies L H J c x seen)
    (hj : ∀ {a d s}, J a d s → J' a d s) : p.Steadies L H J' c x seen :=
  Wp.mono h fun _ _ _ _ hy a he => (hy a he).imp hj

theorem seq {p : Prog S β} {f : β → Prog S α} {K : β → S.State → S.State → Prop} (h : p.Steadies L H K c x seen)
    (hf : ∀ b d y seen', y.Steady H (K b) d → (f b).Steadies L H J d y seen') :
    (p >>= f).Steadies L H J c x seen := by
  refine Wp.bind <| Wp.mono h fun out d y seen' hy => ?_
  cases out with
  | ok b => exact hf b d y seen' <| hy b rfl
  | error e =>
    intro a he
    contradiction

theorem foldlM {f : β → γ → Prog S β} {K : β → List γ → S.State → S.State → Prop}
    (step : ∀ {b a l c x seen}, x.Steady H (K b (a :: l)) c → (f b a).Steadies L H (K · l) c x seen) {b : β}
    {l : List γ} (h : x.Steady H (K b l) c) : (l.foldlM f b).Steadies L H (K · []) c x seen := by
  induction l generalizing b c x seen with
  | nil => exact ret h
  | cons a l hi => exact seq (step h) fun _ _ _ _ => hi

-- What the others commit does not matter to a program that keeps what its transaction makes of the states.
theorem of_keeps [L.Keeps H] {P : S.State → S.State → Prop} [Std.Refl P] [IsTrans S.State P] {p : Prog S α}
    (h : x.Steady H I c) (hp : p.Keeps P) (hi : ∀ {d s t}, P s t → I d s → I d t) :
    p.Steadies L H (fun _ => I) c x seen := by
  have hstay : p.Wp L (fun _ d y seen' => x.Steady H I d ∧ x.Sub y ∧ seen ⊆ seen') c x seen :=
    .stable (fun hd hx => Txn.Steady.interf hx hd) h
  refine (hstay.and <| .keeps hp).mono fun _ d y _ hy _ _ => ⟨hy.1.1.holds, fun e he hh => ?_⟩
  exact hi (hy.2 e) <| hy.1.1.makes e (fun r hr => he r <| hy.1.2.1 r hr) hh

end Steadies

end Prog

namespace Sys

variable {ι : Type}

-- What holds after an event lasts, if every event keeps it.
theorem Linked.lasts {c d : S.State} {l : List (Event S ι α)} {P : S.State → Prop} (h : Linked c l d)
    (hp : ∀ e ∈ l, P e.before → P e.after) : ∀ e ∈ l, P e.after → P d := by
  induction l generalizing d with
  | nil => simp
  | cons e l hi =>
    obtain ⟨rfl, hl⟩ := h
    intro e' he' hafter
    rcases List.mem_cons.mp he' with rfl | he'
    · exact hafter
    · exact hp e (.head _) <| hi hl (fun e hmem => hp e <| .tail _ hmem) e' he' hafter

end Sys

namespace Relational

open Database

variable {R : Relational} {t : R.Name} {k : ℕ} {L : Rely R.schema} {H : R.Database → Prop}
  {I : R.Database → R.Database → Prop} {c : R.Database} {x : Txn R.schema} {seen : List R.Facet}
  [Rely.Keeps (S := R.schema) L H]

theorem steady_select {α : Type} {f : R.Database → α} {sees : List R.Facet}
    {J : α → R.Database → R.Database → Prop} (h : x.Steady H (J (f (x.pend c))) c) :
    (select f sees).Steadies L H J c x seen :=
  wp_select fun _ hd _ he => Except.ok.inj he ▸ h.interf hd

-- The row that has been read stays, because it is locked.
theorem steady_selectForUpdate {J : Option (R.Rec t) → R.Database → R.Database → Prop} (h : x.Steady H I c)
    (hs : ∀ {r d s}, (s.table t).get k = some r → I d s → J (some r) d s) (hn : ∀ {d s}, I d s → J none d s) :
    (selectForUpdate t k).Steadies L H J c x seen := by
  refine wp_selectForUpdate (fun r hr _ d hd a he => ?_) fun _ d hd a he => ?_
  · refine Txn.Steady.interf (Txn.Steady.add h fun hagree hi => ?_) hd
    have hrow := (hagree (.row t k) <| Txn.add_held.mpr <| .inr <| .head _).1
    exact Except.ok.inj he ▸ hs (hrow ▸ hr) hi
  · exact Except.ok.inj he ▸ (h.imp hn).interf hd

theorem steady_create {r : R.Rec t} {J : ℕ → R.Database → R.Database → Prop} (h : x.Steady H I c)
    (hi : ∀ {k d s}, k ∉ s.retired t → (s.table t).get k = none → I d s → J k d (s.insert t k r)) :
    (create t r).Steadies L H J c x seen := by
  refine wp_create (fun k hk _ d hd a he => ?_) fun _ _ _ _ _ _ a he => by contradiction
  obtain ⟨hretired, hnone, -⟩ := conflicts_false hk
  refine Txn.Steady.interf (Txn.Steady.add h fun hagree hs => ?_) hd
  have hrow := hagree (.row t k) <| Txn.add_held.mpr <| .inr <| .head _
  exact Except.ok.inj he ▸ hi (hrow.2.not.mp hretired) (hrow.1 ▸ hnone) hs

theorem steady_update {g : R.Rec t → R.Rec t} {hg : R.Keeping t g}
    {J : Option (R.Rec t) → R.Database → R.Database → Prop} (h : x.Steady H I c)
    (hs : ∀ {r d s}, (s.table t).get k = some r → I d s → J (some r) d (s.modify t k g))
    (hn : ((x.pend c).table t).get k = none → I c (x.pend c) → ∀ {d s}, I d s → J none d s) :
    (update t k g hg).Steadies L H J c x seen := by
  refine wp_update (fun r hr _ d hd a he => ?_) fun hnone d hd a he => ?_
  · refine Txn.Steady.interf (Txn.Steady.add h fun hagree hi => ?_) hd
    have hrow := (hagree (.row t k) <| Txn.add_held.mpr <| .inr <| .head _).1
    exact Except.ok.inj he ▸ hs (hrow ▸ hr) hi
  · exact Except.ok.inj he ▸ (h.imp (hn hnone h.self)).interf hd

theorem steady_save {g : R.Rec t → R.Rec t} {hg : R.Keeping t g} {J : R.Database → R.Database → Prop}
    (h : x.Steady H I c) (hs : ∀ {r d s}, (s.table t).get k = some r → I d s → J d (s.modify t k g)) :
    (save t k g hg).Steadies L H (fun _ => J) c x seen := by
  refine wp_save (fun r hr _ d hd a he => ?_) fun _ _ _ a he => by contradiction
  refine Txn.Steady.interf (Txn.Steady.add h fun hagree hi => ?_) hd
  have hrow := (hagree (.row t k) <| Txn.add_held.mpr <| .inr <| .head _).1
  exact hs (hrow ▸ hr) hi

end Relational
