import ACRev360.Library.Total

variable {S : Schema} {α β γ : Type}

namespace Script

-- What the sequence hands out while the script runs, the first first.
def drawn (q : S.Seq) (c : S.State) : Script S α → Txn S → (S.Seq → ℕ) → List ℕ
  | ret _, _, _      => []
  | raise _, _, _    => []
  | step act k, x, n => (k (x.pend c)).drawn q c (x.add (act (x.pend c))) n
  | fresh q' k, x, n =>
    let rest := (k (n q')).drawn q c x (Function.update n q' (n q' + 1))
    if q' = q then n q' :: rest else rest
  | mark k, x, n     => (k x).drawn q c x n
  | reset sp k, _, n => k.drawn q c sp n

variable {q : S.Seq} {c : S.State} {x : Txn S} {n : S.Seq → ℕ} {p : Script S α}

-- Sequences hand out one number after the other.
theorem drawn_eq : p.drawn q c x n = List.range' (n q) ((p.exec c x n).2.2 q - n q) := by
  induction p generalizing x n with
  | ret a => simp [drawn, exec]
  | raise e => simp [drawn, exec]
  | step act k hi => exact hi _
  | mark k hi => exact hi x
  | reset sp k hi => exact hi
  | fresh q' k hi =>
    have hle := (k (n q')).exec_seq_le (c := c) (x := x) (n := Function.update n q' (n q' + 1)) q
    simp only [drawn, exec, hi]
    split
    case isTrue hq =>
      subst hq
      rw [Function.update_self] at hle ⊢
      rw [← List.range'_succ]
      congr 1
      omega
    case isFalse hq => rw [Function.update_of_ne (Ne.symm hq)]

end Script

namespace Prog

variable {s t : S.State} {n m : S.Seq → ℕ}

-- What the sequence hands out while the program runs as a transaction.
def drawn (p : Prog S α) (q : S.Seq) (s : S.State) (n : S.Seq → ℕ) : List ℕ :=
  p.script.drawn q s .start n

theorem drawn_of_call {p : Prog S α} {out : Except S.Exn α} {q : S.Seq} (h : p.call s n = (out, t, m)) :
    p.drawn q s n = List.range' (n q) (m q - n q) ∧ n q ≤ m q := by
  have hm : m = (p.script.exec s .start n).2.2 := by
    unfold call at h
    generalize p.script.exec s .start n = ended at h ⊢
    obtain ⟨e | b, y, m⟩ := ended
    · exact (congrArg (·.2.2) h).symm
    · simp only at h
      split at h <;> exact (congrArg (·.2.2) h).symm
  rw [hm]
  exact ⟨Script.drawn_eq, Script.exec_seq_le q⟩

-- What a call leaves is valid.
theorem valid_of_call {p : Prog S α} {out : Except S.Exn α} (hs : S.valid s) (h : p.call s n = (out, t, m)) :
    S.valid t := by
  unfold call at h
  generalize p.script.exec s .start n = ended at h
  obtain ⟨e | b, y, m⟩ := ended
  · obtain ⟨-, rfl, -⟩ := h
    exact hs
  · simp only at h
    split at h
    case isTrue hv =>
      obtain ⟨-, rfl, -⟩ := h
      exact hv
    case isFalse =>
      obtain ⟨-, rfl, -⟩ := h
      exact hs

-- Wherever a transaction that sees `s` runs `p` alone and gets to an end, what the end is satisfies `Q`,
-- together with the sequences, which begin at `n`.
def Numbers (p : Prog S α) (s : S.State) (n : S.Seq → ℕ) (Q : α → S.State → (S.Seq → ℕ) → Prop) : Prop :=
  ∀ c (x : Txn S), x.pend c = s → ∀ a, (p.script.exec c x n).1 = .ok a →
    Q a ((p.script.exec c x n).2.1.pend c) (p.script.exec c x n).2.2

namespace Numbers

variable {Q : α → S.State → (S.Seq → ℕ) → Prop}

theorem ret {a : α} (h : Q a s n) : Numbers (pure a) s n Q := by
  rintro c x rfl _ ha
  cases ha
  exact h

theorem mono {p : Prog S α} {Q' : α → S.State → (S.Seq → ℕ) → Prop} (h : Numbers p s n Q)
    (hq : ∀ a t m, Q a t m → Q' a t m) : Numbers p s n Q' :=
  fun c x hx a ha => hq _ _ _ <| h c x hx a ha

-- What holds whatever the sequences hand out, and the sequences go on.
theorem of_post {p : Prog S α} {Q : α → S.State → Prop} (h : Post p s (OnReturn Q)) :
    Numbers p s n fun a t m => Q a t ∧ ∀ q, n q ≤ m q := by
  intro c x hx a ha
  have hq := (h c x hx).exec n
  rw [ha] at hq
  exact ⟨hq, fun q => Script.exec_seq_le q⟩

theorem seq {p : Prog S β} {f : β → Prog S α} {R : β → S.State → (S.Seq → ℕ) → Prop} (h : Numbers p s n R)
    (hf : ∀ b t m, R b t m → Numbers (f b) t m Q) : Numbers (p >>= f) s n Q := by
  intro c x hx a
  have hb := h c x hx
  rw [show (p >>= f).script.exec c x n = _ from Script.exec_bind]
  generalize p.script.exec c x n = out at hb
  obtain ⟨e | b, y, m⟩ := out
  · intro h
    contradiction
  · exact hf _ _ _ (hb _ rfl) c y rfl a

theorem foldlM {f : β → γ → Prog S β} {I : β → List γ → S.State → (S.Seq → ℕ) → Prop}
    (step : ∀ {b a l s n}, I b (a :: l) s n → Numbers (f b a) s n fun b' t m => I b' l t m) {b : β} {l : List γ}
    (h : I b l s n) : Numbers (l.foldlM f b) s n fun b' t m => I b' [] t m := by
  induction l generalizing b s n with
  | nil => exact ret h
  | cons a l hi => exact seq (step h) fun _ _ _ => hi

theorem call {p : Prog S α} {a : α} (h : Numbers p s n Q) (hc : p.call s n = (.ok a, t, m)) : Q a t m := by
  have hq := h s .start rfl
  unfold Prog.call at hc
  generalize p.script.exec s .start n = ended at hc hq
  obtain ⟨e | b, y, m⟩ := ended
  · simp at hc
  · simp only at hc
    split at hc
    · simp_all
    · simp at hc

end Numbers

end Prog

namespace Relational

variable {R : Relational} {t : R.Name} {s : R.Database} {n : R.Name → ℕ}

-- A row gets the next number of its sequence.
theorem numbers_create {r : R.Rec t} {Q : ℕ → R.Database → (R.Name → ℕ) → Prop}
    (h : Q (n t) (s.insert t (n t) r) (Function.update n t (n t + 1))) :
    Prog.Numbers (S := R.schema) (create t r) s n Q := by
  rintro c x rfl a
  rw [exec_create]
  split
  · intro ha
    contradiction
  · intro ha
    cases ha
    exact h

end Relational
