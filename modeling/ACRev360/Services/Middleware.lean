import ACRev360.Services.Channels
import ACRev360.Services.Effects

namespace ACRev360

open Relational

variable {α : Type} {s t : Db} {n m : Name → ℕ}

-- The exception marks the block it leaves for rollback.
def marksRollback : Except relational.Exn α → Bool
  | .ok _    => false
  | .error e => e.aborted

-- CouncilContextMiddleware: the block around a request. Whatever the view raises, the block gets a
-- response. It commits, unless it has been marked for rollback.
def respond (view : Service α) (s : Db) (n : Name → ℕ) :
    Except relational.Exn α × Db × (Name → ℕ) :=
  let (r, x, m) := view.script.exec s .start n
  if marksRollback r then (r, s, m)
  else if Database.valid (x.pend s) then (r, x.pend s, m)
  else (.error relational.schema.invalid, s, m)

-- What a request commits is what its view has left behind.
theorem respond_post {view : Service α} {Q : Except relational.Exn α → Db → Prop}
    {out : Except relational.Exn α} (h : Prog.Post view s Q) (hr : respond view s n = (out, t, m)) :
    (t = s ∧ ∃ e, out = .error e) ∨ (Q out t ∧ marksRollback out = false ∧ Database.valid t) := by
  have hq := (h s .start rfl).exec n
  unfold respond at hr
  generalize view.script.exec s .start n = end_ at *
  obtain ⟨r, x, m'⟩ := end_
  simp only at hr hq
  split at hr
  case isTrue hmark =>
    obtain ⟨rfl, rfl, -⟩ : r = out ∧ s = t ∧ m' = m := by simpa using hr
    cases r with
    | ok a => simp [marksRollback] at hmark
    | error e => exact .inl ⟨rfl, e, rfl⟩
  case isFalse hmark =>
    split at hr
    case isTrue hv =>
      obtain ⟨rfl, rfl, -⟩ : r = out ∧ x.pend s = t ∧ m' = m := by simpa using hr
      exact .inr ⟨hq, by simpa using hmark, hv⟩
    case isFalse =>
      obtain ⟨rfl, rfl, -⟩ : .error relational.schema.invalid = out ∧ s = t ∧ m' = m := by simpa using hr
      exact .inl ⟨rfl, _, rfl⟩

-- The response to a view that comes to an end in every case.
theorem respond_runs {view : Service α} {Q : Except relational.Exn α → Db → Prop}
    {out : Except relational.Exn α} (h : Runs view s Q) (hs : Database.Proper s n)
    (hr : respond view s n = (out, t, m)) : Database.Proper t m ∧
      (marksRollback out = false ∧ Q out t ∨ marksRollback out ∧ t = s ∧ ∃ u, Q out u) := by
  have ⟨hq, hp⟩ := h s .start n rfl hs
  have hle := view.script.exec_seq_le (c := s) (x := .start) (n := n)
  unfold respond at hr
  generalize view.script.exec s .start n = end_ at *
  obtain ⟨r, x, m'⟩ := end_
  simp only [hp.valid, if_true] at hr
  split at hr
  case isTrue hmark =>
    obtain ⟨rfl, rfl, rfl⟩ : r = out ∧ s = t ∧ m' = m := by simpa using hr
    exact ⟨hs.mono hle, .inr ⟨hmark, rfl, _, hq⟩⟩
  case isFalse hmark =>
    obtain ⟨rfl, rfl, rfl⟩ : r = out ∧ x.pend s = t ∧ m' = m := by simpa using hr
    exact ⟨hp, .inl ⟨by simpa using hmark, hq⟩⟩

-- The requests by which payments come in or are taken back.
inductive Intake where
  | webhook (now : ℕ) (r : WebhookRequest)
  | otcSettlement (council user : ℕ) (data : Json)
  | createPayment (council actor : ℕ) (portfolio : ℕ → Bill → Bool) (data : PaymentForm)
  | sync (records : List SyncRequest)
  | reverse (pk : ℕ)

def Intake.view (gw : Gateway) (fw : Framework) (today : Date) : Intake → Service Unit
  | webhook now r => do let _ ← ACRev360.webhook gw today now r
  | otcSettlement council user data => do let _ ← ACRev360.otcSettlement gw today council user data
  | createPayment council actor portfolio data => do
    let _ ← createPaymentFrom fw today council actor portfolio data
  | sync records => do let _ ← ACRev360.sync fw today records
  | reverse pk => do
    let payment ← getObject .payment pk (fun _ => true) []
    (reversePayment today payment).atomic

-- The states that a sequence of such requests leads to, on any days, with any primary keys handed out,
-- and whether they succeed or not.
inductive Intake.Served (gw : Gateway) (fw : Framework) (s : Db) : Db → Prop
  | start : Served gw fw s s
  | serve {t u n m out} (today : Date) (r : Intake) :
    Served gw fw s t → respond (r.view gw fw today) t n = (out, u, m) → Served gw fw s u

theorem Intake.Served.preserves {gw : Gateway} {fw : Framework} {I : Db → Prop}
    (h : Intake.Served gw fw s t) (hI : ∀ {today} {r : Intake}, (r.view gw fw today).Maintains I)
    (hs : I s) : I t := by
  induction h with
  | start => exact hs
  | serve today r _ hr hi =>
    rcases respond_post (hI _ hi) hr with ⟨rfl, _⟩ | ⟨ht, _⟩
    · exact hi
    · exact ht

end ACRev360
