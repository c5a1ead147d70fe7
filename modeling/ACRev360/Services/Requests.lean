import ACRev360.Services.Payments

namespace ACRev360

open Relational

-- The requests that work on bills and payments, as their views serve them.
inductive Request where
  | issueBill (r : IssueRequest)
  | addLine (pk actor : ℕ) (e : LineEntry)
  | putLine (pk lineId : ℕ) (lineAmount : ℚ)
  | deleteLine (pk lineId : ℕ)
  | postPayment (pk : ℕ) (r : PaymentRequest)
  | reverse (pk : ℕ)

namespace Request

def serve (today : Date) : Request → Service Unit
  | issueBill r               => do let _ ← ACRev360.issueBill today r
  | addLine pk actor e        => do let _ ← ACRev360.addLine today pk actor e
  | putLine pk lineId amount  => ACRev360.putLine today pk lineId amount
  | deleteLine pk lineId      => ACRev360.deleteLine today pk lineId
  | postPayment pk r          => do let _ ← createPaymentView today pk r
  | reverse pk                => ACRev360.reverse today pk

-- Payments are of positive amounts.
def Positive : Request → Prop
  | postPayment _ r => 0 < r.amount
  | _               => True

end Request

-- No bill has been issued yet. What has been assessed by then is not negative.
structure Db.Initial (s : Db) : Prop where
  assessment : ∀ {k a}, (s.table .assessment).get k = some a → 0 ≤ a.amount.units
  bill       : s.table .bill = .empty
  line       : s.table .line = .empty
  payment    : s.table .payment = .empty
  allocation : s.table .allocation = .empty
  credit     : ∀ {k p}, (s.table .payer).get k = some p → p.creditBalance = 0

-- The states that requests lead to that are served one after the other and meet `ok`, on any days and
-- with any primary keys handed out.
inductive Db.Reachable (ok : Db → Request → Prop) : Db → Prop
  | initial {s} : s.Initial → Reachable ok s
  | serve {s t n m out} (today : Date) (r : Request) :
    Reachable ok s → ok s r → (r.serve today).call s n = (out, t, m) → Reachable ok t

-- What the requests keep when they return holds in every state that is reached.
theorem Db.Reachable.preserves {ok : Db → Request → Prop} {P : Db → Prop} {s : Db} (h : s.Reachable ok)
    (hi : ∀ {s : Db}, s.Initial → P s)
    (hs : ∀ {s today r}, P s → ok s r →
      Prog.Post (r.serve today) s (Prog.OnReturn fun _ t => Database.valid t → P t)) : P s := by
  induction h with
  | initial h => exact hi h
  | serve today r _ hok hc hp =>
    rename_i out _
    cases out with
    | error e => exact Prog.call_error hc ▸ hp
    | ok a =>
      have ⟨ht, hv⟩ := Prog.call_ok (hs hp hok) hc
      exact ht hv

-- The requests that work on bills, and those that work on the debt cases of the overdue ones.
inductive DebtRequest where
  | billing (r : Request)
  | refresh (council : ℕ)
  | escalate (council pk : ℕ)

def DebtRequest.serve (today : Date) : DebtRequest → Service Unit
  | billing r           => r.serve today
  | refresh council     => do let _ ← refreshDebt council today
  | escalate council pk => escalateView today council pk

end ACRev360
