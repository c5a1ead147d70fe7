import ACRev360.Library.Program
import Mathlib.Data.Fintype.Defs

-- Transactions that run concurrently. Each statement reads what has been committed by then
-- (READ COMMITTED), and waits while another transaction holds one of the rows it locks.

variable {S : Schema} {ι α : Type}

-- A call of a program: the rest of it with its transaction and the facets that it has seen, or its
-- result.
inductive Proc (S : Schema) (α : Type) where
  | running (p : Script S α) (x : Txn S) (seen : List S.Facet)
  | done (r : Except S.Exn α)

def Proc.holds : Proc S α → S.Row → Bool
  | running _ x _, r => x.held r
  | done _, _        => false

-- The end of a call: the committed state around it, and the rows that the call held.
structure Event (S : Schema) (ι α : Type) where
  who    : ι
  result : Except S.Exn α
  before : S.State
  after  : S.State
  held   : S.Row → Bool

-- The log has the latest event first.
structure Sys (S : Schema) (ι α : Type) where
  committed : S.State
  seq       : S.Seq → ℕ
  procs     : ι → Proc S α
  log       : List (Event S ι α)

namespace Sys

def start (c : S.State) (n : S.Seq → ℕ) (calls : ι → Prog S α) : Sys S ι α where
  committed := c
  seq       := n
  procs i   := .running (calls i).script .start []
  log       := []

variable [DecidableEq ι]

def put (s : Sys S ι α) (i : ι) (p : Proc S α) : Sys S ι α :=
  { s with procs := Function.update s.procs i p }

def finish (s : Sys S ι α) (i : ι) (r : Except S.Exn α) (c : S.State) : Sys S ι α where
  committed := c
  seq       := s.seq
  procs     := Function.update s.procs i (.done r)
  log       := ⟨i, r, s.committed, c, (s.procs i).holds⟩ :: s.log

variable [Fintype ι]

-- No other call holds the row.
def free (s : Sys S ι α) (i : ι) (r : S.Row) : Bool :=
  decide (∀ j, j ≠ i → (s.procs j).holds r = false)

-- The next step of a call, unless it waits or is done.
def step (s : Sys S ι α) (i : ι) : Option (Sys S ι α) :=
  match s.procs i with
  | .done _ => none
  | .running (.ret a) x _ =>
    if S.valid (x.pend s.committed) then s.finish i (.ok a) (x.pend s.committed)
    else s.finish i (.error S.invalid) s.committed
  | .running (.raise e) _ _ => s.finish i (.error e) s.committed
  | .running (.step act k) x seen =>
    let v := x.pend s.committed
    if (act v).locks.all (s.free i) then
      s.put i <| .running (k v) (x.add (act v)) ((act v).sees ++ seen)
    else none
  | .running (.fresh q k) x seen => some {
      s.put i <| .running (k (s.seq q)) x seen with
      seq := Function.update s.seq q (s.seq q + 1)
    }
  | .running (.mark k) x seen => s.put i <| .running (k x) x seen
  | .running (.reset sp k) _ seen => s.put i <| .running k sp seen

-- The state after the steps of a schedule. A call that waits or is done lets its turns pass.
def exec (s : Sys S ι α) : List ι → Sys S ι α
  | []            => s
  | i :: schedule => ((s.step i).getD s).exec schedule

-- What a step does, by the script of the call that takes it.
theorem step_cases {s s' : Sys S ι α} {i : ι} (h : s.step i = some s') :
    ∃ p x seen, s.procs i = .running p x seen ∧
    ((∃ a, p = .ret a ∧ S.valid (x.pend s.committed) ∧
        s' = s.finish i (.ok a) (x.pend s.committed)) ∨
      (∃ a, p = .ret a ∧ s' = s.finish i (.error S.invalid) s.committed) ∨
      (∃ e, p = .raise e ∧ s' = s.finish i (.error e) s.committed) ∨
      (∃ act k, p = .step act k ∧ (∀ r ∈ (act (x.pend s.committed)).locks, s.free i r) ∧
        s' = s.put i (.running (k (x.pend s.committed)) (x.add (act (x.pend s.committed)))
          ((act (x.pend s.committed)).sees ++ seen))) ∨
      (∃ q k, p = .fresh q k ∧ s' = { s.put i (.running (k (s.seq q)) x seen) with
        seq := Function.update s.seq q (s.seq q + 1) }) ∨
      (∃ k, p = .mark k ∧ s' = s.put i (.running (k x) x seen)) ∨
      (∃ sp k, p = .reset sp k ∧ s' = s.put i (.running k sp seen))) := by
  unfold step at h
  cases hi : s.procs i with
  | done r => simp [hi] at h
  | running p x seen =>
    refine ⟨p, x, seen, rfl, ?_⟩
    cases p with
    | ret a =>
      simp only [hi] at h
      split at h
      case isTrue hv => exact .inl ⟨a, rfl, hv, (Option.some.inj h).symm⟩
      case isFalse => exact .inr <| .inl ⟨a, rfl, (Option.some.inj h).symm⟩
    | raise e => simp [hi] at h; simp [h]
    | step act k =>
      simp only [hi, List.all_eq_true] at h
      split at h
      case isTrue hf =>
        exact .inr <| .inr <| .inr <| .inl ⟨act, k, rfl, hf, (Option.some.inj h).symm⟩
      case isFalse => contradiction
    | fresh q k => simp [hi] at h; simp [h]
    | mark k => simp [hi] at h; simp [h]
    | reset sp k => simp [hi] at h; simp [h]

end Sys
