import Mathlib.Data.Nat.Notation
import Mathlib.Logic.Function.Basic
import Mathlib.Order.Defs.PartialOrder

-- The states of a database as transactions see them: its lockable rows, the sequences that hand out
-- primary keys, the exceptions statements raise, and the parts of the state (facets) that a
-- transaction can rely on without having locked them.
structure Schema where
  State   : Type
  Row     : Type
  Seq     : Type
  Facet   : Type
  Exn     : Type
  [decRow : DecidableEq Row]
  [decSeq : DecidableEq Seq]
  -- Two states agree on the contents of a row.
  Agree   : Row → State → State → Prop
  agree   : ∀ r, Equivalence (Agree r)
  -- Two states are the same as far as a facet is concerned, which depends on rows only.
  Same    : Facet → State → State → Prop
  same    : ∀ f, Equivalence (Same f)
  same_of : ∀ {f s₁ s₂ t₁ t₂}, Same f s₁ s₂ →
    (∀ r, (Agree r s₁ t₁ ∧ Agree r s₂ t₂) ∨ Agree r t₁ t₂) → Same f t₁ t₂
  -- What no statement ever undoes, row by row.
  Evolves : Row → State → State → Prop
  evolves_of_agree : ∀ {r s t}, Agree r s t → Evolves r s t
  evolves_trans    : ∀ {r s t u}, Evolves r s t → Evolves r t u → Evolves r s u
  -- The constraints that are deferred to the end of a transaction, and what their failure raises.
  valid   : State → Bool
  invalid : Exn
  -- An exception as it leaves the block whose effects have been rolled back.
  contained : Exn → Exn

namespace Schema

instance (S : Schema) : DecidableEq S.Row := S.decRow
instance (S : Schema) : DecidableEq S.Seq := S.decSeq

end Schema

-- A statement: the rows it locks, the facets it reads, and its effect, which is confined to the rows
-- it locks and determined by them.
structure Act (S : Schema) where
  locks   : List S.Row
  sees    : List S.Facet
  eff     : S.State → S.State
  frame   : ∀ {r} s, r ∉ locks → S.Agree r s (eff s)
  det     : ∀ {s t}, (∀ r ∈ locks, S.Agree r s t) → ∀ r ∈ locks, S.Agree r (eff s) (eff t)
  evolves : ∀ r s, S.Evolves r s (eff s)

-- The statement that takes locks and reads, and changes nothing.
def Act.look {S : Schema} (locks : List S.Row) (sees : List S.Facet) : Act S where
  locks   := locks
  sees    := sees
  eff     := id
  frame   := fun _ _ => (S.agree _).refl _
  det     := fun h => h
  evolves := fun _ _ => S.evolves_of_agree <| (S.agree _).refl _

-- A transaction in progress: the effect it has had so far, which only it can see, and the rows it
-- holds.
structure Txn (S : Schema) where
  pend    : S.State → S.State
  held    : S.Row → Bool
  frame   : ∀ {r} s, held r = false → S.Agree r s (pend s)
  det     : ∀ {s t}, (∀ r, held r → S.Agree r s t) → ∀ r, held r → S.Agree r (pend s) (pend t)
  evolves : ∀ r s, S.Evolves r s (pend s)

variable {S : Schema}

namespace Txn

def start : Txn S where
  pend    := id
  held    := fun _ => false
  frame   := fun _ _ => (S.agree _).refl _
  det     := fun h r hr => h r hr
  evolves := fun _ _ => S.evolves_of_agree <| (S.agree _).refl _

def add (x : Txn S) (a : Act S) : Txn S where
  pend := a.eff ∘ x.pend
  held := fun r => x.held r || a.locks.contains r
  frame {r} s h := by
    simp only [Bool.or_eq_false_iff, List.contains_eq_mem, decide_eq_false_iff_not] at h
    exact (S.agree r).trans (x.frame s h.left) (a.frame _ h.right)
  det {s t} h r hr := by
    -- Before `a`, the two states agree on the rows `x` holds and on those `a` locks.
    have hx : ∀ r, (x.held r || a.locks.contains r) → S.Agree r (x.pend s) (x.pend t) := by
      intro r hr
      cases hh : x.held r with
      | true => exact x.det (fun r hr => h r (by simp [hr])) r hh
      | false =>
        have hst := (S.agree r).trans (h r hr) (x.frame t hh)
        exact (S.agree r).trans ((S.agree r).symm <| x.frame s hh) hst
    by_cases ha : r ∈ a.locks
    case pos => exact a.det (fun r hr => hx r (by simp [hr])) r ha
    case neg =>
      have hst := (S.agree r).trans (hx r hr) (a.frame _ ha)
      exact (S.agree r).trans ((S.agree r).symm <| a.frame _ ha) hst
  evolves r s := S.evolves_trans (x.evolves r s) (a.evolves r _)

@[simp] theorem start_pend (s : S.State) : (start : Txn S).pend s = s := rfl
@[simp] theorem start_held (r : S.Row) : (start : Txn S).held r = false := rfl

@[simp]
theorem add_pend (x : Txn S) (a : Act S) (s : S.State) : (x.add a).pend s = a.eff (x.pend s) :=
  rfl

@[simp]
theorem add_held {x : Txn S} {a : Act S} {r : S.Row} :
    (x.add a).held r ↔ x.held r ∨ r ∈ a.locks := by
  simp [add]

theorem ext {x y : Txn S} (hp : x.pend = y.pend) (hh : x.held = y.held) : x = y := by
  cases x; cases y; simp_all

@[simp]
theorem add_look_nil (x : Txn S) (sees : List S.Facet) : x.add (.look [] sees) = x := by
  apply ext
  · rfl
  · funext r
    simp [add, Act.look]

-- What the transaction sees stays as it is on the rows it holds, whatever others commit.
theorem agree_of_held {x : Txn S} {c d : S.State} (h : ∀ r, x.held r → S.Agree r c d) {r : S.Row}
    (hr : x.held r) : S.Agree r (x.pend c) (x.pend d) :=
  x.det h r hr

theorem same_of_held {x : Txn S} {c d : S.State} {f : S.Facet} (h : ∀ r, x.held r → S.Agree r c d)
    (hf : S.Same f c d) : S.Same f (x.pend c) (x.pend d) := by
  refine S.same_of hf fun r => ?_
  cases hr : x.held r with
  | true => exact .inr <| x.det h r hr
  | false => exact .inl ⟨x.frame c hr, x.frame d hr⟩

end Txn

namespace Txn

-- `y` holds at least the rows `x` holds.
def Sub (x y : Txn S) : Prop :=
  ∀ r, x.held r → y.held r

theorem Sub.refl (x : Txn S) : x.Sub x :=
  fun _ h => h

theorem Sub.trans {x y z : Txn S} (h₁ : x.Sub y) (h₂ : y.Sub z) : x.Sub z :=
  fun r h => h₂ r (h₁ r h)

theorem sub_add (x : Txn S) (a : Act S) : x.Sub (x.add a) :=
  fun _ h => add_held.mpr (.inl h)

end Txn

-- The statements of a transaction as a script. A step waits for the locks of its statement, and its
-- continuation gets the state the transaction saw when it got them. `mark` sets a savepoint, and
-- `reset` goes back to one, which gives up the locks taken since.
inductive Script (S : Schema) (α : Type) where
  | ret   (a : α)
  | raise (e : S.Exn)
  | step  (act : S.State → Act S) (k : S.State → Script S α)
  | fresh (q : S.Seq) (k : ℕ → Script S α)
  | mark  (k : Txn S → Script S α)
  | reset (sp : Txn S) (k : Script S α)

namespace Script

variable {α β γ : Type}

def bind : Script S α → (α → Script S β) → Script S β
  | ret a, f      => f a
  | raise e, _    => raise e
  | step act k, f => step act fun v => (k v).bind f
  | fresh q k, f  => fresh q fun n => (k n).bind f
  | mark k, f     => mark fun sp => (k sp).bind f
  | reset sp k, f => reset sp (k.bind f)

def tryCatch : Script S α → (S.Exn → Script S α) → Script S α
  | ret a, _      => ret a
  | raise e, h    => h e
  | step act k, h => step act fun v => (k v).tryCatch h
  | fresh q k, h  => fresh q fun n => (k n).tryCatch h
  | mark k, h     => mark fun sp => (k sp).tryCatch h
  | reset sp k, h => reset sp (k.tryCatch h)

def of : Except S.Exn α → Script S α
  | .ok a    => ret a
  | .error e => raise e

theorem bind_ret (p : Script S α) : p.bind ret = p := by
  induction p <;> simp_all [bind]

theorem bind_assoc (p : Script S α) (f : α → Script S β) (g : β → Script S γ) :
    (p.bind f).bind g = p.bind fun a => (f a).bind g := by
  induction p <;> simp_all [bind]

-- A transaction that runs the script from `x` goes back only to savepoints whose locks it still
-- holds, and never gives up the locks of `o`.
def Nested (o : Txn S) : Txn S → Script S α → Prop
  | x, ret _      => o.Sub x
  | x, raise _    => o.Sub x
  | x, step act k => ∀ v, (k v).Nested o (x.add (act v))
  | x, fresh _ k  => ∀ n, (k n).Nested o x
  | x, mark k     => (k x).Nested o x
  | x, reset sp k => o.Sub sp ∧ sp.Sub x ∧ k.Nested o sp

namespace Nested

variable {o x : Txn S} {p : Script S α}

theorem bind {f : α → Script S β} (h : p.Nested o x) (hf : ∀ a y, o.Sub y → (f a).Nested o y) :
    (p.bind f).Nested o x := by
  induction p generalizing x with
  | ret a => exact hf a x h
  | raise e => exact h
  | step act k hi => exact fun v => hi v (h v)
  | fresh q k hi => exact fun n => hi n (h n)
  | mark k hi => exact hi x h
  | reset sp k hi => exact ⟨h.1, h.2.1, hi h.2.2⟩

theorem tryCatch {f : S.Exn → Script S α} (h : p.Nested o x)
    (hf : ∀ e y, o.Sub y → (f e).Nested o y) : (p.tryCatch f).Nested o x := by
  induction p generalizing x with
  | ret a => exact h
  | raise e => exact hf e x h
  | step act k hi => exact fun v => hi v (h v)
  | fresh q k hi => exact fun n => hi n (h n)
  | mark k hi => exact hi x h
  | reset sp k hi => exact ⟨h.1, h.2.1, hi h.2.2⟩

theorem weaken {o' : Txn S} (h : p.Nested o x) (ho : o'.Sub o) : p.Nested o' x := by
  induction p generalizing x with
  | ret a => exact ho.trans h
  | raise e => exact ho.trans h
  | step act k hi => exact fun v => hi v (h v)
  | fresh q k hi => exact fun n => hi n (h n)
  | mark k hi => exact hi x h
  | reset sp k hi => exact ⟨ho.trans h.1, h.2.1, hi h.2.2⟩

end Nested

-- The run of the script in the transaction `x` while nothing else is committed to `c`: its outcome,
-- the transaction it leaves behind and the state of the sequences.
def exec (c : S.State) : Script S α → Txn S → (S.Seq → ℕ) → Except S.Exn α × Txn S × (S.Seq → ℕ)
  | ret a, x, n      => (.ok a, x, n)
  | raise e, x, n    => (.error e, x, n)
  | step act k, x, n => (k (x.pend c)).exec c (x.add (act (x.pend c))) n
  | fresh q k, x, n  => (k (n q)).exec c x (Function.update n q (n q + 1))
  | mark k, x, n     => (k x).exec c x n
  | reset sp k, _, n => k.exec c sp n

end Script

-- A program that runs in a transaction. Its blocks are nested: each goes back to the savepoint at
-- its own start only.
structure Prog (S : Schema) (α : Type) where
  script : Script S α
  nested : ∀ x, script.Nested x x

namespace Prog

variable {α β γ : Type}

@[ext]
theorem ext {p q : Prog S α} (h : p.script = q.script) : p = q := by
  cases p; cases q; simp_all

instance : Monad (Prog S) where
  pure a := ⟨.ret a, Txn.Sub.refl⟩
  bind p f := {
    script := p.script.bind fun a => (f a).script
    nested := fun x => (p.nested x).bind fun a y hy => (f a).nested y |>.weaken hy
  }

instance : LawfulMonad (Prog S) :=
  LawfulMonad.mk' _ (fun p => ext p.script.bind_ret) (fun _ _ => rfl)
    fun p f g => ext <| p.script.bind_assoc (fun a => (f a).script) fun b => (g b).script

def raise (e : S.Exn) : Prog S α where
  script := .raise e
  nested := Txn.Sub.refl

-- Takes the locks of a statement and runs it. The statement may depend on what the transaction sees
-- by then, which is the result.
def step (act : S.State → Act S) : Prog S S.State where
  script := .step act .ret
  nested := fun x v => x.sub_add (act v)

def act (a : Act S) : Prog S Unit := do
  let _ ← step fun _ => a
  return ()

def fresh (q : S.Seq) : Prog S ℕ where
  script := .fresh q .ret
  nested := fun x _ => .refl x

-- The outcome of the program, for a caller that handles its exceptions. Effects up to the exception
-- stay.
def attempt (p : Prog S α) : Prog S (Except S.Exn α) where
  script := (p.script.bind fun a => .ret (.ok a)).tryCatch fun e => .ret (.error e)
  nested := fun x => .tryCatch (.bind (p.nested x) fun _ _ => id) fun _ _ => id

-- A nested atomic block: an exception that leaves it first takes the transaction back to the
-- savepoint at its start.
def atomic (p : Prog S α) : Prog S α where
  script := .mark fun sp => p.script.tryCatch fun e => .reset sp (.raise (S.contained e))
  nested := fun x => (p.nested x).tryCatch fun _ _ hy => ⟨.refl x, hy, .refl x⟩

-- The call of a program as a transaction: it is committed if it returns and the deferred
-- constraints hold, and rolled back otherwise.
def call (p : Prog S α) (c : S.State) (n : S.Seq → ℕ) : Except S.Exn α × S.State × (S.Seq → ℕ) :=
  match p.script.exec c .start n with
  | (.ok a, x, m)    => if S.valid (x.pend c) then (.ok a, x.pend c, m) else (.error S.invalid, c, m)
  | (.error e, _, m) => (.error e, c, m)

end Prog
