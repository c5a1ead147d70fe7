import ACRev360.Objects.Schema
import Mathlib.Data.List.Sort

namespace ACRev360

-- An object as a caller has loaded it. Its columns may have changed since.
structure Loaded (α : Type) where
  id  : ℕ
  row : α
deriving DecidableEq

-- Sums of stored amounts are in units of the columns, the kobo.
def kobo (z : ℤ) : ℚ :=
  z / 100

@[simp]
theorem kobo_zero : kobo 0 = 0 := by
  rw [kobo, Int.cast_zero, zero_div]

theorem kobo_mul (z : ℤ) : kobo z * 10 ^ 2 = z := by
  rw [kobo]
  ring

-- Amounts in whole kobo, as the columns hold them.
def cents (q : ℚ) : ℤ :=
  roundHalfAway (q * 10 ^ 2)

theorem cents_kobo (z : ℤ) : cents (kobo z) = z := by
  rw [cents, kobo_mul, roundHalfAway_intCast]

@[simp]
theorem cents_zero : cents 0 = 0 := by
  simpa [kobo] using cents_kobo 0

theorem cents_nonneg {q : ℚ} (h : 0 ≤ q) : 0 ≤ cents q :=
  roundHalfAway_nonneg <| by positivity

theorem cents_le {q r : ℚ} (h : 0 ≤ q) (hle : q ≤ r) : cents q ≤ cents r :=
  roundHalfAway_le (by positivity) (by linarith)

theorem cents_kobo_add {z : ℤ} {q : ℚ} (hz : 0 ≤ z) (hq : 0 ≤ q) :
    cents (kobo z + q) = z + cents q := by
  rw [cents, add_mul, kobo_mul]
  exact roundHalfAway_add hz (by positivity)

theorem kobo_add (y z : ℤ) : kobo y + kobo z = kobo (y + z) := by
  simp only [kobo]
  push_cast
  ring

theorem kobo_pos {z : ℤ} (h : 0 < z) : 0 < kobo z := by
  have : (0 : ℚ) < z := by exact_mod_cast h
  rw [kobo]
  positivity

theorem kobo_sub (y z : ℤ) : kobo y - kobo z = kobo (y - z) := by
  simp only [kobo]
  push_cast
  ring

theorem kobo_max (y z : ℤ) : kobo (max y z) = max (kobo y) (kobo z) := by
  have : Monotone kobo := fun y z h => by
    rw [kobo, kobo]
    have : (y : ℚ) ≤ z := by exact_mod_cast h
    linarith
  exact this.map_max

theorem Money.toRat_eq_kobo (x : Money) : x.toRat = kobo x.units := by
  rw [Numeric.toRat, kobo]
  norm_num

namespace Db

variable (s : Db)

def confirmed (payment : ℕ) : Bool :=
  (s.table .payment).get payment |>.any fun p => p.txnStatus = .confirmed

-- BillLine.paid_amount
def paidAmount (line : ℕ) : ℤ :=
  (s.table .allocation).sum fun _ a =>
    if a.line = line ∧ s.confirmed a.payment then a.amount.units else 0

def isLineOf (b : ℕ) (_ : ℕ) (l : BillLine) : Bool :=
  l.bill = b

-- The lines of a bill in the order of their table, by position and then by id.
def linesOf (b : ℕ) : List (Loaded BillLine) :=
  (s.table .line).filter (isLineOf b)
    |>.map (fun l => ⟨l.1, l.2⟩)
    |>.insertionSort fun x y => x.row.position < y.row.position ∨
        (x.row.position = y.row.position ∧ x.id ≤ y.id)

def lineTotal (b : ℕ) : ℤ :=
  (s.table .line).sum fun _ l => if l.bill = b then l.lineAmount.units else 0

def arrearsTotal (b : ℕ) : ℤ :=
  (s.table .line).sum fun _ l => if l.bill = b then l.arrearsAmount.units else 0

-- The allocations of a payment, whatever its status.
def appliedBy (payment : ℕ) : ℤ :=
  (s.table .allocation).sum fun _ a => if a.payment = payment then a.amount.units else 0

def debtCaseOf (b : ℕ) : Option (Loaded DebtCase) :=
  (s.table .debtCase).first (fun _ c => c.bill = b) |>.map fun c => ⟨c.1, c.2⟩

def hasActiveBands (item : ℕ) : Bool :=
  (s.table .rateBand).first (fun _ r => r.item = item ∧ r.effectiveTo = none) |>.isSome

-- The open rate of an item; of several, one with the latest start.
def currentRate (item : ℕ) : Option (Loaded RateSchedule) :=
  (s.table .rateSchedule).filter (fun _ r => r.item = item ∧ r.effectiveTo = none)
    |>.insertionSort (fun x y => y.2.effectiveFrom ≤ x.2.effectiveFrom)
    |>.head?.map fun r => ⟨r.1, r.2⟩

section Congr

variable {s} {t : Db}

theorem confirmed_congr (h : t.table .payment = s.table .payment) : t.confirmed = s.confirmed := by
  funext p
  rw [confirmed, confirmed, h]

theorem appliedBy_congr (h : t.table .allocation = s.table .allocation) :
    t.appliedBy = s.appliedBy := by
  funext p
  rw [appliedBy, appliedBy, h]

theorem paidAmount_congr (ha : t.table .allocation = s.table .allocation)
    (hp : t.table .payment = s.table .payment) : t.paidAmount = s.paidAmount := by
  funext l
  rw [paidAmount, paidAmount, ha, confirmed_congr hp]

theorem linesOf_congr (h : t.table .line = s.table .line) : t.linesOf = s.linesOf := by
  funext b
  rw [linesOf, linesOf, h]

theorem lineTotal_congr (h : t.table .line = s.table .line) : t.lineTotal = s.lineTotal := by
  funext b
  rw [lineTotal, lineTotal, h]

theorem arrearsTotal_congr (h : t.table .line = s.table .line) : t.arrearsTotal = s.arrearsTotal := by
  funext b
  rw [arrearsTotal, arrearsTotal, h]

end Congr

end Db

open Relational

-- A query whose result is not relied on after the statement that uses it.
abbrev query {α : Type} (f : Db → α) : Service α :=
  select f []

-- A decimal on its way into a column.
def store {p s : ℕ} (q : ℚ) : Service (Numeric p s) :=
  match Numeric.ofRat? q with
  | some n => pure n
  | none   => abort .dataError

-- A text on its way into a column.
def storeText (width : ℕ) (s : String) : Service (VarChar width) :=
  match h : fitText width s with
  | some t => pure ⟨t, fitText_idem h⟩
  | none   => abort .dataError

-- The row of a relation, which the ORM loads when it is first used.
def load (t : Name) (k : ℕ) (sees : List Facet) : Service (Rec t) := do
  match ← select (fun s : Db => (s.table t).get k) sees with
  | some r => return r
  | none   => refuse .doesNotExist

-- get_object_or_404
def getObject (t : Name) (k : ℕ) (p : Rec t → Bool) (sees : List Facet) : Service (Loaded (Rec t)) := do
  match ← select (fun s : Db => (s.table t).get k) sees with
  | some r => if p r then return ⟨k, r⟩ else refuse .notFound
  | none   => refuse .notFound

abbrev forUpdate (t : Name) (k : ℕ) : Service (Option (Rec t)) :=
  @selectForUpdate relational t k

-- Model.objects.select_for_update().get(pk=k)
def getForUpdate (t : Name) (k : ℕ) : Service (Rec t) := do
  match ← forUpdate t k with
  | some r => return r
  | none   => refuse .doesNotExist

-- get_or_create: the row that a query finds, or else the one that `make` inserts, and whether it has
-- been inserted.
def getOrCreate (find : Db → Option ℕ) (make : Service ℕ) : Service (ℕ × Bool) := do
  if let some k ← query find then return (k, false)
  match ← make.atomic.attempt with
  | .ok k => return (k, true)
  | .error e =>
    if e.error ≠ .integrityError then .raise e
    match ← query find with
    | some k => return (k, false)
    | none => .raise e

end ACRev360
