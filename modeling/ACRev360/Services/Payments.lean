import ACRev360.Services.Billing

namespace ACRev360

open Relational

-- SELECT ... FOR UPDATE of the lines of a bill, in their order. The rows are read once their locks
-- are granted.
def lockLine (bill : ℕ) (acc : List (Loaded BillLine)) (k : ℕ) : Service (List (Loaded BillLine)) := do
  let some line ← forUpdate .line k | return acc
  return if line.bill = bill then acc ++ [⟨k, line⟩] else acc

-- Fills the lines from the first one on until nothing remains. `paid` is what the lines had been
-- paid before.
def allocate (payment : ℕ) (paid : ℕ → ℤ) : List (Loaded BillLine) → ℚ → ℚ → Service (ℚ × ℚ)
  | [], remaining, applied => return (applied, remaining)
  | line :: lines, remaining, applied => do
    if remaining ≤ 0 then return (applied, remaining)
    let outstanding := line.row.lineAmount.units - paid line.id
    if outstanding ≤ 0 then allocate payment paid lines remaining applied
    else
      let take := min remaining (kobo outstanding)
      let amount ← store take
      let _ ← create .allocation { payment, line := line.id, amount }
      allocate payment paid lines (Decimal.round (remaining - take)) (Decimal.round (applied + take))

-- What is applied to the bill and what is left over.
def allocateFifo (payment : ℕ) (amount : ℚ) (bill : ℕ) : Service (ℚ × ℚ) := do
  let found ← query fun s => (s.linesOf bill).map (·.id)
  let lines ← found.foldlM (lockLine bill) []
  let paid ← query fun s => fun line => s.paidAmount line
  allocate payment paid lines amount 0

-- Payer.objects.filter(pk=payer).update(credit_balance=F("credit_balance") + amount)
def addCredit (payer : ℕ) (amount : ℚ) : Service Unit := do
  let sum := fun p : Payer => Numeric.ofRat? (p.creditBalance.toRat + amount)
  let old : Option Payer ← @update relational .payer payer
    (fun p => { p with creditBalance := (sum p).getD p.creditBalance }) ⟨fun _ => rfl, fun _ => rfl⟩
  if old.any fun p => (sum p).isNone then abort .dataError

structure PaymentRequest where
  council    : ℕ
  channel    : ℕ
  amount     : ℚ
  bankTxnRef : String
  postedBy   : Option ℕ
  -- The coordinates as their columns take them, or why they do not.
  geo        : Except Error (Option Coordinate × Option Coordinate)
  terminal   : Option ℕ

def createPayment (today : Date) (bill : ℕ) (r : PaymentRequest) : Service ℕ := do
  let geo ← (match r.geo with
    | .ok geo => pure geo
    | .error e => abort e)
  let amount ← store r.amount
  let bankTxnRef ← storeText 64 r.bankTxnRef
  let payment ← create .payment {
    council := r.council, paymentRef := placeholderRef, bill, channel := r.channel
    terminal := r.terminal, amount, bankTxnRef := bankTxnRef.val, txnStatus := .confirmed
    postedBy := r.postedBy, geoLat := geo.1, geoLng := geo.2, createdAt := today
  }
  save .payment payment fun p => { p with paymentRef := s!"PAY-{pad 8 payment}" }
  return payment

def createReceipt (council payment : ℕ) : Service Unit := do
  let receipt ← create .receipt { council, receiptRef := placeholderRef, payment }
  save .receipt receipt fun r => { r with receiptRef := s!"RCT-{pad 8 receipt}" }

-- `bill` is the caller's object.
def postPayment (today : Date) (bill : Loaded Bill) (r : PaymentRequest) : Service ℕ := do
  if bill.row.status = .superseded then refuse <| .billSuperseded bill.row.supersededBy
  if bill.row.status = .cancelled then refuse .billCancelled
  let row ← getForUpdate .bill bill.id
  let payment ← createPayment today bill.id r
  let (applied, leftover) ← allocateFifo payment r.amount bill.id
  let amountPaid := Decimal.round (row.amountPaid.toRat + applied)
  let storedPaid ← store amountPaid
  save .bill bill.id fun b => { b with amountPaid := storedPaid }
  let status ← recomputeBill today ⟨bill.id, row⟩ amountPaid
  if 0 < leftover then addCredit row.payer leftover
  createReceipt r.council payment
  if status = .paid then closeDebtCaseForBill today bill.id
  return payment

-- `payment` is the caller's object.
def reversePayment (today : Date) (payment : Loaded Payment) : Service Unit := do
  if payment.row.txnStatus ≠ .confirmed then
    refuse <| .paymentNotConfirmed payment.row.txnStatus
  let row ← getForUpdate .payment payment.id
  let bill ← getForUpdate .bill row.bill
  let applied ← query fun s => kobo (s.appliedBy payment.id)
  let leftover := row.amount.toRat - applied
  save .payment payment.id fun p => { p with txnStatus := .reversed }
  let amountPaid := max (bill.amountPaid.toRat - applied) 0
  let storedPaid ← store amountPaid
  save .bill row.bill fun b => { b with amountPaid := storedPaid }
  let _ ← recomputeBill today ⟨row.bill, bill⟩ amountPaid
  if 0 < leftover then addCredit bill.payer (-leftover)

-- The views load the bill and the payment without locking them.

def createPaymentView (today : Date) (billId : ℕ) (r : PaymentRequest) : Service ℕ := do
  let bill ← getObject .bill billId (fun _ => true) []
  postPayment today bill r

def reverse (today : Date) (pk : ℕ) : Service Unit := do
  let payment ← getObject .payment pk (fun _ => true) []
  reversePayment today payment

end ACRev360
