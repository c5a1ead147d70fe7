import ACRev360.Services.Names
import ACRev360.Services.Requests

namespace ACRev360

open Relational

-- The last day there is, the 31st of December 9999.
def Date.max : Date :=
  3652059

-- The local day as a window: its start, and the start of the next day.
def dateSpanBounds (day : Date) : Service (Date × Date) :=
  if day < Date.max then return (day, day + 1) else refuse .overflowError

-- bill__payer__enumerated_by__consultant_id
def consultantOf (s : Db) (bill : ℕ) : Option ℕ := do
  let bill ← (s.table .bill).get bill
  let payer ← (s.table .payer).get bill.payer
  let user ← (s.table .user).get payer.enumeratedBy
  user.consultant

-- The payments that a settlement of the consultant counts. The session sees neither payments nor bills of
-- another council.
def counts (s : Db) (council consultant : ℕ) (windowStart windowEnd : Date) (_ : ℕ) (p : Payment) : Bool :=
  p.council = council && ((s.table .bill).get p.bill).any (·.council = council) &&
    consultantOf s p.bill = some consultant && p.txnStatus = .confirmed &&
    windowStart ≤ p.createdAt && p.createdAt < windowEnd

def grossCollections (s : Db) (council consultant : ℕ) (windowStart windowEnd : Date) : ℤ :=
  (s.table .payment).sum fun k p =>
    if counts s council consultant windowStart windowEnd k p then p.amount.units else 0

def activeConsultants (s : Db) (council : ℕ) : List (Loaded SubConsultant) :=
  (s.table .consultant).filter (fun _ c => c.council = council && c.status = .active)
    |>.map fun c => ⟨c.1, c.2⟩

def settlementOf (s : Db) (council consultant : ℕ) (periodStart periodEnd : Date) : Option ℕ :=
  (s.table .settlement).first (fun _ r => r.council = council && r.consultant = consultant &&
    r.periodStart = periodStart && r.periodEnd = periodEnd) |>.map (·.1)

-- The share of the consultant at a rate in percent.
def commissionOf (gross : ℚ) (commissionRate : Percentage) : Option ℚ :=
  Decimal.quantize 2 <| Decimal.round <| Decimal.round (gross * commissionRate.toRat) / 100

-- CommissionSettlement.objects.update_or_create
def updateOrCreateSettlement (council : ℕ) (consultant : Loaded SubConsultant)
    (periodStart periodEnd : Date) (gross commission : ℚ) (actor : ℕ) : Service ℕ := do
  let (settlement, created) ← getOrCreate
    (fun s => settlementOf s council consultant.id periodStart periodEnd) do
      let grossCollections ← store gross
      let commissionAmount ← store commission
      create .settlement {
        council, consultant := consultant.id, periodStart, periodEnd, grossCollections
        commissionRate := consultant.row.commissionRate, commissionAmount, status := .computed
        computedBy := actor
      }
  if created then return settlement
  let _ ← getForUpdate .settlement settlement
  let grossCollections ← store gross
  let commissionAmount ← store commission
  save .settlement settlement fun r => {
    r with
    grossCollections, commissionRate := consultant.row.commissionRate, commissionAmount
    status := .computed, computedBy := actor
  }
  return settlement

def computeSettlement (council : ℕ) (periodStart periodEnd : Date) (actor : ℕ) (results : List ℕ)
    (consultant : Loaded SubConsultant) : Service (List ℕ) := do
  let (windowStart, _) ← dateSpanBounds periodStart
  let (_, windowEnd) ← dateSpanBounds periodEnd
  let gross ← query fun s => kobo (grossCollections s council consultant.id windowStart windowEnd)
  let some commission := commissionOf gross consultant.row.commissionRate | refuse .invalidOperation
  let settlement ←
    updateOrCreateSettlement council consultant periodStart periodEnd gross commission actor
  return results ++ [settlement]

def computeSettlements (council : ℕ) (periodStart periodEnd : Date) (actor : ℕ) : Service (List ℕ) := do
  let consultants ← query fun s => activeConsultants s council
  consultants.foldlM (computeSettlement council periodStart periodEnd actor) []

structure SettlementBillRow where
  billId     : ℕ
  billRef    : String
  payerName  : String
  collected  : ℚ
  commission : ℚ
  status     : SettlementStatus
deriving DecidableEq

-- The payments of a bill that meet `period_filter`.
def paidInPeriod (s : Db) (council : ℕ) (periodStartBound periodEndBound : Date) (bill : ℕ) :
    List (ℕ × Payment) :=
  (s.table .payment).filter fun _ p => p.council = council && p.bill = bill && p.txnStatus = .confirmed &&
    periodStartBound ≤ p.createdAt && p.createdAt < periodEndBound

-- The bills of a settlement, each with what has been collected of it in the period.
def settlementBills (s : Db) (settlement : CommissionSettlement) (periodStartBound periodEndBound : Date) :
    List ((ℕ × Bill) × Option Payer × ℤ) :=
  let paid := paidInPeriod s settlement.council periodStartBound periodEndBound
  (s.table .bill).filter (fun k b => b.council = settlement.council &&
      consultantOf s k = some settlement.consultant && !(paid k).isEmpty)
    |>.map fun b => (b, (s.table .payer).get b.2.payer, ((paid b.1).map (·.2.amount.units)).sum)

def settlementBillRow (settlement : CommissionSettlement) :
    (ℕ × Bill) × Option Payer × ℤ → Option SettlementBillRow
  | ((billId, bill), payer, collected) => do
    let commission ← commissionOf (kobo collected) settlement.commissionRate
    return {
      billId, billRef := bill.billRef, payerName := payer.elim "" (·.fullName), collected := kobo collected
      commission, status := settlement.status
    }

-- _settlement_bill_rows. Its bills are read after the block that sets the settlement's council; within a
-- request, what a block has set stays.
def settlementBillRows (settlement : CommissionSettlement) : Service (List SettlementBillRow) := do
  let (periodStartBound, _) ← dateSpanBounds settlement.periodStart
  let (_, periodEndBound) ← dateSpanBounds settlement.periodEnd
  let bills ← query fun s => settlementBills s settlement periodStartBound periodEndBound
  let some rows := bills.mapM (settlementBillRow settlement) | refuse .invalidOperation
  return rows

-- _ALLOWED_STATUS_TRANSITIONS
def SettlementStatus.allowedTransitions : SettlementStatus → List SettlementStatus
  | computed => [approved, disputed]
  | approved => [settled, disputed]
  | disputed => [approved]
  | settled  => []

def statusChange (council pk : ℕ) (status : SettlementStatus) : Service Unit := do
  let settlement ← getObject .settlement pk (fun r => r.council = council) []
  if status ∉ settlement.row.status.allowedTransitions then
    refuse <| .statusTransition settlement.row.status status
  save .settlement settlement.id fun r => { r with status }

-- The update of a consultant, which saves the whole object that the view has loaded.
def updateCommissionRate (council pk : ℕ) (commissionRate : Percentage) : Service Unit := do
  let consultant ← getObject .consultant pk (fun c => c.council = council) []
  save .consultant consultant.id fun _ => { consultant.row with commissionRate }

def hasBalance (s : Db) (payer : ℕ) : Bool :=
  (s.table .bill).first (fun _ b => b.payer = payer && b.status.isOpen) |>.isSome

def consultantStatusChange (council pk : ℕ) (status : ConsultantStatus) : Service Unit := do
  let consultant ← getObject .consultant pk (fun c => c.council = council) []
  let unpaid ← query fun s => consultant.row.registrationPayer.any (hasBalance s)
  if status = .active && unpaid then refuse .registrationUnpaid
  save .consultant consultant.id fun c => { c with status }

-- The requests that work on settlements or on what these are computed from.
inductive SettlementRequest where
  | compute (council : ℕ) (periodStart periodEnd : Date) (actor : ℕ)
  | statusChange (council pk : ℕ) (status : SettlementStatus)
  | commissionRate (council pk : ℕ) (commissionRate : Percentage)
  | consultantStatus (council pk : ℕ) (status : ConsultantStatus)
  | money (r : Request)

-- The settlements that the request computes.
def SettlementRequest.serve (today : Date) : SettlementRequest → Service (List ℕ)
  | compute council periodStart periodEnd actor =>
    computeSettlements council periodStart periodEnd actor
  | statusChange council pk status => do
    ACRev360.statusChange council pk status
    return []
  | commissionRate council pk rate => do
    updateCommissionRate council pk rate
    return []
  | consultantStatus council pk status => do
    consultantStatusChange council pk status
    return []
  | money r => do
    r.serve today
    return []

end ACRev360
