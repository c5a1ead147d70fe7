import ACRev360.Services.Enforcement

namespace ACRev360

open Relational

-- An assessment as the process holds it. Its quantity and amount need not have been rounded yet.
structure AssessmentObject where
  id       : ℕ
  item     : ℕ
  rateBand : Option ℕ
  rateTier : Option ℕ
  quantity : ℚ
  amount   : ℚ

-- What a charge is made for.
structure LineEntry where
  item           : Loaded RevenueItem
  quantity       : ℚ
  rateBand       : Option (Loaded RateBand)
  rateTier       : Option (Loaded RateTier)
  amountOverride : Option ℚ

def createAssessment (payer council actor : ℕ) (e : LineEntry) (rateSchedule rateBand rateTier : Option ℕ)
    (amount : ℚ) : Service AssessmentObject := do
  let storedQuantity ← store e.quantity
  let storedAmount ← store amount
  let id ← create .assessment {
    council, payer, item := e.item.id, rateSchedule, rateBand, rateTier
    quantity := storedQuantity, amount := storedAmount, status := .draft, createdBy := actor
  }
  return { id, item := e.item.id, rateBand, rateTier, quantity := e.quantity, amount }

-- The unit amount of a band and the tier that the assessment cites.
def bandAmount (e : LineEntry) (rateBand : Loaded RateBand) : Except Error (ℚ × Option ℕ) :=
  match rateBand.row.rateMode with
  | .flat flatAmount => .ok (flatAmount.val.toRat, e.rateTier.map (·.id))
  | .range minAmount maxAmount =>
    match e.amountOverride with
    | none => .error <| .amountRequired rateBand.row.label
    | some amountOverride =>
      if minAmount.val.toRat ≤ amountOverride ∧ amountOverride ≤ maxAmount.val.toRat then
        .ok (amountOverride, none)
      else .error <| .amountOutOfRange rateBand.row.label minAmount.val maxAmount.val
  | .tiered =>
    match e.rateTier with
    | none => .error <| .tierRequired rateBand.row.label
    | some rateTier =>
      if rateTier.row.band ≠ rateBand.id then .error <| .tierRequired rateBand.row.label
      else .ok (rateTier.row.amount.val.toRat, rateTier.id)

def createDraftAssessment (payer council actor : ℕ) (e : LineEntry) : Service AssessmentObject := do
  if e.quantity ≤ 0 then refuse .quantityNotPositive
  if ← query fun s => s.hasActiveBands e.item.id then
    let some rateBand := e.rateBand | refuse <| .bandRequired e.item.row.harmonisedCode
    if rateBand.row.item ≠ e.item.id ∨ rateBand.row.effectiveTo ≠ none then
      refuse <| .bandRequired e.item.row.harmonisedCode
    match bandAmount e rateBand with
    | .error err => refuse err
    | .ok (unitAmount, rateTier) =>
      createAssessment payer council actor e none (some rateBand.id) rateTier
        (Decimal.round (unitAmount * e.quantity))
  else
    let some rate ← query fun s => s.currentRate e.item.id
      | refuse <| .noActiveRate e.item.row.harmonisedCode
    createAssessment payer council actor e (some rate.id) none none
      (Decimal.round (rate.row.rateAmount.val.toRat * e.quantity))

-- The status that `recomputeBill` gives a bill.
def statusOf (today : Date) (status : BillStatus) (amountPaid totalAmount : ℚ) (dueDate : Date) :
    BillStatus :=
  if status.terminal then status
  else if totalAmount ≤ amountPaid ∧ 0 < totalAmount then .paid
  else if dueDate < today then .overdue
  else if 0 < amountPaid then .partPaid
  else .issued

theorem statusOf_terminal {today : Date} {status : BillStatus} {amountPaid totalAmount : ℚ}
    {dueDate : Date} :
    (statusOf today status amountPaid totalAmount dueDate).terminal = status.terminal := by
  unfold statusOf
  split
  · rfl
  · repeat' split
    all_goals simp_all [BillStatus.terminal]

-- `bill` is the object the caller holds, with the amount paid that the caller has given it. The
-- stored lines are read again.
def recomputeBill (today : Date) (bill : Loaded Bill) (amountPaid : ℚ) : Service BillStatus := do
  let sums ← select (fun s : Db => (s.arrearsTotal bill.id, s.lineTotal bill.id)) [.lines bill.id]
  let status := statusOf today bill.row.status amountPaid (kobo sums.2) bill.row.dueDate
  let totalAmount ← store (kobo sums.2)
  let arrearsAmount ← store (kobo sums.1)
  save .bill bill.id fun b => { b with totalAmount, arrearsAmount, status }
  return status

structure IssueRequest where
  council      : ℕ
  payer        : Loaded Payer
  dueDate      : Option Date
  lines        : List LineEntry
  billAllDrafts : Bool
  rollArrears  : Bool
  actor        : ℕ
  force        : Bool

def existingBill (s : Db) (payer : ℕ) (today : Date) : Option ℕ :=
  (s.table .bill).first (fun _ b =>
    b.payer = payer && b.createdAt.year = today.year && !b.status.terminal) |>.map (·.1)

def draftsOf (s : Db) (payer : ℕ) (excluded : List ℕ) : List AssessmentObject :=
  (s.table .assessment).filter (fun k a =>
    a.payer = payer && a.status = .draft && !excluded.contains k)
    |>.map fun a => ⟨a.1, a.2.item, a.2.rateBand, a.2.rateTier, a.2.quantity.toRat, a.2.amount.toRat⟩

def AssessmentObject.key (a : AssessmentObject) : ℕ × Option ℕ × Option ℕ :=
  (a.item, a.rateBand, a.rateTier)

-- Assessments of one item, band and tier become one: the first is kept and the others are folded
-- into it.
def mergeAssessment (acc : List AssessmentObject × List AssessmentObject) (a : AssessmentObject) :
    List AssessmentObject × List AssessmentObject :=
  if acc.1.any (·.key = a.key) then
    (acc.1.map fun kept =>
      if kept.key = a.key then
        { kept with
          quantity := Decimal.round (kept.quantity + a.quantity)
          amount   := Decimal.round (kept.amount + a.amount) }
      else kept,
      acc.2 ++ [a])
  else (acc.1 ++ [a], acc.2)

def saveAssessment (a : AssessmentObject) : Service Unit := do
  let quantity ← store a.quantity
  let amount ← store a.amount
  save .assessment a.id fun r => { r with quantity, amount }

def setAssessmentStatus (status : AssessmentStatus) (a : ℕ) : Service Unit :=
  save .assessment a fun r => { r with status }

-- A line made for a fresh charge, as the process holds it.
structure FreshLine where
  id            : ℕ
  item          : ℕ
  currentAmount : ℚ

def createLine (bill assessment : ℕ) (currentAmount arrearsAmount lineAmount : ℚ) (position : ℕ) :
    Service ℕ := do
  let currentAmount ← store currentAmount
  let arrearsAmount ← store arrearsAmount
  let lineAmount ← store lineAmount
  create .line { bill, assessment, lineAmount, currentAmount, arrearsAmount, position }

-- The lines of the fresh charges, of which the first of each item is found by its item.
def createFreshLine (bill : ℕ) (fresh : List FreshLine) (a : AssessmentObject) :
    Service (List FreshLine) := do
  let line ← createLine bill a.id a.amount 0 a.amount fresh.length
  setAssessmentStatus .billed a.id
  return fresh ++ [⟨line, a.item, a.amount⟩]

def openBills (s : Db) (payer : ℕ) (bill : ℕ) : List ℕ :=
  (s.table .bill).filter (fun k b => b.payer = payer && b.status.isOpen && k ≠ bill) |>.map (·.1)

-- SELECT ... FOR UPDATE of the open bills. A bill that the query has found is looked at again once
-- its lock is granted.
def lockOpenBill (payer : ℕ) (acc : List (Loaded Bill)) (k : ℕ) : Service (List (Loaded Bill)) := do
  let some prior ← forUpdate .bill k | return acc
  return if prior.payer = payer && prior.status.isOpen then acc ++ [⟨k, prior⟩] else acc

-- What the superseded bills still owe on an item, and the assessment that stands for it.
structure Arrears where
  item       : ℕ
  amount     : ℤ
  assessment : ℕ

def addArrears (acc : List Arrears) (item assessment : ℕ) (outstanding : ℤ) : List Arrears :=
  if acc.any (·.item = item) then
    acc.map fun a => if a.item = item then { a with amount := a.amount + outstanding, assessment } else a
  else acc ++ [⟨item, outstanding, assessment⟩]

def rollLine (acc : List Arrears) (line : Loaded BillLine) : Service (List Arrears) := do
  let paid ← query fun s => s.paidAmount line.id
  let outstanding := line.row.lineAmount.units - paid
  if outstanding ≤ 0 then return acc
  let assessment ← load .assessment line.row.assessment []
  return addArrears acc assessment.item line.row.assessment outstanding

def rollBill (today : Date) (bill : ℕ) (acc : List Arrears) (prior : Loaded Bill) :
    Service (List Arrears) := do
  save .bill prior.id fun b => { b with status := .superseded, supersededBy := some bill }
  closeDebtCaseForBill today prior.id
  let lines ← query fun s => s.linesOf prior.id
  lines.foldlM rollLine acc

-- The arrears of an item go on its fresh line, or on a line of their own at the next position.
def placeArrears (bill : ℕ) (fresh : List FreshLine) (position : ℕ) (a : Arrears) : Service ℕ :=
  match fresh.find? (·.item = a.item) with
  | some line => do
    let arrearsAmount ← store (kobo a.amount)
    let lineAmount ← store (Decimal.round (line.currentAmount + kobo a.amount))
    save .line line.id fun l => { l with arrearsAmount, lineAmount }
    return position
  | none => do
    let _ ← createLine bill a.assessment 0 (kobo a.amount) (kobo a.amount) position
    return position + 1

def rollArrears (today : Date) (payer bill : ℕ) (fresh : List FreshLine) : Service ℕ := do
  let found ← query fun s => openBills s payer bill
  let open_ ← found.foldlM (lockOpenBill payer) []
  let arrears ← open_.foldlM (rollBill today bill) []
  let _ ← arrears.foldlM (placeArrears bill fresh) fresh.length
  return open_.length

def pad (width n : ℕ) : String :=
  let digits := toString n
  "".pushn '0' (width - digits.length) ++ digits

def nextBillRef (config : CouncilConfig) (today : Date) (bill : ℕ) : String :=
  s!"{config.billRefPrefix}/{today.year}/{pad 6 bill}"

-- The reference a row is inserted with, until the one made from its primary key replaces it.
def placeholderRef : String :=
  "TMP-"

-- A payer has one live bill a year, unless the caller forces another.
def checkDuplicate (today : Date) (r : IssueRequest) : Service Unit := do
  let some existing ← query fun s => existingBill s r.payer.id today | return ()
  unless r.force do refuse <| .duplicateBill existing

def priceEntry (r : IssueRequest) (acc : List AssessmentObject) (e : LineEntry) :
    Service (List AssessmentObject) := do
  return acc ++ [← createDraftAssessment r.payer.id r.payer.row.council r.actor e]

-- The assessments that the bill charges. Those of one item, band and tier have become one.
def mergedAssessments (r : IssueRequest) : Service (List AssessmentObject) := do
  let priced ← r.lines.foldlM (priceEntry r) []
  let drafts ← query fun s =>
    if r.billAllDrafts then draftsOf s r.payer.id (priced.map (·.id)) else []
  let merged := (priced ++ drafts).foldl mergeAssessment ([], [])
  merged.1.forM saveAssessment
  merged.2.forM fun a => setAssessmentStatus .cancelled a.id
  return merged.1

def dueDateOf (today : Date) (r : IssueRequest) : Service Date := do
  let some dueDate := r.dueDate | return today + (← load .config r.payer.row.council []).billDueDays
  return dueDate

-- The reference made from the primary key, and the totals of the lines that the bill has by now.
def finalizeBill (today : Date) (bill : Loaded Bill) : Service Unit := do
  let config ← load .config bill.row.council []
  let billRef := nextBillRef config today bill.id
  save .bill bill.id fun b => { b with billRef }
  let _ ← recomputeBill today ⟨bill.id, { bill.row with billRef }⟩ 0

-- The bill and how many bills it supersedes.
def writeBill (today : Date) (r : IssueRequest) (assessments : List AssessmentObject)
    (dueDate : Date) : Service (ℕ × ℕ) := do
  let row : Bill := {
    council := r.council, billRef := placeholderRef, payer := r.payer.id, totalAmount := 0
    amountPaid := 0, arrearsAmount := 0, status := .issued, dueDate, supersededBy := none
    issuedBy := r.actor, createdAt := today
  }
  let bill ← create .bill row
  let fresh ← assessments.foldlM (createFreshLine bill) []
  let supersededCount ← (if r.rollArrears then rollArrears today r.payer.id bill fresh else pure 0)
  finalizeBill today ⟨bill, row⟩
  return (bill, supersededCount)

def issueBill (today : Date) (r : IssueRequest) : Service (ℕ × ℕ) := do
  let _ ← getForUpdate .payer r.payer.id
  unless r.rollArrears do checkDuplicate today r
  let assessments ← mergedAssessments r
  if assessments.isEmpty && !r.rollArrears then refuse .emptyBill
  let dueDate ← dueDateOf today r
  writeBill today r assessments dueDate

-- The first line of the bill whose assessment has the given item, band and tier.
def matchingLine (s : Db) (bill item : ℕ) (rateBand rateTier : Option ℕ) : Option (Loaded BillLine) :=
  (s.linesOf bill).find? fun l =>
    ((s.table .assessment).get l.row.assessment).any fun a =>
      a.item = item && a.rateBand = rateBand && a.rateTier = rateTier

def nextPosition (s : Db) (bill : ℕ) : ℕ :=
  match (s.linesOf bill).map (·.row.position) |>.max? with
  | none   => 0
  -- The expression is `(max or -1) + 1`, and a maximum of 0 is false.
  | some 0 => 0
  | some m => m + 1

def addBillLine (today : Date) (bill : Loaded Bill) (actor : ℕ) (e : LineEntry) : Service ℕ := do
  let payer ← load .payer bill.row.payer []
  let assessment ← createDraftAssessment bill.row.payer payer.council actor e
  match ← query fun s => matchingLine s bill.id e.item.id (e.rateBand.map (·.id)) (e.rateTier.map (·.id)) with
  | some line =>
    let existing ← load .assessment line.row.assessment []
    let quantity ← store (Decimal.round (existing.quantity.toRat + assessment.quantity))
    let current := Decimal.round (existing.amount.toRat + assessment.amount)
    let amount ← store current
    save .assessment line.row.assessment fun a => { a with quantity, amount }
    let currentAmount ← store current
    let lineAmount ← store (Decimal.round (current + line.row.arrearsAmount.toRat))
    save .line line.id fun l => { l with currentAmount, lineAmount }
    setAssessmentStatus .cancelled assessment.id
    let _ ← recomputeBill today bill bill.row.amountPaid.toRat
    return line.id
  | none =>
    setAssessmentStatus .billed assessment.id
    let position ← query fun s => nextPosition s bill.id
    let line ← createLine bill.id assessment.id assessment.amount 0 assessment.amount position
    let _ ← recomputeBill today bill bill.row.amountPaid.toRat
    return line

def updateBillLine (today : Date) (line : Loaded BillLine) (lineAmount : ℚ) : Service Unit := do
  if lineAmount ≤ 0 then refuse .lineAmountNotPositive
  if lineAmount < line.row.arrearsAmount.toRat then
    refuse <| .lineAmountBelowArrears lineAmount line.row.arrearsAmount
  let current := Decimal.round (lineAmount - line.row.arrearsAmount.toRat)
  let currentAmount ← store current
  let storedAmount ← store lineAmount
  save .line line.id fun l => { l with currentAmount, lineAmount := storedAmount }
  let _ ← load .assessment line.row.assessment []
  save .assessment line.row.assessment fun a => { a with amount := currentAmount }
  let bill ← load .bill line.row.bill [.bill line.row.bill]
  let _ ← recomputeBill today ⟨line.row.bill, bill⟩ bill.amountPaid.toRat

def hasAllocations (s : Db) (line : ℕ) : Bool :=
  (s.table .allocation).first (fun _ a => a.line = line) |>.isSome

def deleteBillLine (today : Date) (line : Loaded BillLine) : Service Unit := do
  let bill ← load .bill line.row.bill [.bill line.row.bill]
  if ← query fun s => hasAllocations s line.id then refuse .linePaid
  if (← query fun s => (s.linesOf line.row.bill).length) ≤ 1 then refuse .lastLine
  let _ ← load .assessment line.row.assessment []
  setAssessmentStatus .cancelled line.row.assessment
  -- The deletion collects the protected rows that refer to the line first.
  if ← query fun s => hasAllocations s line.id then refuse .protectedError
  delete .line line.id
  let _ ← recomputeBill today ⟨line.row.bill, bill⟩ bill.amountPaid.toRat

-- The views load the bill, and the line, without locking them.

def addLine (today : Date) (pk : ℕ) (actor : ℕ) (e : LineEntry) : Service ℕ := do
  let bill ← getObject .bill pk (fun _ => true) [.bill pk]
  addBillLine today bill actor e

def putLine (today : Date) (pk lineId : ℕ) (lineAmount : ℚ) : Service Unit := do
  let bill ← getObject .bill pk (fun _ => true) []
  let line ← getObject .line lineId (fun l => l.bill = bill.id) []
  updateBillLine today line lineAmount

def deleteLine (today : Date) (pk lineId : ℕ) : Service Unit := do
  let bill ← getObject .bill pk (fun _ => true) []
  let line ← getObject .line lineId (fun l => l.bill = bill.id) []
  if ← query fun s => hasAllocations s line.id then refuse .linePaid
  deleteBillLine today line

end ACRev360
