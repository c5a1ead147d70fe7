import ACRev360.Objects.Queries

namespace ACRev360

open Relational

def closeDebtCaseForBill (today : Date) (bill : ℕ) : Service Unit := do
  let some case ← query fun s => s.debtCaseOf bill | return ()
  if case.row.enforcementStage ≠ .closed then
    save .debtCase case.id fun c => { c with enforcementStage := .closed, closedAt := some today }

def bucketFor (daysOverdue : ℕ) : AgeingBucket :=
  if daysOverdue ≤ 30 then .upTo30
  else if daysOverdue ≤ 60 then .upTo60
  else if daysOverdue ≤ 90 then .upTo90
  else .over90

def overdueBills (s : Db) (council : ℕ) (today : Date) : List (Loaded Bill) :=
  (s.table .bill).filter (fun _ b => b.council = council && b.status.isOpen && b.dueDate < today)
    |>.map fun b => ⟨b.1, b.2⟩

-- One turn of the loop of `refreshDebt`. The bill is the row that its query has read.
def ageBill (council : ℕ) (today : Date) (n : ℕ × ℕ) (bill : Loaded Bill) : Service (ℕ × ℕ) := do
  if bill.row.status ≠ .overdue then
    save .bill bill.id fun b => { b with status := .overdue }
  let bucket := bucketFor (today - bill.row.dueDate)
  match ← query fun s => s.debtCaseOf bill.id with
  | none =>
    let _ ← create .debtCase {
      council, bill := bill.id, ageingBucket := bucket, enforcementStage := .firstNotice
      reminderCount := 0, closedAt := none
    }
    return (n.1 + 1, n.2)
  | some case =>
    if case.row.ageingBucket ≠ bucket && case.row.enforcementStage ≠ .closed then
      save .debtCase case.id fun c => { c with ageingBucket := bucket }
      return (n.1, n.2 + 1)
    else return n

def refreshDebt (council : ℕ) (today : Date) : Service (ℕ × ℕ) := do
  let bills ← query fun s => overdueBills s council today
  bills.foldlM (ageBill council today) (0, 0)

-- DebtCase.ENFORCEMENT_LADDER
def enforcementLadder : List EnforcementStage :=
  [.none, .firstNotice, .finalNotice, .enforcement, .legal, .closed]

-- `debtCase` is the caller's object.
def escalate (today : Date) (debtCase : Loaded DebtCase) : Service Unit := do
  let idx := enforcementLadder.idxOf debtCase.row.enforcementStage
  if enforcementLadder.length - 1 ≤ idx then refuse .finalStage
  let stage := enforcementLadder.getD (idx + 1) .closed
  save .debtCase debtCase.id fun c => { c with
    enforcementStage := stage
    reminderCount    := debtCase.row.reminderCount + 1
    closedAt         := if stage = .closed then some today else debtCase.row.closedAt }

-- The view of an administrator, who sees all cases of the council.
def escalateView (today : Date) (council pk : ℕ) : Service Unit := do
  let debtCase ← getObject .debtCase pk (fun c => c.council = council) []
  escalate today debtCase

end ACRev360
