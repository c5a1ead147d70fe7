import ACRev360.Library.Forest
import ACRev360.Services.Requests

namespace ACRev360

open Relational

def hasPayments (s : Db) (bill : ℕ) : Bool :=
  (s.table .payment).first (fun _ p => p.bill = bill) |>.isSome

-- Bill.supersedes
def supersedes (s : Db) (bill : ℕ) : List ℕ :=
  (s.table .bill).filter (fun _ b => b.supersededBy = some bill) |>.map (·.1)

-- Bill.all_arrears_lines: the lines of the bill, and then those of each bill that it supersedes. Out of
-- fuel, the recursion has not returned.
def allArrearsLines (s : Db) : ℕ → ℕ → Option (List (Loaded BillLine)) :=
  Forest.collect (supersedes s) s.linesOf

def unsetSuccessor (prior : ℕ) : Service Unit := do
  let _ : Option Bill ← @update relational .bill prior (fun b => { b with supersededBy := none })
    ⟨fun _ => rfl, fun _ => rfl⟩

theorem line_keys (l : BillLine) : relational.keys Name.line l = [] :=
  rfl

-- The deletion of a bill collects the protected rows that refer to it and to its lines first. The lines
-- and the debt case go with the bill, and the bills that it supersedes lose their successor.
def deleteBill (bill : ℕ) : Service Unit := do
  let lines ← query fun s => (s.linesOf bill).map (·.id)
  if ← query fun s => hasPayments s bill || lines.any (hasAllocations s) then refuse .protectedError
  let found ← query fun s => (supersedes s bill, s.debtCaseOf bill)
  found.1.forM unsetSuccessor
  lines.forM fun line => delete .line line line_keys
  if let some case := found.2 then remove .debtCase case.id
  delete .bill bill

-- Assessment.objects.filter(id__in=assessmentIds).delete()
def deleteAssessments (assessmentIds : List ℕ) : Service Unit := do
  if ← query fun s => (s.table .line).first (fun _ l => assessmentIds.contains l.assessment) |>.isSome then
    refuse .protectedError
  assessmentIds.forM fun a => delete .assessment a

-- BillViewSet.destroy
def destroy (council pk : ℕ) : Service Unit := do
  let bill ← getObject .bill pk (fun b => b.council = council) []
  if ← query fun s => hasPayments s bill.id then refuse <| .billHasPayments bill.row.billRef
  let assessmentIds ← query fun s => (s.linesOf bill.id).map (·.row.assessment)
  deleteBill bill.id
  deleteAssessments assessmentIds

-- The requests that work on bills, and those that delete them.
inductive BillRequest where
  | billing (r : Request)
  | destroy (council pk : ℕ)

def BillRequest.serve (today : Date) : BillRequest → Service Unit
  | billing r          => r.serve today
  | destroy council pk => ACRev360.destroy council pk

end ACRev360
