import ACRev360.Services.FieldOps
import ACRev360.Services.Requests

namespace ACRev360

open Relational

def hasDraftAssessments (s : Db) (item : ℕ) : Bool :=
  (s.table .assessment).first (fun _ a => a.item = item && a.status = .draft) |>.isSome

-- A line of a bill that is still to be paid cites the item.
def hasOutstandingBill (s : Db) (item : ℕ) : Bool :=
  (s.table .line).first (fun _ l => ((s.table .assessment).get l.assessment).any (·.item = item) &&
    ((s.table .bill).get l.bill).any (·.status.isOpen)) |>.isSome

-- `item` is the caller's object.
def retireRevenueItem (item : Loaded RevenueItem) : Service Unit := do
  if !item.row.isActive then return ()
  if ← query fun s => hasDraftAssessments s item.id then refuse <| .itemHasDrafts item.row.harmonisedCode
  if ← query fun s => hasOutstandingBill s item.id then refuse <| .itemOutstanding item.row.harmonisedCode
  close .item item.id (fun i => { i with isActive := false }) ⟨fun _ => List.nil_subset _, fun _ => rfl⟩

-- CouncilRevenueItemViewSet.retire
def retire (council pk : ℕ) : Service Unit := do
  let item ← getObject .item pk (fun i => i.council = council && i.isActive) []
  retireRevenueItem item

-- PayerViewSet.create, once it knows whom the payer is registered for.
def registerPayer (council actor : ℕ) (revenueItemIds : List ℤ) (force : Bool)
    (enumeratedBy : Option ℕ) (fields : PayerFields) : Service (ℕ × ℕ) := do
  let items ← query fun s => itemsInCouncil s revenueItemIds council
  createPayer council actor items force enumeratedBy fields false

-- The validated data of AddLineSerializer, and of the lines of IssueBillSerializer.
structure EntryForm where
  revenueItemId  : ℕ
  quantity       : ℚ
  rateBandId     : Option ℕ
  rateTierId     : Option ℕ
  amountOverride : Option ℚ

-- The active item, the band and the tier that an entry names. What is not found is answered with 404.
def entryOf (s : Db) (council : ℕ) (d : EntryForm) : Option LineEntry := do
  let item ← ((s.table .item).get d.revenueItemId).filter fun i => i.council = council && i.isActive
  let rateBand ← (match d.rateBandId with
    | none   => some none
    | some k => ((s.table .rateBand).get k).filter (·.item = d.revenueItemId) |>.map (some ⟨k, ·⟩))
  let rateTier ← (match d.rateTierId with
    | none   => some none
    | some k => ((s.table .rateTier).get k).filter (fun tier =>
        ((s.table .rateBand).get tier.band).any (·.item = d.revenueItemId)) |>.map (some ⟨k, ·⟩))
  return ⟨⟨d.revenueItemId, item⟩, d.quantity, rateBand, rateTier, d.amountOverride⟩

def resolveEntry (council : ℕ) (d : EntryForm) : Service LineEntry := do
  let some e ← query fun s => entryOf s council d | refuse .notFound
  return e

-- The validated data of IssueBillSerializer, and who sends it.
structure IssueForm where
  council       : ℕ
  payerId       : ℕ
  dueDate       : Option Date
  lines         : List EntryForm
  billAllDrafts : Bool
  rollArrears   : Bool
  actor         : ℕ
  force         : Bool

-- BillViewSet.create
def issueBillView (today : Date) (f : IssueForm) : Service (ℕ × ℕ) := do
  let payer ← getObject .payer f.payerId (fun p => p.council = f.council) []
  let lines ← f.lines.foldlM (fun acc d => do return acc ++ [← resolveEntry f.council d]) []
  issueBill today {
    council := f.council, payer, dueDate := f.dueDate, lines, billAllDrafts := f.billAllDrafts
    rollArrears := f.rollArrears, actor := f.actor, force := f.force
  }

-- BillViewSet.add_line
def addLineView (today : Date) (council pk actor : ℕ) (d : EntryForm) : Service ℕ := do
  let bill ← getObject .bill pk (fun b => b.council = council) [.bill pk]
  let e ← resolveEntry council d
  addBillLine today bill actor e

-- The requests that retire items and that bill them.
inductive ItemRequest where
  | retire (council pk : ℕ)
  | register (council actor : ℕ) (revenueItemIds : List ℤ) (force : Bool) (enumeratedBy : Option ℕ)
      (fields : PayerFields)
  | replayPayer (fw : Framework) (council : ℕ) (agent : Agent) (actor : ℕ) (clientId : String)
      (payload : Json)
  | issue (f : IssueForm)
  | addLine (council pk actor : ℕ) (d : EntryForm)
  | postPayment (pk : ℕ) (r : PaymentRequest)
  | reverse (pk : ℕ)

def ItemRequest.serve (today : Date) : ItemRequest → Service Unit
  | retire council pk => ACRev360.retire council pk
  | register council actor ids force enumeratedBy fields => do
    let _ ← registerPayer council actor ids force enumeratedBy fields
  | replayPayer fw council agent actor clientId payload => do
    let _ ← replaySyncRecord fw today { council, agent, actor, clientId, recordType := .payer, payload }
  | issue f                     => do let _ ← issueBillView today f
  | addLine council pk actor d  => do let _ ← addLineView today council pk actor d
  | postPayment pk r            => do let _ ← createPaymentView today pk r
  | reverse pk                  => ACRev360.reverse today pk

end ACRev360
