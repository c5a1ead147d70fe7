import ACRev360.Services.Payments
import ACRev360.Services.Registry

namespace ACRev360

open Relational

structure Agent where
  id           : ℕ
  assignedWard : Option ℕ

-- The status, result_ref and detail of a record.
abbrev Outcome := SyncStatus × String × SyncDetail

-- PaymentRejected
def Error.isPaymentRejected : Error → Bool
  | billSuperseded _ | billCancelled | paymentNotConfirmed _ => true
  | _ => false

-- BillingError
def Error.isBillingError : Error → Bool
  | quantityNotPositive | bandRequired _ | amountRequired _ | amountOutOfRange .. | tierRequired _
  | noActiveRate _ | emptyBill | lineAmountNotPositive | lineAmountBelowArrears .. | linePaid
  | lastLine => true
  | _ => false

def channelByCode (s : Db) (code : ChannelCode) : Option ℕ :=
  (s.table .channel).first (fun _ c => c.code = code) |>.map (·.1)

-- PaymentChannel.objects.get_or_create(code=code)
def getOrCreateChannel (code : ChannelCode) : Service ℕ := do
  if let some channel ← query fun s => channelByCode s code then return channel
  match ← (create .channel { code } : Service ℕ).atomic.attempt with
  | .ok channel => return channel
  | .error e =>
    if e.error ≠ .integrityError then .raise e
    match ← query fun s => channelByCode s code with
    | some channel => return channel
    | none => .raise e

def geoOf (fw : Framework) (geo : List (String × Json)) :
    Except Error (Option Coordinate × Option Coordinate) :=
  match fw.coordinate (Json.getField geo "lat"), fw.coordinate (Json.getField geo "lng") with
  | some lat, some lng => .ok (lat, lng)
  | _, _ => .error .validationError

def billInCouncil (s : Db) (bill : ℤ) (council : ℕ) : Option (Loaded Bill) :=
  if bill < 0 then none
  else ((s.table .bill).get bill.toNat).filter (·.council = council) |>.map (⟨bill.toNat, ·⟩)

def terminalInCouncil (s : Db) (terminal : Option ℤ) (council : ℕ) : Option ℕ := do
  let k ← terminal
  if k < 0 then none
  else ((s.table .terminal).get k.toNat).filter (·.council = council) |>.map fun _ => k.toNat

def replayPayment (fw : Framework) (today : Date) (council : ℕ) (agent : Agent) (actor : ℕ)
    (payload : Json) : Service Outcome := do
  let some data := fw.postPayment payload | return (.rejected, "", .invalid)
  let some bill ← query fun s => billInCouncil s data.billId council
    | return (.rejected, "", .billNotFound data.billId.toNat)
  let payer ← load .payer bill.row.payer []
  if agent.assignedWard ≠ some payer.ward then return (.rejected, "", .notInWard)
  let channel ← getOrCreateChannel data.channelCode
  let terminal ← query fun s => terminalInCouncil s data.terminalId council
  let request : PaymentRequest := {
    council, channel, amount := data.amount, bankTxnRef := data.bankTxnRef, postedBy := actor
    geo := geoOf fw (data.geo.getD []), terminal
  }
  match ← (postPayment today bill request).atomic.attempt with
  | .ok payment => return (.accepted, s!"PAY-{pad 8 payment}", .empty)
  | .error e =>
    if e.error.isPaymentRejected then return (.rejected, "", .error e.error) else .raise e

def itemsInCouncil (s : Db) (ids : List ℤ) (council : ℕ) : List (Loaded RevenueItem) :=
  (s.table .item).filter (fun k i => ids.contains (k : ℤ) && i.council = council)
    |>.map fun i => ⟨i.1, i.2⟩

def createAsset (fw : Framework) (council payer ward : ℕ) (lat lng : Json) : Service Unit := do
  match fw.coordinate lat, fw.coordinate lng with
  | some (some geoLat), some (some geoLng) =>
    let _ ← create .asset { council, payer, ward, geoLat, geoLng }
  | _, _ => abort .validationError

def replayPayer (fw : Framework) (council : ℕ) (agent : Agent) (actor : ℕ) (payload : Json) :
    Service Outcome := do
  let .obj members := payload | refuse .attributeError
  let geo := if (Json.getField members "geo").truthy then Json.getField members "geo" else .obj []
  let body := members.filter (·.1 ≠ "geo")
  if !agent.assignedWard.any (Json.getField body "ward").strEq then
    return (.rejected, "", .wardMismatch)
  let some data := fw.createPayer body | return (.rejected, "", .invalid)
  let items ← query fun s => itemsInCouncil s data.revenueItemIds council
  let registration := createPayer council actor items false none data.toPayerFields
    data.hasAssignedConsultantId
  match ← registration.atomic.attempt with
  | .error e =>
    match e.error with
    | .duplicatePayer duplicateOf => return (.conflict, "", .error (.duplicatePayer duplicateOf))
    | err => if err.isBillingError then return (.rejected, "", .error err) else .raise e
  | .ok (payer, _) =>
    -- `geo` has not been validated. What is no object has no `get`.
    let .obj geo := geo | refuse .attributeError
    let lat := Json.getField geo "lat"
    let lng := Json.getField geo "lng"
    unless lat.isNull || lng.isNull do createAsset fw council payer data.ward lat lng
    return (.accepted, payerRef data.payerType payer, .empty)

def syncRecordOf (s : Db) (council : ℕ) (clientId : String) : Option MobileSyncRecord :=
  (s.table .syncRecord).first (fun _ r => r.council = council && r.clientId = clientId) |>.map (·.2)

structure SyncRequest where
  council    : ℕ
  agent      : Agent
  actor      : ℕ
  clientId   : String
  recordType : RecordType
  payload    : Json

def replay (fw : Framework) (today : Date) (r : SyncRequest) : Service Outcome :=
  match r.recordType with
  | .payment => replayPayment fw today r.council r.agent r.actor r.payload
  | .payer   => replayPayer fw r.council r.agent r.actor r.payload

def createSyncRecord (record : MobileSyncRecord) : Service ℕ := do
  if 64 < record.clientId.length then abort .dataError
  create .syncRecord record

-- The record that the call leaves for its client_id. Its status is the bucket.
def replaySyncRecord (fw : Framework) (today : Date) (r : SyncRequest) : Service MobileSyncRecord := do
  if let some existing ← query fun s => syncRecordOf s r.council r.clientId then return existing
  let (status, resultRef, detail) ← match ← (replay fw today r).attempt with
    | .ok outcome => pure outcome
    | .error e =>
      -- The handler of the exception runs in the same transaction.
      if e.aborted then abort .transactionManagementError
      pure (.rejected, "", .unprocessable e.error)
  let record : MobileSyncRecord := {
    council := r.council, clientId := r.clientId, recordType := r.recordType, agent := r.agent.id
    status, resultRef, detail
  }
  match ← (createSyncRecord record).atomic.attempt with
  | .ok _ => return record
  | .error e =>
    if e.error ≠ .integrityError then .raise e
    match ← query fun s => syncRecordOf s r.council r.clientId with
    | some existing => return existing
    | none => refuse .doesNotExist

-- SyncView.post
def sync (fw : Framework) (today : Date) (records : List SyncRequest) : Service (List MobileSyncRecord) :=
  records.foldlM (fun acc r => do return acc ++ [← (replaySyncRecord fw today r).atomic]) []

end ACRev360
