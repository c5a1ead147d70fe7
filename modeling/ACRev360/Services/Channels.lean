import ACRev360.Services.FieldOps

namespace ACRev360

open Relational

-- `Decimal(str(value))`: a number, or an infinity or NaN.
inductive DecimalValue where
  | finite (q : ℚ)
  | special

-- What the channels take from the libraries and the settings: the conversion to `Decimal`, the cached
-- map from prefixes of bill references to councils, the councils that are active, the check of a
-- signature, and whether it is asked for.
structure Gateway where
  decimal          : Json → Option DecimalValue
  prefixMap        : String → Option ℕ
  activeCouncil    : ℕ → Bool
  verifySignature  : String → String → Option String → Bool
  strictSignatures : Bool

-- The fields that a notification of a channel has. Cash is not notified.
def ChannelCode.requiredFields : ChannelCode → Option (List String)
  | pos        => some ["terminalId", "rrn", "amount", "billRef"]
  | otc        => some ["tellerRef", "branchCode", "amount", "billRef"]
  | ibMb       => some ["sessionId", "amount", "billRef"]
  | ussd       => some ["ussdRef", "msisdn", "amount", "billRef"]
  | firstmonie => some ["agentTxnRef", "agentId", "amount", "billRef"]
  | cash       => none

def ChannelCode.bankRefField : ChannelCode → String
  | pos        => "rrn"
  | otc        => "tellerRef"
  | ibMb       => "sessionId"
  | ussd       => "ussdRef"
  | firstmonie => "agentTxnRef"
  | cash       => ""

-- The code as the path of a webhook has it.
def ChannelCode.ofCode? : String → Option ChannelCode
  | "POS"        => some pos
  | "OTC"        => some otc
  | "IB_MB"      => some ibMb
  | "USSD"       => some ussd
  | "FIRSTMONIE" => some firstmonie
  | "CASH"       => some cash
  | _            => none

-- AdapterError, by its text.
abbrev AdapterError := String

-- What the adapters raise: an AdapterError, or what nobody expects of them.
inductive Raised where
  | adapterError (text : AdapterError)
  | other (e : Error)
deriving DecidableEq

def maxAmount : ℚ :=
  99999999999999 / 100

def parseAmount (gw : Gateway) (value : Json) : Except AdapterError ℚ :=
  match value with
  | .str _ | .int _ | .float _ =>
    match gw.decimal value with
    | none => .error "amount must be a number"
    | some .special => .error "amount must be a positive number"
    | some (.finite amount) =>
      if amount ≤ 0 then .error "amount must be a positive number" else .ok amount
  | _ => .error "amount must be a number"

-- The amount of a payload, which may be in kobo.
def amountOf (gw : Gateway) (payload : List (String × Json)) : Except Raised ℚ :=
  match parseAmount gw (Json.getField payload "amount") with
  | .error e => .error (.adapterError e)
  | .ok amount =>
    if (Json.getField payload "amountInKobo").truthy then
      match Decimal.inContext (amount / 100) with
      | none        => .error (.other .decimalOverflow)
      | some amount => .ok amount
    else .ok amount

-- A string or an integer, as `str` gives it.
def refText : Json → Option String
  | .str s => some s
  | .int z => some <| toString z
  | _      => none

structure Normalised where
  bankTxnRef : String
  amount     : ℚ
  billRef    : String
deriving DecidableEq

def adapterError {α : Type} (text : AdapterError) : Except Raised α :=
  .error (.adapterError text)

def validate (gw : Gateway) (code : String) (payload : Json) : Except Raised Unit := do
  let some channel := ChannelCode.ofCode? code | adapterError s!"Unknown channel code: {code}"
  let some required := channel.requiredFields | adapterError s!"Unknown channel code: {code}"
  let .obj payload := payload | adapterError "Payload must be a JSON object"
  let missing := required.filter fun f => (payload.lookup f).isNone
  if missing ≠ [] then adapterError <| "Missing required field(s): " ++ ", ".intercalate missing
  let .str billRef := Json.getField payload "billRef" | adapterError "billRef must be a non-empty string"
  if billRef.toList.all isSpace then adapterError "billRef must be a non-empty string"
  if (refText (Json.getField payload channel.bankRefField)).isNone then
    adapterError <| channel.bankRefField ++ " must be a string or integer"
  let amount ← amountOf gw payload
  if maxAmount < amount then adapterError "amount is too large"

-- Of a payload that has been validated, so that its references are texts or integers.
def normalise (gw : Gateway) (code : String) (payload : Json) : Except Raised Normalised := do
  let .obj payload := payload | .error (.other .typeError)
  let amount ← amountOf gw payload
  let some channel := ChannelCode.ofCode? code | .error (.other .keyError)
  let some bankTxnRef := refText (Json.getField payload channel.bankRefField) | .error (.other .typeError)
  let .str billRef := Json.getField payload "billRef" | .error (.other .typeError)
  return { bankTxnRef, amount, billRef }

def adapt (gw : Gateway) (code : String) (payload : Json) : Except Raised Normalised := do
  validate gw code payload
  normalise gw code payload

def feedOf (s : Db) (council channel : ℕ) (bankTxnRef : String) : Option ℕ :=
  (s.table .feed).first (fun _ f =>
    f.council = council && f.channel = channel && f.bankTxnRef.val = bankTxnRef) |>.map (·.1)

-- A query by a text, which has no NUL.
def lookupText {α : Type} (text : String) (f : Db → α) : Service α := do
  if Char.ofNat 0 ∈ text.toList then refuse .dataError
  query f

def createFeed (today : Date) (council channel : ℕ) (payload : Json) (bankTxnRef : String) (amount : ℚ) :
    Service ℕ := do
  if payload.hasNul then abort .dataError
  let bankTxnRef ← storeText 64 bankTxnRef
  let amount ← store amount
  create .feed {
    council, channel, bankTxnRef, amount, matchStatus := .unmatched, matchedPayment := none
    receivedAt := today
  }

-- The row-level security of the database confines the query to the council, as the key of
-- `get_or_create` does.
def receiveFeed (today : Date) (council channel : ℕ) (payload : Json) (n : Normalised) :
    Service (ℕ × Bool) := do
  let _ ← lookupText n.bankTxnRef fun _ => ()
  getOrCreate (fun s => feedOf s council channel n.bankTxnRef)
    (createFeed today council channel payload n.bankTxnRef n.amount)

def setMatchStatus (feed : ℕ) (matchStatus : MatchStatus) : Service Unit :=
  save .feed feed fun f => { f with matchStatus }

def matchPayment (feed payment : ℕ) : Service Unit :=
  save .feed feed fun f => { f with matchStatus := .matched, matchedPayment := some payment }

def billByRef (s : Db) (council : ℕ) (billRef : String) : Option (Loaded Bill) :=
  (s.table .bill).first (fun _ b => b.billRef = billRef && b.council = council)
    |>.map fun b => ⟨b.1, b.2⟩

-- What becomes of a notification that has been entered in the feed.
inductive Notified where
  | billNotFound
  | rejected (e : Error)
  | posted (payment : ℕ)

def postNotified (today : Date) (council channel feed : ℕ) (n : Normalised) (postedBy : Option ℕ) :
    Service Notified := do
  match ← lookupText n.billRef fun s => billByRef s council n.billRef with
  | none =>
    setMatchStatus feed .exception
    return .billNotFound
  | some bill =>
    let request : PaymentRequest := {
      council, channel, amount := n.amount, bankTxnRef := n.bankTxnRef, postedBy
      geo := .ok (none, none), terminal := none
    }
    match ← (postPayment today bill request).atomic.attempt with
    | .ok payment =>
      matchPayment feed payment
      return .posted payment
    | .error e =>
      if e.error.isPaymentRejected then
        setMatchStatus feed .exception
        return .rejected e.error
      else .raise e

def resolveCouncilFromBillRef (gw : Gateway) (billRef : String) : Option ℕ := do
  let council ← gw.prefixMap <| String.ofList <| billRef.toList.takeWhile (· ≠ '/')
  if gw.activeCouncil council then some council else none

def webhookScope : String :=
  "payments.webhook.post"

-- The client whose secret has made the signature.
def authenticateWebhookClient (gw : Gateway) (now council channel : ℕ) (rawBody : String)
    (signature : Option String) : Service (Option ℕ) := do
  let client ← query fun s => (s.table .apiClient).first fun _ c =>
    c.council = council && c.channel = channel && c.isActive && c.expiresAt.all (now < ·) &&
      c.scopes.contains webhookScope && gw.verifySignature c.secretEncrypted rawBody signature
  let some (client, _) := client | return none
  let _ : Option APIClient ← @update relational .apiClient client
    (fun c => { c with lastUsedAt := some now }) ⟨fun _ => rfl, fun _ => rfl⟩
  return client

-- `code` is in upper case. Midnight may part the day on which the notification is entered in the feed from
-- the day of its payment.
structure WebhookRequest where
  code      : String
  payload   : Json
  rawBody   : String
  signature : Option String
  received  : Date

inductive WebhookResponse where
  | invalid (error : String)
  | unauthorized (error : String)
  | duplicate (bankTxnRef : String)
  | acceptedUnmatched (bankTxnRef : String)
  | rejected (e : Error)
  | posted (payment : ℕ)

def notify (gw : Gateway) (today : Date) (now : ℕ) (r : WebhookRequest) (council : ℕ) (code : ChannelCode)
    (n : Normalised) : Service WebhookResponse := do
  let channel ← getOrCreateChannel code
  let client ← (if gw.strictSignatures then
      authenticateWebhookClient gw now council channel r.rawBody r.signature
    else pure (some 0))
  if client.isNone then return .unauthorized "Signature verification failed"
  if (← lookupText n.bankTxnRef fun s => feedOf s council channel n.bankTxnRef).isSome then
    return .duplicate n.bankTxnRef
  let (feed, created) ← receiveFeed r.received council channel r.payload n
  if !created then return .duplicate n.bankTxnRef
  match ← postNotified today council channel feed n none with
  | .billNotFound   => return .acceptedUnmatched n.bankTxnRef
  | .rejected e     => return .rejected e
  | .posted payment => return .posted payment

-- WebhookView.post. `now` is the time to the microsecond.
def webhook (gw : Gateway) (today : Date) (now : ℕ) (r : WebhookRequest) : Service WebhookResponse :=
  match adapt gw r.code r.payload, ChannelCode.ofCode? r.code with
  | .ok n, some code =>
    match resolveCouncilFromBillRef gw n.billRef with
    | none => return .invalid "Unrecognised bill reference"
    | some council => (notify gw today now r council code n).atomic
  | .ok _, none => return .invalid s!"Unknown channel code: {r.code}"
  | .error (.adapterError e), _ => return .invalid e
  | .error (.other e), _ => refuse e

inductive OTCException where
  | invalid (row : Json) (error : AdapterError)
  | billNotFound (billRef : String)
  | rejected (billRef : String) (e : Error)

structure OTCResponse where
  posted            : ℕ
  duplicatesSkipped : ℕ
  exceptions        : List OTCException

-- One turn of the loop of OTCSettlementView.post.
def settleRow (gw : Gateway) (today : Date) (council user channel : ℕ) (acc : OTCResponse) (row : Json) :
    Service OTCResponse := do
  match adapt gw "OTC" row with
  | .error (.adapterError e) => return { acc with exceptions := acc.exceptions ++ [.invalid row e] }
  | .error (.other e) => refuse e
  | .ok n =>
    let (feed, created) ← receiveFeed today council channel row n
    if !created then return { acc with duplicatesSkipped := acc.duplicatesSkipped + 1 }
    match ← postNotified today council channel feed n (some user) with
    | .billNotFound =>
      return { acc with exceptions := acc.exceptions ++ [.billNotFound n.billRef] }
    | .rejected e => return { acc with exceptions := acc.exceptions ++ [.rejected n.billRef e] }
    | .posted _   => return { acc with posted := acc.posted + 1 }

def settleRows (gw : Gateway) (today : Date) (council user channel : ℕ) (rows : List Json) :
    Service OTCResponse :=
  rows.foldlM (settleRow gw today council user channel) ⟨0, 0, []⟩

-- OTCSettlementView.post. What is no array is refused.
def otcSettlement (gw : Gateway) (today : Date) (council user : ℕ) (data : Json) :
    Service (Option OTCResponse) := do
  let .arr rows := data | return none
  let channel ← getOrCreateChannel .otc
  return some (← settleRows gw today council user channel rows)

inductive PaymentResponse where
  | posted (payment : ℕ)
  | rejected (e : Error)
  | alreadyRecorded

-- PaymentViewSet.create. The portfolio of the caller narrows the bills further.
def createPaymentFrom (fw : Framework) (today : Date) (council actor : ℕ) (portfolio : ℕ → Bill → Bool)
    (data : PaymentForm) : Service PaymentResponse := do
  let bill ← query fun s => (billInCouncil s data.billId council).filter fun b => portfolio b.id b.row
  let some bill := bill | refuse .notFound
  let channel ← getOrCreateChannel data.channelCode
  let terminal ← query fun s => terminalInCouncil s data.terminalId council
  if data.terminalId.isSome && terminal.isNone then refuse .notFound
  let request : PaymentRequest := {
    council, channel, amount := data.amount, bankTxnRef := data.bankTxnRef, postedBy := actor
    geo := geoOf fw (data.geo.getD []), terminal
  }
  match ← (postPayment today bill request).atomic.attempt with
  | .ok payment => return .posted payment
  | .error e =>
    if e.error.isPaymentRejected then return .rejected e.error
    else if e.error = .integrityError then return .alreadyRecorded
    else .raise e

end ACRev360
