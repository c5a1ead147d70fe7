import ACRev360.Library.Numeric

namespace ACRev360

abbrev Money := Numeric 14 2

-- An amount of less than a thousand naira.
def Money.naira (n : ℕ) : Money :=
  ⟨100 * (n % 1000 : ℕ), by omega⟩
abbrev Quantity := Numeric 10 2
abbrev Coordinate := Numeric 9 6
abbrev Percentage := Numeric 5 2

-- A local date, as its proleptic Gregorian ordinal: day 1 is the 1st of January of year 1.
abbrev Date := ℕ

def Date.year (d : Date) : ℕ :=
  let n    := d - 1
  let n400 := n / 146097
  let n100 := n % 146097 / 36524
  let n4   := n % 146097 % 36524 / 1461
  let n1   := n % 146097 % 36524 % 1461 / 365
  let year := 400 * n400 + 100 * n100 + 4 * n4 + n1
  if n1 = 4 ∨ n100 = 4 then year else year + 1

example : Date.year 736329 = 2016 ∧ Date.year 736330 = 2017 ∧ Date.year 730120 = 2000 := by decide

-- The characters that `str.strip` takes off.
def isSpace (c : Char) : Bool :=
  c.val ∈ [0x20, 0x85, 0xa0, 0x1680, 0x2028, 0x2029, 0x202f, 0x205f, 0x3000] ||
    (0x09 ≤ c.val && c.val ≤ 0x0d) || (0x1c ≤ c.val && c.val ≤ 0x1f) || (0x2000 ≤ c.val && c.val ≤ 0x200a)

def strip (s : String) : String :=
  String.ofList <| ((s.toList.dropWhile isSpace).reverse.dropWhile isSpace).reverse

-- What a column of at most `width` characters holds after a text is written to it, which has no NUL.
-- Of what is in excess only spaces are cut off.
def fitText (width : ℕ) (s : String) : Option String :=
  if Char.ofNat 0 ∈ s.toList then none
  else if (s.toList.drop width).all (· = ' ') then some <| String.ofList <| s.toList.take width
  else none

theorem fitText_idem {width : ℕ} {s t : String} (h : fitText width s = some t) :
    fitText width t = some t := by
  unfold fitText at h
  split at h
  · contradiction
  · split at h
    case isFalse => contradiction
    case isTrue hn _ =>
      obtain rfl := Option.some.inj h
      have : Char.ofNat 0 ∉ s.toList.take width := fun hm => hn <| List.mem_of_mem_take hm
      simp [fitText, this, List.drop_eq_nil_of_le, List.take_take]

-- A column of type VARCHAR(width).
abbrev VarChar (width : ℕ) := { s : String // fitText width s = some s }

structure CouncilConfig where
  billRefPrefix : String
  billDueDays   : ℕ
deriving DecidableEq

inductive AccessLevel where
  | councilAdmin | consultant | agent | globalView | revenueOfficer | superAdmin | platformAdmin
  | devopsAdmin | bdView | complianceView | financeAdmin | supportAdmin | analyticsView
  | externalAuditor | councilIgrHead | councilTreasury | councilAuditor | councilIt
  | consultantStaff | agentSupervisor | ratepayer | ratepayerProxy
deriving DecidableEq

instance : LawfulBEq (Option AccessLevel) :=
  inferInstance

structure AppRole where
  name        : String
  accessLevel : AccessLevel
deriving DecidableEq

structure AppUser where
  username   : String
  fullName   : String
  email      : String
  password   : String
  council    : Option ℕ
  role       : Option ℕ
  consultant : Option ℕ
deriving DecidableEq

inductive ConsultantStatus where
  | pending | active | suspended | exited
deriving DecidableEq

structure SubConsultant where
  council           : ℕ
  commissionRate    : Percentage
  status            : ConsultantStatus
  registrationPayer : Option ℕ
deriving DecidableEq

inductive PayerType where
  | individual | business | government | ngo
deriving DecidableEq

inductive BusinessSize where
  | micro | small | medium | large
deriving DecidableEq

-- The columns of a payer that registration takes from the request.
structure PayerFields where
  payerType      : PayerType
  firstName      : String
  middleName     : String
  lastName       : String
  phone          : String
  email          : String
  address        : String
  ward           : ℕ
  ninBvnHash     : String
  tin            : String
  businessSize   : Option BusinessSize
  lineOfBusiness : String
deriving DecidableEq

structure Payer extends PayerFields where
  council       : ℕ
  payerRef      : String
  enumeratedBy  : ℕ
  assignedAgent : Option ℕ
  creditBalance : Money
  user          : Option ℕ
deriving DecidableEq

structure FieldAgent where
  council      : ℕ
  user         : ℕ
  assignedWard : Option ℕ
deriving DecidableEq

structure RevenueItem where
  council        : ℕ
  harmonisedCode : String
  isActive       : Bool
deriving DecidableEq

-- Every serializer of a rate has min_value=0.
abbrev Rate := { m : Money // 0 ≤ m.units }

structure RateSchedule where
  item          : ℕ
  rateAmount    : Rate
  effectiveFrom : Date
  effectiveTo   : Option Date
deriving DecidableEq

-- The amounts a band has are those of its rate mode (rate_band_amount_fields_match_mode).
inductive RateMode where
  | flat (flatAmount : Rate)
  | range (minAmount maxAmount : Rate)
  | tiered
deriving DecidableEq

structure RateBand where
  item          : ℕ
  label         : String
  sortOrder     : ℕ
  rateMode      : RateMode
  effectiveFrom : Date
  effectiveTo   : Option Date
deriving DecidableEq

structure RateTier where
  band      : ℕ
  label     : String
  amount    : Rate
  sortOrder : ℕ
deriving DecidableEq

-- The items that a consultant may handle, in a ward or in all of them.
structure ConsultantPortfolio where
  council     : ℕ
  consultant  : ℕ
  item        : ℕ
  ward        : Option ℕ
  effectiveTo : Option Date
deriving DecidableEq

-- The items that an agent may handle, of those of the agent's consultant.
structure AgentPortfolio where
  council     : ℕ
  agent       : ℕ
  item        : ℕ
  ward        : Option ℕ
  effectiveTo : Option Date
deriving DecidableEq

inductive AssessmentStatus where
  | draft | approved | billed | cancelled
deriving DecidableEq

structure Assessment where
  council      : ℕ
  payer        : ℕ
  item         : ℕ
  rateSchedule : Option ℕ
  rateBand     : Option ℕ
  rateTier     : Option ℕ
  quantity     : Quantity
  amount       : Money
  status       : AssessmentStatus
  createdBy    : ℕ
deriving DecidableEq

inductive BillStatus where
  | issued | partPaid | paid | overdue | cancelled | superseded
deriving DecidableEq

-- Bill.TERMINAL_STATUSES
def BillStatus.terminal : BillStatus → Bool
  | cancelled | superseded => true
  | _ => false

-- The statuses of the bills that consolidation and debt ageing pick up.
def BillStatus.isOpen : BillStatus → Bool
  | issued | partPaid | overdue => true
  | _ => false

theorem BillStatus.not_terminal_of_isOpen {st : BillStatus} (h : st.isOpen) : st.terminal = false := by
  cases st <;> simp_all [isOpen, terminal]

structure Bill where
  council       : ℕ
  billRef       : String
  payer         : ℕ
  totalAmount   : Money
  amountPaid    : Money
  arrearsAmount : Money
  status        : BillStatus
  dueDate       : Date
  supersededBy  : Option ℕ
  issuedBy      : ℕ
  createdAt     : Date
deriving DecidableEq

structure BillLine where
  bill          : ℕ
  assessment    : ℕ
  lineAmount    : Money
  currentAmount : Money
  arrearsAmount : Money
  position      : ℕ
deriving DecidableEq

inductive ChannelCode where
  | pos | otc | ibMb | ussd | firstmonie | cash
deriving DecidableEq

structure PaymentChannel where
  code : ChannelCode
deriving DecidableEq

structure APIClient where
  council         : ℕ
  channel         : ℕ
  secretEncrypted : String
  isActive        : Bool
  expiresAt       : Option ℕ
  scopes          : List String
  lastUsedAt      : Option ℕ
deriving DecidableEq

structure POSTerminal where
  council : ℕ
deriving DecidableEq

inductive TxnStatus where
  | pending | confirmed | failed | reversed
deriving DecidableEq

structure Payment where
  council    : ℕ
  paymentRef : String
  bill       : ℕ
  channel    : ℕ
  terminal   : Option ℕ
  amount     : Money
  bankTxnRef : String
  txnStatus  : TxnStatus
  postedBy   : Option ℕ
  geoLat     : Option Coordinate
  geoLng     : Option Coordinate
  createdAt  : Date
deriving DecidableEq

structure PaymentAllocation where
  payment : ℕ
  line    : ℕ
  amount  : Money
deriving DecidableEq

structure Receipt where
  council    : ℕ
  receiptRef : String
  payment    : ℕ
deriving DecidableEq

inductive MatchStatus where
  | unmatched | matched | exception
deriving DecidableEq

-- What a bank has notified, before it is matched to a payment.
structure ChannelTransactionFeed where
  council        : ℕ
  channel        : ℕ
  bankTxnRef     : VarChar 64
  amount         : Money
  matchStatus    : MatchStatus
  matchedPayment : Option ℕ
  receivedAt     : Date
deriving DecidableEq

inductive ReconciliationStatus where
  | opened | balanced | exceptions | closed
deriving DecidableEq

structure ReconciliationRun where
  council       : ℕ
  channel       : ℕ
  runDate       : Date
  totalPlatform : Money
  totalBank     : Money
  status        : ReconciliationStatus
  runBy         : ℕ
deriving DecidableEq

structure ReconciliationException where
  council : ℕ
  run     : ℕ
  feedRow : Option ℕ
  payment : Option ℕ
  note    : String
deriving DecidableEq

inductive SettlementStatus where
  | computed | approved | settled | disputed
deriving DecidableEq

structure CommissionSettlement where
  council          : ℕ
  consultant       : ℕ
  periodStart      : Date
  periodEnd        : Date
  grossCollections : Money
  commissionRate   : Percentage
  commissionAmount : Money
  status           : SettlementStatus
  computedBy       : ℕ
deriving DecidableEq

inductive AgeingBucket where
  | upTo30 | upTo60 | upTo90 | over90
deriving DecidableEq

inductive EnforcementStage where
  | none | firstNotice | finalNotice | enforcement | legal | closed
deriving DecidableEq

structure DebtCase where
  council          : ℕ
  bill             : ℕ
  ageingBucket     : AgeingBucket
  enforcementStage : EnforcementStage
  reminderCount    : ℕ
  closedAt         : Option Date
deriving DecidableEq

structure EnumeratedAsset where
  council : ℕ
  payer   : ℕ
  ward    : ℕ
  geoLat  : Coordinate
  geoLng  : Coordinate
deriving DecidableEq

-- What the services raise. The billing errors name the check that failed.
-- What is wrong with a set of bands, and the label of the band.
inductive BandingError where
  | labelsNotUnique
  | rateMode (label : String)
  | flatAmountMissing (label : String)
  | flatAmountOnly (label : String)
  | boundsMissing (label : String)
  | minAboveMax (label : String)
  | boundsOnly (label : String)
  | tooFewTiers (label : String)
  | tierLabelsNotUnique (label : String)
  | tierAmountMissing (label : String)
  | tiersOnly (label : String)
deriving DecidableEq

inductive Error where
  | quantityNotPositive
  | bandRequired (harmonisedCode : String)
  | amountRequired (label : String)
  | amountOutOfRange (label : String) (minAmount maxAmount : Money)
  | tierRequired (label : String)
  | noActiveRate (harmonisedCode : String)
  | emptyBill
  | lineAmountNotPositive
  | lineAmountBelowArrears (lineAmount : ℚ) (arrearsAmount : Money)
  | linePaid
  | lastLine
  | duplicateBill (existing : ℕ)
  | billSuperseded (supersededBy : Option ℕ)
  | billCancelled
  | paymentNotConfirmed (txnStatus : TxnStatus)
  | duplicatePayer (duplicateOf : ℕ)
  | statusTransition (old new : SettlementStatus)
  | registrationUnpaid
  | finalStage
  | itemHasDrafts (harmonisedCode : String)
  | itemOutstanding (harmonisedCode : String)
  | billHasPayments (billRef : String)
  | banding (e : BandingError)
  | noFeed (channel : ChannelCode)
  -- Django's and the database's own
  | notFound
  | permissionDenied
  | doesNotExist
  | overflowError
  | invalidOperation
  | decimalOverflow
  | protectedError
  | attributeError
  | typeError
  | keyError
  | validationError
  | dataError
  | databaseError
  | integrityError
  | transactionManagementError
deriving DecidableEq

inductive RecordType where
  | payment | payer
deriving DecidableEq

inductive SyncStatus where
  | accepted | conflict | rejected
deriving DecidableEq

-- The detail of a replayed record: why it was not accepted.
inductive SyncDetail where
  | empty
  | invalid
  | billNotFound (bill : ℕ)
  | notInWard
  | wardMismatch
  | error (e : Error)
  | unprocessable (e : Error)
deriving DecidableEq

structure MobileSyncRecord where
  council    : ℕ
  clientId   : String
  recordType : RecordType
  agent      : ℕ
  status     : SyncStatus
  resultRef  : String
  detail     : SyncDetail
deriving DecidableEq

end ACRev360
