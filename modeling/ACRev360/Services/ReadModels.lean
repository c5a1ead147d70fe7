import ACRev360.Library.Memo
import ACRev360.Services.Scoping

namespace ACRev360

-- The models whose rows the dashboards and the catalogue are computed from.
inductive Model where
  | bill | billLine | assessment | payment | paymentChannel | payer | appUser | fieldAgent | subConsultant
  | commissionSettlement | wardZone | councilRevenueItem | revenueCategory | department | rateSchedule
  | rateBand | rateTier | consultantPortfolio | agentPortfolio
deriving DecidableEq

inductive AgentStatus where
  | active | suspended | exited
deriving DecidableEq

-- The rows with the columns that only the read models use.
structure AgentProfile extends FieldAgent where
  status : AgentStatus
deriving DecidableEq

structure NamedConsultant extends SubConsultant where
  consultantName : String
deriving DecidableEq

structure CatalogueItem extends RevenueItem where
  template     : Option ℕ
  itemName     : String
  category     : ℕ
  unitOfCharge : String
  department   : Option ℕ
deriving DecidableEq

abbrev Model.Content : Model → Type
  | bill                 => Table Bill
  | billLine             => Table BillLine
  | assessment           => Table Assessment
  | payment              => Table Payment
  | paymentChannel       => Table PaymentChannel
  | payer                => Table Payer
  | appUser              => Table AppUser
  | fieldAgent           => Table AgentProfile
  | subConsultant        => Table NamedConsultant
  | commissionSettlement => Table CommissionSettlement
  | wardZone             => Table String
  | councilRevenueItem   => Table CatalogueItem
  | revenueCategory      => Table String
  | department           => Table String
  | rateSchedule         => Table RateSchedule
  | rateBand             => Table RateBand
  | rateTier             => Table RateTier
  | consultantPortfolio  => Table ConsultantPortfolio
  | agentPortfolio       => Table AgentPortfolio

-- The rows that a session sees that is set to one council.
abbrev Rows :=
  ∀ m : Model, m.Content

-- _DASHBOARD_MODELS and _CATALOGUE_MODELS
def dashboardModels : List Model :=
  [.bill, .assessment, .payment, .payer, .fieldAgent, .commissionSettlement]

def catalogueModels : List Model :=
  [.councilRevenueItem, .rateSchedule, .rateBand, .rateTier, .consultantPortfolio, .agentPortfolio, .department]

-- GROUP BY with a sum, in the order of what is first found.
def groupSums {α β : Type} [DecidableEq α] [AddCommMonoid β] (l : List (α × β)) : List (α × β) :=
  (l.map (·.1)).dedup.map fun a => (a, (l.filter (·.1 = a)).map (·.2) |>.sum)

def byAmount {α : Type} (l : List (α × ℤ)) : List (α × ℤ) :=
  l.insertionSort fun x y => y.2 ≤ x.2

-- The one that a dict built from the list has for the key.
def lastOf {α β : Type} [DecidableEq α] (l : List (α × β)) (a : α) : Option β :=
  (l.filter (·.1 = a)).getLast?.map (·.2)

-- What `portfolio_filter` and the count of agents branch on.
inductive Viewer where
  | agent (user : ℕ) (consultant : Option ℕ)
  | agentSupervisor (user : ℕ) (consultant : Option ℕ)
  | other (level : Option AccessLevel) (consultant : Option ℕ)
deriving DecidableEq

inductive CatalogueScope where
  | consultant (consultant : Option ℕ)
  | agent (user : ℕ) (consultant : Option ℕ)
  | all
deriving DecidableEq

structure SummaryPayload where
  billed        : ℤ
  collected     : ℤ
  outstanding   : ℤ
  billsByStatus : List (BillStatus × ℕ)
  bills         : ℕ
  assessments   : ℕ
  payers        : ℕ
  activeAgents  : ℕ
  byChannel     : List (ChannelCode × ℤ)
  byItem        : List (String × ℤ)
  trend         : List (Date × ℤ)
deriving DecidableEq

structure ConsultantRow where
  consultantName    : String
  collected         : ℤ
  billed            : ℤ
  collectionRate    : Option ℤ
  commissionAccrued : ℤ
  status            : Option ConsultantStatus
deriving DecidableEq

structure WardRow where
  wardName  : String
  collected : ℤ
  payers    : ℕ
deriving DecidableEq

structure GlobalPayload where
  byConsultant : List ConsultantRow
  byWard       : List WardRow
deriving DecidableEq

structure BandEntry where
  id    : ℕ
  band  : RateBand
  tiers : List (ℕ × RateTier)
deriving DecidableEq

structure CatalogueEntry where
  id             : ℕ
  item           : CatalogueItem
  categoryName   : Option String
  currentRate    : Option (ℕ × Rate)
  rateBands      : List BandEntry
  departmentName : Option String
deriving DecidableEq

namespace Rows

variable (d : Rows)

def firmOf (user : ℕ) : Option ℕ := do
  let user ← (d .appUser).get user
  user.consultant

def wardOf (user : ℕ) : Option ℕ := do
  let (_, agent) ← (d .fieldAgent).first fun _ a => a.user = user
  agent.assignedWard

-- portfolio_filter
def visible : Viewer → Payer → Bool
  | .agent user _, p => p.assignedAgent = some user || (p.assignedAgent = none && p.enumeratedBy = user)
  | .agentSupervisor user _, p =>
    match d.wardOf user with
    | none      => false
    | some ward => p.assignedAgent.any (d.wardOf · = some ward) ||
      (p.assignedAgent = none && d.wardOf p.enumeratedBy = some ward)
  | .other level consultant, p =>
    if level.any (·.portfolioScoped) then d.firmOf p.enumeratedBy = consultant else true

def payerVisible (v : Viewer) (payer : ℕ) : Bool :=
  ((d .payer).get payer).any (d.visible v)

def liveBills (v : Viewer) : List (ℕ × Bill) :=
  (d .bill).filter fun _ b => !b.status.terminal && d.payerVisible v b.payer

def payerOf (p : Payment) : Option Payer := do
  let bill ← (d .bill).get p.bill
  (d .payer).get bill.payer

def collectedFrom (v : Viewer) : List (ℕ × Payment) :=
  (d .payment).filter fun _ p => p.txnStatus = .confirmed && (d.payerOf p).any (d.visible v)

def billed (b : Bill) : ℤ :=
  b.totalAmount.units - b.arrearsAmount.units

-- DashboardSummaryView._compute
def summary (v : Viewer) (today : Date) : SummaryPayload :=
  let bills     := d.liveBills v
  let payments  := d.collectedFrom v
  let billed    := (bills.map fun b => Rows.billed b.2).sum
  let collected := (payments.map fun p => p.2.amount.units).sum
  let billedOn  := fun a => ((d .billLine).first fun _ l => l.assessment = a && bills.any (·.1 = l.bill)).isSome
  let itemName  := fun l : BillLine => do
    let assessment ← (d .assessment).get l.assessment
    let item ← (d .councilRevenueItem).get assessment.item
    return (item.itemName, l.lineAmount.units)
  {
    billed, collected
    outstanding   := billed - collected
    billsByStatus := [.issued, .overdue, .paid, .partPaid].filterMap fun st =>
      match (bills.filter (·.2.status = st)).length with
      | 0 => none
      | n => some (st, n)
    bills         := bills.length
    assessments   := ((d .assessment).filter fun k a =>
      a.status = .billed && billedOn k && d.payerVisible v a.payer).length
    payers        := ((d .payer).filter fun _ p => d.visible v p).length
    activeAgents  := ((d .fieldAgent).filter fun _ a => a.status = .active &&
      match v with
      | .other (some .consultant) consultant => d.firmOf a.user = consultant
      | _                                    => true).length
    byChannel     := byAmount <| groupSums <| payments.filterMap fun p => do
      let channel ← (d .paymentChannel).get p.2.channel
      return (channel.code, p.2.amount.units)
    byItem        := (byAmount <| groupSums <| bills.flatMap fun b =>
      ((d .billLine).filter fun _ l => l.bill = b.1).filterMap (itemName ·.2)).take 5
    trend         := (List.range 14).map fun i =>
      let day := today - 13 + i
      (day, ((payments.filter (·.2.createdAt = day)).map fun p => p.2.amount.units).sum)
  }

def consultantOf (p : Payer) : Option NamedConsultant := do
  let firm ← d.firmOf p.enumeratedBy
  (d .subConsultant).get firm

-- The levels that see no consultant by name.
def anonymised (level : AccessLevel) : Bool :=
  level ∈ [AccessLevel.globalView, .bdView, .analyticsView]

def collectionRate (collected billed : ℤ) : Option ℤ :=
  if billed = 0 then none
  else some <| roundHalfEven <| Decimal.round <| Decimal.round (kobo collected / kobo billed) * 100

def rollUp (rows : List ConsultantRow) : List ConsultantRow :=
  let named     := rows.filter (·.consultantName ≠ "Council Direct")
  let collected := (named.map (·.collected)).sum
  let billed    := (named.map (·.billed)).sum
  (rows.find? (·.consultantName = "Council Direct")).toList ++
    if named.isEmpty then []
    else [⟨"Via Sub-Consultants", collected, billed, collectionRate collected billed,
      (named.map (·.commissionAccrued)).sum, none⟩]

-- DashboardGlobalView._compute
def dashboardGlobal (level : AccessLevel) : GlobalPayload :=
  let payments  := (d .payment).filter fun _ p => p.txnStatus = .confirmed
  let billed    := groupSums <| ((d .bill).filter fun _ b => !b.status.terminal).map fun b =>
    let consultant := ((d .payer).get b.2.payer).bind d.consultantOf
    ((consultant.map (·.consultantName), consultant.map (·.status)), Rows.billed b.2)
  let billedMap := billed.map fun r => (r.1.1, r.2)
  let statusMap := billed.map fun r => (r.1.1, r.1.2)
  let accrued   := groupSums <| ((d .commissionSettlement).filter fun _ c =>
    c.status ∈ [SettlementStatus.computed, .approved]).map fun c =>
      (((d .subConsultant).get c.2.consultant).map (·.consultantName), c.2.commissionAmount.units)
  let collected := byAmount <| groupSums <| payments.map fun p =>
    (((d.payerOf p.2).bind d.consultantOf).map (·.consultantName), p.2.amount.units)
  let rows      := collected.map fun (name, collected) =>
    let billed := (lastOf billedMap name).getD 0
    {
      consultantName    := if name.getD "" = "" then "Council Direct" else name.getD ""
      collected, billed
      collectionRate    := collectionRate collected billed
      commissionAccrued := (lastOf accrued name).getD 0
      status            := (lastOf statusMap name).join
    }
  let wardName  := fun p : Payer => ((d .wardZone).get p.ward).getD ""
  let payers    := groupSums <| ((d .payer).filter fun _ _ => true).map fun p => (wardName p.2, 1)
  {
    byConsultant := if anonymised level then rollUp rows else rows
    byWard       := (byAmount <| groupSums <| payments.map fun p =>
      ((d.payerOf p.2).elim "" wardName, p.2.amount.units)).map fun (ward, collected) =>
        ⟨ward, collected, (lastOf payers ward).getD 0⟩
  }

-- The parts of it, with the groups of the bills in whatever order the database returns them.
abbrev BilledGroup := (Option String × Option ConsultantStatus) × ℤ

def consultantNamed (payer : ℕ) : Option String × Option ConsultantStatus :=
  let consultant := ((d .payer).get payer).bind d.consultantOf
  (consultant.map (·.consultantName), consultant.map (·.status))

def billedByConsultant : List BilledGroup :=
  ((d .bill).filter fun _ b => !b.status.terminal).map fun b => (d.consultantNamed b.2.payer, Rows.billed b.2)

def collectedByConsultant : List (Option String × ℤ) :=
  ((d .payment).filter fun _ p => p.txnStatus = .confirmed).map fun p =>
    (((d.payerOf p.2).bind d.consultantOf).map (·.consultantName), p.2.amount.units)

def accruedByConsultant : List (Option String × ℤ) :=
  ((d .commissionSettlement).filter fun _ c => c.status ∈ [SettlementStatus.computed, .approved]).map fun c =>
    (((d .subConsultant).get c.2.consultant).map (·.consultantName), c.2.commissionAmount.units)

def consultantRow (billedByConsultant : List BilledGroup) : Option String × ℤ → ConsultantRow
  | (name, collected) =>
    let billed := (lastOf (billedByConsultant.map fun r => (r.1.1, r.2)) name).getD 0
    {
      consultantName    := if name.getD "" = "" then "Council Direct" else name.getD ""
      collected, billed
      collectionRate    := collectionRate collected billed
      commissionAccrued := (lastOf (groupSums d.accruedByConsultant) name).getD 0
      status            := (lastOf (billedByConsultant.map fun r => (r.1.1, r.1.2)) name).join
    }

def consultantRows (billedByConsultant : List BilledGroup) : List ConsultantRow :=
  (byAmount <| groupSums d.collectedByConsultant).map (d.consultantRow billedByConsultant)

theorem dashboardGlobal_byConsultant {level : AccessLevel} : (d.dashboardGlobal level).byConsultant =
    if anonymised level then rollUp (d.consultantRows <| groupSums d.billedByConsultant)
    else d.consultantRows (groupSums d.billedByConsultant) := rfl

def granted (consultant : ℕ) (item : ℕ) : Bool :=
  ((d .consultantPortfolio).first fun _ g =>
    g.consultant = consultant && g.item = item && g.effectiveTo = none).isSome

-- The open grants of the agent that a user is, to one item or at all.
def agentGranted (user : ℕ) (p : ℕ → Bool) : Bool :=
  ((d .agentPortfolio).first fun _ g => p g.item && g.effectiveTo = none &&
    ((d .fieldAgent).get g.agent).any (·.user = user)).isSome

def inScope (item : ℕ) : CatalogueScope → Bool
  | .all                     => true
  | .consultant (some firm)  => d.granted firm item
  | .consultant none         => ((d .consultantPortfolio).first fun _ g => g.item = item).isNone
  | .agent user firm         =>
    if d.agentGranted user fun _ => true then d.agentGranted user (· = item) else firm.all (d.granted · item)

def entry (item : ℕ × CatalogueItem) : CatalogueEntry where
  id             := item.1
  item           := item.2
  categoryName   := (d .revenueCategory).get item.2.category
  currentRate    := ((d .rateSchedule).filter fun _ r => r.item = item.1 && r.effectiveTo = none)
    |>.insertionSort (fun x y => y.2.effectiveFrom ≤ x.2.effectiveFrom)
    |>.head?.map fun r => (r.1, r.2.rateAmount)
  rateBands      := ((d .rateBand).filter fun _ r => r.item = item.1 && r.effectiveTo = none)
    |>.insertionSort (fun x y => x.2.sortOrder < y.2.sortOrder ∨
      (x.2.sortOrder = y.2.sortOrder ∧ x.2.label ≤ y.2.label))
    |>.map fun b => ⟨b.1, b.2, ((d .rateTier).filter fun _ t => t.band = b.1)
      |>.insertionSort fun x y => x.2.sortOrder < y.2.sortOrder ∨
        (x.2.sortOrder = y.2.sortOrder ∧ x.2.label ≤ y.2.label)⟩
  departmentName := item.2.department.bind (d .department).get

-- CouncilRevenueItemViewSet.list: how many items there are, and the ones of a page.
def catalogue (scope : CatalogueScope) (department : Option ℕ) (page : ℕ) : ℕ × List CatalogueEntry :=
  let items := (d .councilRevenueItem).filter fun k i =>
    i.isActive && department.all (i.department = some ·) && d.inScope k scope
  let sorted := items.insertionSort fun x y => x.2.harmonisedCode ≤ y.2.harmonisedCode
  (items.length, ((sorted.drop <| 50 * (page - 1)).take 50).map d.entry)

end Rows

-- What a request asks for, as far as its answer is shared.
inductive View where
  | summary (council : ℕ) (viewer : Viewer) (today : Date)
  | dashboardGlobal (council : ℕ) (level : AccessLevel)
  | catalogue (council : ℕ) (scope : CatalogueScope) (department : Option ℕ) (page : ℕ)
deriving DecidableEq

inductive Payload where
  | summary (p : SummaryPayload)
  | dashboardGlobal (p : GlobalPayload)
  | catalogue (count : ℕ) (results : List CatalogueEntry)
deriving DecidableEq

-- The namespaces of the version tokens. The catalogues of all councils share one.
inductive Namespace where
  | dashboard (council : ℕ)
  | catalogue
deriving DecidableEq

namespace View

def council : View → ℕ
  | summary c .. | dashboardGlobal c _ | catalogue c .. => c

def tokenOf : View → Namespace
  | summary c .. | dashboardGlobal c _ => .dashboard c
  | catalogue ..                       => .catalogue

-- The models that a payload is computed from.
def models : View → List Model
  | summary ..        => [.bill, .billLine, .assessment, .payment, .paymentChannel, .payer, .appUser,
    .fieldAgent, .councilRevenueItem]
  | dashboardGlobal .. => [.payment, .bill, .payer, .appUser, .subConsultant, .commissionSettlement, .wardZone]
  | catalogue ..      => [.councilRevenueItem, .revenueCategory, .department, .rateSchedule, .rateBand,
    .rateTier, .consultantPortfolio, .agentPortfolio, .fieldAgent]

def compute (d : Rows) : View → Payload
  | summary _ viewer today                => .summary <| d.summary viewer today
  | dashboardGlobal _ level               => .dashboardGlobal <| d.dashboardGlobal level
  | catalogue _ scope department page =>
    let (count, results) := d.catalogue scope department page
    .catalogue count results

end View

-- _bump_dashboard and _bump_catalogue
def bumped (council : ℕ) (m : Model) : Option Namespace :=
  if m ∈ dashboardModels then some (.dashboard council)
  else if m ∈ catalogueModels then some .catalogue
  else none

end ACRev360
