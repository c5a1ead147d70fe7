import ACRev360.Library.Rules
import ACRev360.Objects.Records

namespace ACRev360

inductive Name where
  | config | role | user | consultant | payer | item | rateSchedule | rateBand | rateTier | assessment
  | bill | line | channel | apiClient | terminal | payment | allocation | feed | receipt | settlement
  | debtCase | asset | syncRecord | fieldAgent | consultantPortfolio | agentPortfolio
  | reconciliationRun | reconciliationException
deriving DecidableEq

abbrev Rec : Name → Type
  | .config       => CouncilConfig
  | .role         => AppRole
  | .user         => AppUser
  | .consultant   => SubConsultant
  | .payer        => Payer
  | .item         => RevenueItem
  | .rateSchedule => RateSchedule
  | .rateBand     => RateBand
  | .rateTier     => RateTier
  | .assessment   => Assessment
  | .bill         => Bill
  | .line         => BillLine
  | .channel      => PaymentChannel
  | .apiClient    => APIClient
  | .terminal     => POSTerminal
  | .payment      => Payment
  | .allocation   => PaymentAllocation
  | .feed         => ChannelTransactionFeed
  | .receipt      => Receipt
  | .settlement   => CommissionSettlement
  | .debtCase     => DebtCase
  | .asset        => EnumeratedAsset
  | .syncRecord   => MobileSyncRecord
  | .fieldAgent   => FieldAgent
  | .consultantPortfolio => ConsultantPortfolio
  | .agentPortfolio      => AgentPortfolio
  | .reconciliationRun       => ReconciliationRun
  | .reconciliationException => ReconciliationException

-- The values of the unique constraints. The generated references and the logins of payers are left
-- out: each is made from a new primary key.
inductive UniqueKey where
  | roleName (name : String)
  | username (username : String)
  | email (email : String)
  | channelCode (code : ChannelCode)
  | bankTxnRef (channel : ℕ) (bankTxnRef : String)
  | feedRow (channel : ℕ) (bankTxnRef : String)
  | receipt (payment : ℕ)
  | settlement (consultant : ℕ) (periodStart periodEnd : Date)
  | debtCase (bill : ℕ)
  | clientId (council : ℕ) (clientId : String)
  | itemCode (council : ℕ) (harmonisedCode : String)
  | openRate (item : ℕ)
  | openBand (item : ℕ) (label : String)
  | tier (band : ℕ) (label : String)
  | fieldAgent (user : ℕ)
  | openGrant (consultant item : ℕ) (ward : Option ℕ)
  | openAgentGrant (agent item : ℕ) (ward : Option ℕ)
  | reconciliation (council channel : ℕ) (runDate : Date)
deriving DecidableEq

abbrev uniqueKeys : (t : Name) → Rec t → List UniqueKey
  | .role, r       => [.roleName r.name]
  | .user, r       => [.username r.username, .email r.email]
  | .channel, r    => [.channelCode r.code]
  | .payment, r    => if r.bankTxnRef = "" then [] else [.bankTxnRef r.channel r.bankTxnRef]
  | .feed, r       => [.feedRow r.channel r.bankTxnRef.val]
  | .receipt, r    => [.receipt r.payment]
  | .settlement, r => [.settlement r.consultant r.periodStart r.periodEnd]
  | .debtCase, r   => [.debtCase r.bill]
  | .syncRecord, r => [.clientId r.council r.clientId]
  | .item, r       => if r.isActive then [.itemCode r.council r.harmonisedCode] else []
  | .rateSchedule, r =>
    if r.effectiveTo = none then [.openRate r.item] else []
  | .rateBand, r   => if r.effectiveTo = none then [.openBand r.item r.label] else []
  | .rateTier, r   => [.tier r.band r.label]
  | .fieldAgent, r => [.fieldAgent r.user]
  | .consultantPortfolio, r =>
    if r.effectiveTo = none then [.openGrant r.consultant r.item r.ward] else []
  | .agentPortfolio, r      => if r.effectiveTo = none then [.openAgentGrant r.agent r.item r.ward] else []
  | .reconciliationRun, r   => [.reconciliation r.council r.channel r.runDate]
  | .config, _ | .consultant, _ | .payer, _ | .assessment, _ | .bill, _ | .line, _ | .apiClient, _
  | .terminal, _ | .allocation, _ | .asset, _ | .reconciliationException, _ => []

abbrev foreignKeys : (t : Name) → Rec t → List (Name × ℕ)
  | .user, r         => r.role.toList.map (.role, ·) ++ r.consultant.toList.map (.consultant, ·)
  | .consultant, r   => r.registrationPayer.toList.map (.payer, ·)
  | .payer, r        => (.user, r.enumeratedBy) :: r.assignedAgent.toList.map (.user, ·)
      ++ r.user.toList.map (.user, ·)
  | .rateSchedule, r => [(.item, r.item)]
  | .rateBand, r     => [(.item, r.item)]
  | .rateTier, r     => [(.rateBand, r.band)]
  | .assessment, r   => [(.payer, r.payer), (.item, r.item), (.user, r.createdBy)]
      ++ r.rateSchedule.toList.map (.rateSchedule, ·) ++ r.rateBand.toList.map (.rateBand, ·)
      ++ r.rateTier.toList.map (.rateTier, ·)
  | .bill, r         => [(.payer, r.payer), (.user, r.issuedBy)] ++ r.supersededBy.toList.map (.bill, ·)
  | .line, r         => [(.bill, r.bill), (.assessment, r.assessment)]
  | .apiClient, r    => [(.channel, r.channel)]
  | .payment, r      => [(.bill, r.bill), (.channel, r.channel)] ++ r.terminal.toList.map (.terminal, ·)
      ++ r.postedBy.toList.map (.user, ·)
  | .allocation, r   => [(.payment, r.payment), (.line, r.line)]
  | .feed, r         => (.channel, r.channel) :: r.matchedPayment.toList.map (.payment, ·)
  | .receipt, r      => [(.payment, r.payment)]
  | .settlement, r   => [(.consultant, r.consultant), (.user, r.computedBy)]
  | .debtCase, r     => [(.bill, r.bill)]
  | .asset, r        => [(.payer, r.payer)]
  | .fieldAgent, r   => [(.user, r.user)]
  | .syncRecord, r   => [(.fieldAgent, r.agent)]
  | .consultantPortfolio, r => [(.consultant, r.consultant), (.item, r.item)]
  | .agentPortfolio, r      => [(.fieldAgent, r.agent), (.item, r.item)]
  | .reconciliationRun, r       => [(.channel, r.channel), (.user, r.runBy)]
  | .reconciliationException, r => (.reconciliationRun, r.run) :: r.feedRow.toList.map (.feed, ·)
      ++ r.payment.toList.map (.payment, ·)
  | .config, _ | .role, _ | .item, _ | .channel, _ | .terminal, _ => []

abbrev Fixed : Name → Type
  | .line       => ℕ × ℕ
  | .allocation => PaymentAllocation
  | .bill       => ℕ
  | .payment    => ℕ × Money × Date
  | _           => Unit

-- The relations that are never pointed elsewhere, what a payment was when it was made, and allocations
-- as a whole.
abbrev fixedColumns : (t : Name) → Rec t → Fixed t
  | .line, r       => (r.bill, r.assessment)
  | .allocation, r => r
  | .bill, r       => r.payer
  | .payment, r    => (r.bill, r.amount, r.createdAt)
  | .config, _ | .role, _ | .user, _ | .consultant, _ | .payer, _ | .item, _ | .rateSchedule, _
  | .rateBand, _ | .rateTier, _ | .assessment, _ | .channel, _ | .apiClient, _ | .terminal, _
  | .feed, _ | .receipt, _ | .settlement, _ | .debtCase, _ | .asset, _ | .syncRecord, _ | .fieldAgent, _
  | .consultantPortfolio, _ | .agentPortfolio, _ | .reconciliationRun, _ | .reconciliationException, _ => ()

-- What the services read without locking it: the columns that decide the status of a bill, its lines,
-- and the payers of a council that are registered with a phone.
inductive Facet where
  | bill (b : ℕ)
  | lines (b : ℕ)
  | phone (council : ℕ) (phone : String)
deriving DecidableEq

abbrev Facet.Obs : Facet → Type
  | bill _    => BillStatus × Money × Date
  | lines _   => BillLine
  | phone _ _ => Unit

abbrev Facet.of : Facet → Name
  | bill _    => .bill
  | lines _   => .line
  | phone _ _ => .payer

abbrev Facet.obs : (f : Facet) → ℕ → Rec f.of → Option f.Obs
  | bill b, k, r          => if k = b then some (r.status, r.amountPaid, r.dueDate) else none
  | lines b, _, r         => if r.bill = b then some r else none
  | phone council n, _, r => if r.council = council ∧ r.phone = n then some () else none

abbrev relational : Relational where
  Name      := Name
  names     := [.config, .role, .user, .consultant, .payer, .item, .rateSchedule, .rateBand, .rateTier,
    .assessment, .bill, .line, .channel, .apiClient, .terminal, .payment, .allocation, .feed, .receipt,
    .settlement, .debtCase, .asset, .syncRecord, .fieldAgent, .consultantPortfolio, .agentPortfolio,
    .reconciliationRun, .reconciliationException]
  mem_names t := by cases t <;> simp
  Rec       := Rec
  Key       := UniqueKey
  keys      := uniqueKeys
  refs      := foreignKeys
  Fixed     := Fixed
  fixed     := fixedColumns
  Facet     := Facet
  Obs       := Facet.Obs
  of        := Facet.of
  obs       := Facet.obs
  Error     := Error
  integrityError := .integrityError
  databaseError  := .databaseError

abbrev Db := relational.Database

-- The services, as programs over the database.
abbrev Service (α : Type) := Prog relational.schema α

end ACRev360
