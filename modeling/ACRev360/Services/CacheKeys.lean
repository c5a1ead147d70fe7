import ACRev360.Library.Delimited
import ACRev360.Objects.Literals
import ACRev360.Services.ReadModels

namespace ACRev360

-- The days of the year before the date.
def Date.dayOfYear (d : Date) : ℕ :=
  let n    := d - 1
  let n100 := n % 146097 / 36524
  let n1   := n % 146097 % 36524 % 1461 / 365
  if n1 = 4 ∨ n100 = 4 then 365 else n % 146097 % 36524 % 1461 % 365

-- The month that a day of the year is in, and which day of the month it is.
def inMonths : List ℕ → ℕ → ℕ × ℕ
  | [], n            => (1, n + 1)
  | len :: months, n => if n < len then (1, n + 1) else
    let (month, day) := inMonths months (n - len)
    (month + 1, day)

def zeroPadded (width n : ℕ) : String :=
  String.ofList <| (Nat.toDigits 10 n).leftpad width '0'

def Date.isoformat (d : Date) : String :=
  let (month, day) := inMonths (monthLengths d.year) d.dayOfYear
  "-".intercalate [zeroPadded 4 d.year, zeroPadded 2 month, zeroPadded 2 day]

example : Date.isoformat 736389 = "2017-03-01" ∧ Date.isoformat 736329 = "2016-12-31" := by decide +kernel

def AccessLevel.code : AccessLevel → String
  | councilAdmin    => "COUNCIL_ADMIN"
  | consultant      => "CONSULTANT"
  | agent           => "AGENT"
  | globalView      => "GLOBAL_VIEW"
  | revenueOfficer  => "REVENUE_OFFICER"
  | superAdmin      => "SUPER_ADMIN"
  | platformAdmin   => "PLATFORM_ADMIN"
  | devopsAdmin     => "DEVOPS_ADMIN"
  | bdView          => "BD_VIEW"
  | complianceView  => "COMPLIANCE_VIEW"
  | financeAdmin    => "FINANCE_ADMIN"
  | supportAdmin    => "SUPPORT_ADMIN"
  | analyticsView   => "ANALYTICS_VIEW"
  | externalAuditor => "EXTERNAL_AUDITOR"
  | councilIgrHead  => "COUNCIL_IGR_HEAD"
  | councilTreasury => "COUNCIL_TREASURY"
  | councilAuditor  => "COUNCIL_AUDITOR"
  | councilIt       => "COUNCIL_IT"
  | consultantStaff => "CONSULTANT_STAFF"
  | agentSupervisor => "AGENT_SUPERVISOR"
  | ratepayer       => "RATEPAYER"
  | ratepayerProxy  => "RATEPAYER_PROXY"

-- The user of a request.
structure Caller where
  id          : ℕ
  council     : Option ℕ
  accessLevel : Option AccessLevel
  consultant  : Option ℕ
deriving DecidableEq

namespace Caller

variable (user : Caller)

def viewer : Viewer :=
  match user.accessLevel with
  | some .agent           => .agent user.id user.consultant
  | some .agentSupervisor => .agentSupervisor user.id user.consultant
  | level                 => .other level user.consultant

-- The scope that CouncilRevenueItemViewSet.list puts into the key.
def scope : CatalogueScope :=
  match user.accessLevel with
  | some .agent => .agent user.id user.consultant
  | some level  => if level.portfolioScoped then .consultant user.consultant else .all
  | none        => .all

end Caller

inductive PageNumber where
  | number (n : ℕ)
  | last
deriving DecidableEq

-- What the catalogue reads of a query string.
structure CatalogueQuery where
  department : Option ℤ
  page       : PageNumber
deriving DecidableEq

-- What a session sees that is set to no council.
def Rows.unset : Rows
  | .bill | .billLine | .assessment | .payment | .paymentChannel | .payer | .appUser | .fieldAgent
  | .subConsultant | .commissionSettlement | .wardZone | .councilRevenueItem | .revenueCategory | .department
  | .rateSchedule | .rateBand | .rateTier | .consultantPortfolio | .agentPortfolio => Table.empty

-- The rows of all councils, as the sessions of one see them.
def Rows.ofCouncil (state : ℕ → Rows) : Option ℕ → Rows :=
  (·.elim Rows.unset state)

namespace Rows

variable (d : Rows) (user : Caller)

-- portfolio_filter
def portfolioFilter (p : Payer) : Bool :=
  match user.accessLevel with
  | some .agent => p.assignedAgent = some user.id || (p.assignedAgent = none && p.enumeratedBy = user.id)
  | some .agentSupervisor =>
    match d.wardOf user.id with
    | none => false
    | some ward   => p.assignedAgent.any (d.wardOf · = some ward) ||
      (p.assignedAgent = none && d.wardOf p.enumeratedBy = some ward)
  | some level => if level.portfolioScoped then d.firmOf p.enumeratedBy = user.consultant else true
  | none => true

-- CouncilRevenueItemViewSet.get_queryset, but for the council, the department and what is retired.
def itemListed (item : ℕ) : Bool :=
  match user.accessLevel with
  | some .agent =>
    if d.agentGranted user.id fun _ => true then d.agentGranted user.id (· = item)
    else user.consultant.all (d.granted · item)
  | some level =>
    if level.portfolioScoped then
      match user.consultant with
      | some firm   => d.granted firm item
      | none => ((d .consultantPortfolio).first fun _ g => g.item = item).isNone
    else true
  | none => true

-- CouncilRevenueItemViewSet.list, where it answers at all.
def listItems (q : CatalogueQuery) : Option (ℕ × List CatalogueEntry) :=
  let items  := (d .councilRevenueItem).filter fun k i =>
    i.isActive && q.department.all (fun n => i.department.any fun k => (k : ℤ) = n) && d.itemListed user k
  let sorted := items.insertionSort fun x y => x.2.harmonisedCode ≤ y.2.harmonisedCode
  let pages  := max 1 ((items.length + 49) / 50)
  let page   := match q.page with
    | .number n => n
    | .last     => pages
  if page = 0 ∨ pages < page then none
  else some (items.length, ((sorted.drop <| 50 * (page - 1)).take 50).map d.entry)

end Rows

-- str(p) of an id, and of an access level.
def str : Option ℕ → String
  | none   => "None"
  | some n => toString n

def strLevel (level : Option AccessLevel) : String :=
  level.elim "None" (·.code)

-- A version token: uuid.uuid4().hex
structure Token where
  hex   : String
  isHex : ∀ c ∈ hex.toList, c ∈ "0123456789abcdef".toList

-- What is put into the digest.
def digestInput (parts : List String) : String :=
  "|".intercalate parts

-- A request that `cached` answers.
inductive CachedRequest where
  | summary (user : Caller) (today : {d : Date // 0 < d})
  | dashboardGlobal (user : Caller)
  | catalogue (user : Caller) (queryString : String)

namespace CachedRequest

-- The parts of a request's key.
def parts : CachedRequest → List String
  | summary user today => ["summary", strLevel user.accessLevel, str user.consultant,
    str <| if user.accessLevel ∈ [some .agent, some .agentSupervisor] then some user.id else none, today.val.isoformat]
  | dashboardGlobal user => ["global", strLevel user.accessLevel]
  | catalogue user queryString =>
    str user.council :: match user.scope with
    | .consultant consultant   => ["consultant", str consultant, queryString]
    | .agent id consultant     => ["agent", str (some id), str consultant, queryString]
    | .all                     => ["all", queryString]

-- The namespace, the council and the token's namespace that `cached` is called with. A dashboard of a caller
-- without a council is computed each time.
def place : CachedRequest → Option (String × Option ℕ × Namespace)
  | summary user _ | dashboardGlobal user => user.council.map fun c => ("dashboard", some c, .dashboard c)
  | catalogue ..                          => some ("catalogue", none, .catalogue)

-- The key of the cached payload, with what is digested in place of its digest.
def key (token : Namespace → Token) (r : CachedRequest) : Option String :=
  r.place.map fun (ns, council, tokenOf) =>
    ":".intercalate ["data", ns, str council, (token tokenOf).hex, digestInput r.parts]

-- The ETag, with what is digested in place of its digest.
def etag (token : Namespace → Token) : CachedRequest → Option String
  | summary .. | dashboardGlobal _ => none
  | r@(catalogue ..)               => some <| digestInput <| (token .catalogue).hex :: r.parts

-- What is computed for the request.
def fresh (state : ℕ → Rows) (read : String → Option CatalogueQuery) : CachedRequest → Option Payload
  | summary user today         =>
    some <| .summary <| (Rows.ofCouncil state user.council).summary user.viewer today.val
  | dashboardGlobal user       =>
    user.accessLevel.map fun l => .dashboardGlobal <| (Rows.ofCouncil state user.council).dashboardGlobal l
  | catalogue user queryString => do
    let (count, results) ← (Rows.ofCouncil state user.council).listItems user (← read queryString)
    return .catalogue count results

end CachedRequest

end ACRev360
