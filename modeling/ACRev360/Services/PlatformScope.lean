import ACRev360.Objects.Records
import ACRev360.Library.Table
import ACRev360.Services.Tenancy

namespace ACRev360

-- Roles of the ACDSL (platform) tier, whose users have no council.
def AccessLevel.platformTier (level : AccessLevel) : Bool :=
  level ∈ [superAdmin, platformAdmin, devopsAdmin, bdView, complianceView, financeAdmin, supportAdmin,
    analyticsView, externalAuditor]

-- _ALL_COUNCILS_LEVELS
def AccessLevel.allCouncils (level : AccessLevel) : Bool :=
  level ∈ [superAdmin, platformAdmin, bdView, complianceView, analyticsView, financeAdmin]

-- _GRANT_SCOPED_LEVELS
def AccessLevel.grantScoped (level : AccessLevel) : Bool :=
  level ∈ [externalAuditor]

-- A point in time, as `timezone.now` gives it.
abbrev Instant := ℕ

structure Council where
  isActive : Bool
deriving DecidableEq

structure CouncilGrant where
  user      : ℕ
  council   : ℕ
  expiresAt : Option Instant
deriving DecidableEq

structure ListedConsultant extends SubConsultant where
  consultantName : String
  contractRef    : String
deriving DecidableEq

structure ApiClient where
  council  : ℕ
  name     : String
  apiKey   : String
  isActive : Bool
deriving DecidableEq

def ConsultantStatus.code : ConsultantStatus → String
  | pending   => "PENDING"
  | active    => "ACTIVE"
  | suspended => "SUSPENDED"
  | exited    => "EXITED"

-- The views with the `PlatformWideListMixin`.
inductive PlatformWideView where
  | commissionSettlement | subConsultant | apiClient
deriving DecidableEq

namespace PlatformWideView

abbrev Row : PlatformWideView → Type
  | commissionSettlement => CommissionSettlement
  | subConsultant        => ListedConsultant
  | apiClient            => ApiClient

def council : (v : PlatformWideView) → v.Row → ℕ
  | commissionSettlement, r => r.council
  | subConsultant, r        => r.council
  | apiClient, r            => r.council

-- get_permissions, for the actions that list rows or get one.
def admits : PlatformWideView → AccessLevel → Bool
  | commissionSettlement, level => level ∈ [.councilAdmin, .consultant, .revenueOfficer, .councilTreasury,
    .councilAuditor, .consultantStaff, .financeAdmin]
  | subConsultant, level => level ∈ [.councilAdmin, .councilIgrHead, .councilTreasury, .councilAuditor,
    .councilIt, .complianceView, .externalAuditor, .superAdmin, .platformAdmin]
  | apiClient, level => level ∈ [.councilAdmin, .devopsAdmin]

end PlatformWideView

-- request.query_params
structure QueryParams where
  q        : Option String
  status   : Option String
  isActive : Option String
deriving DecidableEq

-- The committed rows of all councils. A user has one grant for a council.
structure Platform where
  councils : Table Council
  grants   : Table CouncilGrant
  rows     : (v : PlatformWideView) → Table v.Row
  unique   : ∀ {i j g h}, grants.get i = some g → grants.get j = some h →
    g.user = h.user → g.council = h.council → i = j

namespace Platform

variable (p : Platform) (icontains : String → String → Bool)

-- granted_council_ids
def grantedCouncilIds (now : Instant) (user : ℕ) : List ℕ :=
  (p.grants.filter fun _ g => g.user = user && g.expiresAt = none).map (·.2.council) ++
    (p.grants.filter fun _ g => g.user = user && g.expiresAt.any (now < ·)).map (·.2.council)

-- accessible_council_ids, for a user without a council.
def accessibleCouncilIds (now : Instant) (user : ℕ) (level : AccessLevel) : List ℕ :=
  if level.grantScoped then p.grantedCouncilIds now user
  else if level.allCouncils then (p.councils.filter fun _ c => c.isActive).map (·.1)
  else []

-- Whether the query parameters select a row, as far as the session sees what is joined to it.
def selects (params : QueryParams) (seen : CouncilId) : (v : PlatformWideView) → v.Row → Bool
  | .commissionSettlement, r => ((p.rows .subConsultant).get r.consultant).any fun c =>
    seen = some c.council && (params.q.filter (· ≠ "")).all (icontains c.consultantName ·)
  | .subConsultant, r =>
    (params.q.filter (· ≠ "")).all (fun q => icontains r.consultantName q || icontains r.contractRef q) &&
      (params.status.filter (· ≠ "")).all (r.status.code = ·)
  | .apiClient, r =>
    (params.q.filter (· ≠ "")).all (fun q => icontains r.name q || icontains r.apiKey q) &&
      params.isActive.all fun v => r.isActive = (v.toLower = "1" || v.toLower = "true")

-- What get_platform_queryset_fn gives for a council in a session that sees the rows of `seen`.
def platformQuerysetFn (params : QueryParams) (v : PlatformWideView) (pk : Option ℕ) (council : ℕ)
    (seen : CouncilId) : List (ℕ × v.Row) :=
  (p.rows v).filter fun k r => seen = some (v.council r) && v.council r = council &&
    p.selects icontains params seen v r && pk.all (k = ·)

-- platform_wide_queryset for the rows of a view, or for the one with a primary key.
def platformRows (now : Instant) (user : ℕ) (level : AccessLevel) (params : QueryParams) (v : PlatformWideView)
    (pk : Option ℕ) (k : List (List (ℕ × v.Row)) → Handler Error (List (ℕ × v.Row))) :
    Handler Error (List (ℕ × v.Row)) :=
  platformWideQueryset (fun council => .query fun seen => .ret <|
    p.platformQuerysetFn icontains params v pk council seen) k (p.accessibleCouncilIds now user level) []

-- PlatformWideListMixin.list: the rows that are paginated.
def list (now : Instant) (user : ℕ) (level : AccessLevel) (params : QueryParams) (v : PlatformWideView) :
    Handler Error (List (ℕ × v.Row)) :=
  p.platformRows icontains now user level params v none fun results => .ret results.flatten

-- PlatformWideListMixin.get_object
def getObject (now : Instant) (user : ℕ) (level : AccessLevel) (params : QueryParams) (v : PlatformWideView)
    (pk : ℕ) : Handler Error (List (ℕ × v.Row)) :=
  p.platformRows icontains now user level params v (some pk) fun results =>
    match results.flatten with
    | row :: _ => .ret [row]
    | []       => .raise .notFound

end Platform

end ACRev360
