import ACRev360.Services.Scoping

namespace ACRev360

open Relational

inductive PortfolioResponse where
  | created (portfolio : ℕ)
  | ended
  | forbidden
  | councilDirect
  | notInPortfolio
  | alreadyAssigned
deriving DecidableEq

-- AppUser.council_id. Of what is of another council, a user finds nothing.
def Db.councilOf (s : Db) (user : ℕ) : Option ℕ := do
  let user ← (s.table .user).get user
  user.council

namespace Db

variable (s : Db)

-- The open grants of an item to a consultant, in whichever ward.
def granted (consultant item : ℕ) : Bool :=
  (s.table .consultantPortfolio).first (fun _ g =>
    g.consultant = consultant && g.item = item && g.effectiveTo = none) |>.isSome

def grantedIn (consultant item : ℕ) (ward : Option ℕ) : Bool :=
  (s.table .consultantPortfolio).first (fun _ g => g.consultant = consultant && g.item = item &&
    g.ward = ward && g.effectiveTo = none) |>.isSome

def agentGrantedIn (agent item : ℕ) (ward : Option ℕ) : Bool :=
  (s.table .agentPortfolio).first (fun _ g => g.agent = agent && g.item = item && g.ward = ward &&
    g.effectiveTo = none) |>.isSome

-- The open grants of the agent that a user is, to one item or at all.
def agentGranted (user : ℕ) (p : ℕ → Bool) : Bool :=
  (s.table .agentPortfolio).first (fun _ g => p g.item && g.effectiveTo = none &&
    ((s.table .fieldAgent).get g.agent).any (·.user = user)) |>.isSome

end Db

-- CouncilRevenueItemViewSet.get_queryset
def itemInQueryset (s : Db) (user item : ℕ) : Bool :=
  ((s.table .item).get item).any (fun i => i.isActive && s.councilOf user = some i.council) &&
  match s.accessLevel user with
  | some .agent =>
    if s.agentGranted user fun _ => true then s.agentGranted user (· = item)
    else (s.firmOf user).all (s.granted · item)
  | some level =>
    if level.portfolioScoped then
      match s.firmOf user with
      | some consultant => s.granted consultant item
      -- A comparison with no consultant asks for the items that have never been granted.
      | none            => (s.table .consultantPortfolio).first (fun _ g => g.item = item) |>.isNone
    else true
  | none => true

-- The item of a request, which its serializer looks up.
def portfolioItem (council item : ℕ) : Service Unit := do
  let found ← query fun s => ((s.table .item).get item).any (·.council = council)
  if !found then refuse .validationError

-- SubConsultantViewSet.portfolio
def assignPortfolio (user pk item : ℕ) (ward : Option ℕ) : Service PortfolioResponse := do
  let level ← query fun s => s.accessLevel user
  if level ∉ [some .councilAdmin, some .consultant] then refuse .permissionDenied
  let some consultant ← query fun s =>
      ((s.table .consultant).get pk).filter fun c => s.councilOf user = some c.council
    | refuse .notFound
  if level ≠ some .councilAdmin then return .forbidden
  portfolioItem consultant.council item
  if ← query fun s => s.grantedIn pk item ward then return .alreadyAssigned
  return .created (← create .consultantPortfolio ⟨consultant.council, pk, item, ward, none⟩)

-- SubConsultantViewSet.end_portfolio
def endPortfolio (today : Date) (user pk portfolio : ℕ) : Service PortfolioResponse := do
  let level ← query fun s => s.accessLevel user
  if level ≠ some .councilAdmin then refuse .permissionDenied
  let some _ ← query fun s =>
      ((s.table .consultant).get pk).filter fun c => s.councilOf user = some c.council
    | refuse .notFound
  let entry ← getObject .consultantPortfolio portfolio (·.consultant = pk) []
  close .consultantPortfolio entry.id (fun g => { g with effectiveTo := some today })
    ⟨fun _ => List.nil_subset _, fun _ => rfl⟩
  return .ended

-- FieldAgentViewSet.portfolio
def assignAgentPortfolio (user pk item : ℕ) (ward : Option ℕ) : Service PortfolioResponse := do
  let level ← query fun s => s.accessLevel user
  if level ∉ [some .councilAdmin, some .consultant] then refuse .permissionDenied
  let some agent ← query fun s => ((s.table .fieldAgent).get pk).filter (agentInQueryset s user)
    | refuse .notFound
  portfolioItem agent.council item
  let some consultant ← query fun s => s.firmOf agent.user | return .councilDirect
  let granted ← query fun s => s.granted consultant item
  if !granted then return .notInPortfolio
  if ← query fun s => s.agentGrantedIn pk item ward then return .alreadyAssigned
  return .created (← create .agentPortfolio ⟨agent.council, pk, item, ward, none⟩)

-- FieldAgentViewSet.end_portfolio
def endAgentPortfolio (today : Date) (user pk portfolio : ℕ) : Service PortfolioResponse := do
  let level ← query fun s => s.accessLevel user
  if level ∉ [some .councilAdmin, some .consultant] then refuse .permissionDenied
  let some _ ← query fun s => ((s.table .fieldAgent).get pk).filter (agentInQueryset s user)
    | refuse .notFound
  let entry ← getObject .agentPortfolio portfolio (·.agent = pk) []
  close .agentPortfolio entry.id (fun g => { g with effectiveTo := some today })
    ⟨fun _ => List.nil_subset _, fun _ => rfl⟩
  return .ended

inductive PortfolioRequest where
  | assign (user pk item : ℕ) (ward : Option ℕ)
  | finish (user pk portfolio : ℕ)
  | assignAgent (user pk item : ℕ) (ward : Option ℕ)
  | finishAgent (user pk portfolio : ℕ)

def PortfolioRequest.serve (today : Date) : PortfolioRequest → Service PortfolioResponse
  | assign user pk item ward       => assignPortfolio user pk item ward
  | finish user pk portfolio       => endPortfolio today user pk portfolio
  | assignAgent user pk item ward  => assignAgentPortfolio user pk item ward
  | finishAgent user pk portfolio  => endAgentPortfolio today user pk portfolio

-- The states that portfolio requests lead to that meet `ok`, from one in which nothing is granted.
inductive PortfolioRequest.Reachable (ok : Db → PortfolioRequest → Prop) : Db → Prop
  | start {s : Db} : s.table .consultantPortfolio = .empty → s.table .agentPortfolio = .empty → Reachable ok s
  | serve {s t n m out} (today : Date) (r : PortfolioRequest) :
    Reachable ok s → ok s r → (r.serve today).call s n = (out, t, m) → Reachable ok t

end ACRev360
