import ACRev360.Services.FieldOps

namespace ACRev360

open Relational

namespace Db

variable (s : Db)

-- AppUser.access_level
def accessLevel (user : ℕ) : Option AccessLevel := do
  let user ← (s.table .user).get user
  let role ← (s.table .role).get (← user.role)
  return role.accessLevel

-- AppUser.consultant_id
def firmOf (user : ℕ) : Option ℕ := do
  let user ← (s.table .user).get user
  user.consultant

-- user.field_agent.assigned_ward_id
def wardOf (user : ℕ) : Option ℕ := do
  let (_, agent) ← (s.table .fieldAgent).first fun _ a => a.user = user
  agent.assignedWard

end Db

-- _PORTFOLIO_SCOPED_LEVELS
def AccessLevel.portfolioScoped (level : AccessLevel) : Bool :=
  level ∈ [consultant, consultantStaff, revenueOfficer]

-- The payers that `portfolio_filter` leaves a user.
def portfolioFilter (s : Db) (user : ℕ) (payer : Payer) : Bool :=
  match s.accessLevel user with
  | some .agent =>
    payer.assignedAgent = some user || (payer.assignedAgent = none && payer.enumeratedBy = user)
  | some .agentSupervisor =>
    match s.wardOf user with
    | none => false
    | some ward =>
      payer.assignedAgent.any (s.wardOf · = some ward) ||
        (payer.assignedAgent = none && s.wardOf payer.enumeratedBy = some ward)
  | some level =>
    if level.portfolioScoped then s.firmOf payer.enumeratedBy = s.firmOf user else true
  | none => true

-- get_worklist: of the payers of the ward, those whom the agent was handed and those whom the agent has
-- registered and nobody was handed.
def getWorklist (s : Db) (council : ℕ) (agent : FieldAgent) : List (ℕ × Payer) :=
  (s.table .payer).filter fun _ p => p.council = council && agent.assignedWard = some p.ward &&
    (p.assignedAgent = some agent.user || (p.assignedAgent = none && p.enumeratedBy = agent.user))

-- FieldAgentViewSet.get_queryset
def agentInQueryset (s : Db) (user : ℕ) (agent : FieldAgent) : Bool :=
  ((s.table .user).get user).any (·.council = some agent.council) &&
  match s.accessLevel user with
  | some .consultant | some .consultantStaff => s.firmOf agent.user = s.firmOf user
  | some .agent => agent.user = user
  | some .agentSupervisor => (s.wardOf user).any (agent.assignedWard = some ·)
  | _ => true

inductive AssignResponse where
  | notInPortfolio
  | assigned

-- FieldAgentViewSet.assign_payer
def assignPayer (user pk payerId : ℕ) : Service AssignResponse := do
  let level ← query fun s => s.accessLevel user
  if level ∉ [some .councilAdmin, some .consultant, some .agentSupervisor] then refuse .permissionDenied
  let some agent ← query fun s => ((s.table .fieldAgent).get pk).filter (agentInQueryset s user)
    | refuse .notFound
  let payer ← getObject .payer payerId (·.council = agent.council) []
  let firm ← query fun s => s.firmOf agent.user
  let enumeratingFirm ← query fun s => s.firmOf payer.row.enumeratedBy
  if firm.isSome && enumeratingFirm ≠ firm then return .notInPortfolio
  save .payer payer.id fun p => { p with assignedAgent := some agent.user }
  return .assigned

-- The requests that register payers, online or for the offline queue, and hand them to agents.
inductive Registration where
  | createPayer (council actor : ℕ) (items : List (Loaded RevenueItem)) (force : Bool)
      (enumeratedBy : Option ℕ) (fields : PayerFields) (extra : Bool)
  | replay (council actor : ℕ) (agent : Agent) (payload : Json)
  | assignPayer (user pk payerId : ℕ)

def Registration.serve (fw : Framework) : Registration → Service Unit
  | createPayer council actor items force enumeratedBy fields extra => do
    let _ ← ACRev360.createPayer council actor items force enumeratedBy fields extra
  | replay council actor agent payload => do let _ ← replayPayer fw council agent actor payload
  | assignPayer user pk payerId => do let _ ← ACRev360.assignPayer user pk payerId

-- The states that a sequence of such requests leads to, whether they succeed or not.
inductive Registration.Served (fw : Framework) (s : Db) : Db → Prop
  | start : Served fw s s
  | serve {t u n m out} (r : Registration) :
    Served fw s t → (r.serve fw).call t n = (out, u, m) → Served fw s u

theorem Registration.Served.preserves {fw : Framework} {I : Db → Prop} {s t : Db}
    (h : Registration.Served fw s t) (hI : ∀ r : Registration, (r.serve fw).Maintains I) (hs : I s) : I t := by
  induction h with
  | start => exact hs
  | serve r _ hr hi =>
    rename_i out _
    cases out with
    | error e => exact Prog.call_error hr ▸ hi
    | ok a => exact (Prog.call_ok (hI r _ hi) hr).1

end ACRev360
