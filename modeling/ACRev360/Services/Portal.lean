import ACRev360.Services.Logins

namespace ACRev360

open Relational

namespace Logins

section Portal

-- user.payer_profile
def payerProfile (s : Logins) (user : ℕ) : Option (ℕ × Payer) :=
  (s.table .payer).first fun _ p => p.user = some user

def accessiblePayerIds (s : Logins) (user : ℕ) : List ℕ :=
  let own       := (s.payerProfile user).toList.map (·.1)
  let delegated := (s.table .delegation).filter fun _ d => d.proxyUser = user && d.isActive
  own ++ delegated.map (·.2.payer)

-- IsRatepayerOrDelegate
def isRatepayerOrDelegate : ℕ → LoginService Unit :=
  hasPermission [.ratepayer, .ratepayerProxy]

-- RatepayerPortalViewSet.bills
def bills (user : ℕ) : LoginService (List (ℕ × Bill)) := do
  isRatepayerOrDelegate user
  query fun s => (s.table .bill).filter fun _ b =>
    s.councilOf user = some b.council && b.payer ∈ s.accessiblePayerIds user

-- RatepayerPortalViewSet.payments
def payments (user : ℕ) : LoginService (List (ℕ × Payment)) := do
  isRatepayerOrDelegate user
  query fun s => (s.table .payment).filter fun _ q =>
    s.councilOf user = some q.council &&
      ((s.table .bill).get q.bill).any (·.payer ∈ s.accessiblePayerIds user)

-- RatepayerPortalViewSet.receipts
def receipts (user : ℕ) : LoginService (List (ℕ × Receipt)) := do
  isRatepayerOrDelegate user
  query fun s => (s.table .receipt).filter fun _ r =>
    s.councilOf user = some r.council && ((s.table .payment).get r.payment).any fun q =>
      ((s.table .bill).get q.bill).any (·.payer ∈ s.accessiblePayerIds user)

end Portal

section Delegations

-- The payer of a ratepayer who manages the delegations.
def managedPayer (user : ℕ) : LoginService (ℕ × Payer) := do
  isRatepayerOrDelegate user
  let level ← query fun s => s.toDb.accessLevel user
  require (level = some .ratepayer) <|
    .response 403 "Only the ratepayer themselves may manage delegations."
  match ← query fun s => s.payerProfile user with
  | some payer => return payer
  | none       => refuse <| .response 400 "No linked payer account."

def activeDelegation (s : Logins) (payer proxyUser : ℕ) : Option (ℕ × PayerDelegation) :=
  (s.table .delegation).first fun _ d => d.payer = payer && d.proxyUser = proxyUser && d.isActive

def proxyByEmail (fw : AuthFramework) (s : Logins) (council : ℕ) (email : String) : Option (ℕ × Login) :=
  (s.table .user).first fun k a => fw.upper a.email = fw.upper email &&
    s.toDb.accessLevel k = some .ratepayerProxy && a.council = some council

-- RatepayerPortalViewSet.delegations: the delegations of the ratepayer.
def delegations (user : ℕ) : LoginService (List (ℕ × PayerDelegation)) := do
  let (payer, _) ← managedPayer user
  query fun s => (s.table .delegation).filter fun _ d => d.payer = payer && d.isActive

-- The accepted actions on delegations.
structure Verdict where
  payer   : ℕ
  proxy   : ℕ
  actor   : ℕ
  granted : Bool
deriving DecidableEq

-- RatepayerPortalViewSet.delegations, when it is posted to.
def delegate (fw : AuthFramework) (now user : ℕ) (proxyEmail : String) : LoginService Verdict := do
  let (payer, row) ← managedPayer user
  let email := strip proxyEmail
  require (email ≠ "") <| .validationError "proxy_email" "This field may not be blank."
  require (fw.isEmail email) <| .validationError "proxy_email" "Enter a valid email address."
  let some (proxy, _) ← query fun s => s.proxyByEmail fw row.council email
    | refuse <| .response 400 "No ratepayer-proxy account found with that email."
  if (← query fun s => s.activeDelegation payer proxy).isSome then return ⟨payer, proxy, user, true⟩
  let _ ← create (R := logins) .delegation {
    council := row.council, payer, proxyUser := proxy, grantedBy := user, grantedAt := now, revokedAt := none }
  return ⟨payer, proxy, user, true⟩

theorem dropping_revoked {now : ℕ} :
    logins.Dropping .delegation fun d : PayerDelegation => { d with revokedAt := some now } where
  keys d  := by simp [loginKeys, PayerDelegation.isActive]
  fixed _ := rfl

-- RatepayerPortalViewSet.revoke_delegation
def revokeDelegation (now user pk : ℕ) : LoginService Verdict := do
  isRatepayerOrDelegate user
  let level ← query fun s => s.toDb.accessLevel user
  require (level = some .ratepayer) <|
    .response 403 "Only the ratepayer themselves may revoke a delegation."
  let payer ← query fun s => (s.payerProfile user).map (·.1)
  let some d ← query fun s => ((s.table .delegation).get pk).filter fun d => payer = some d.payer && d.isActive
    | refuse <| .response 404 "Delegation not found."
  close (R := logins) .delegation pk (fun d => { d with revokedAt := some now }) dropping_revoked
  return ⟨d.payer, d.proxyUser, user, false⟩

-- PayerViewSet.destroy: the delegations go with the payer.
def destroyPayer (user pk : ℕ) : LoginService Unit := do
  hasPermission [.councilAdmin] user
  let some payer ← query fun s => ((s.table .payer).get pk).filter (s.payerInQueryset user)
    | refuse .notFound
  let billed ← query fun s => (s.table .bill).first (fun _ b => b.payer = pk) |>.isSome
  require (billed = false) <| .response 409
    (payer.payerRef ++ " has bills on record and can't be deleted — this preserves the billing history.")
  let firm ← query fun s => (s.table .consultant).first fun _ c => c.registrationPayer = some pk
  require (firm = none) .protectedError
  let granted ← query fun s => ((s.table .delegation).filter fun _ d => d.payer = pk).map (·.1)
  granted.forM fun d => remove (R := logins) .delegation d
  remove (R := logins) .payer pk

end Delegations

end Logins

-- The requests that change the logins and who may read what.
inductive LoginRequest where
  | createStakeholder (user : ℕ) (data : Onboarding)
  | revenueOfficers (user pk : ℕ) (data : Onboarding)
  | createManager (pk : ℕ) (email : String) (password : Option String) (fullName : String)
  | createAgent (user : ℕ) (consultantId assignedWard : Option ℕ) (data : Onboarding)
  | inviteRatepayer (user pk : ℕ) (email password : String)
  | updateMe (user : ℕ) (data : Logins.ProfileUpdate)
  | changePassword (user : ℕ) (currentPassword newPassword : String)
  | deactivateStakeholder (user pk : ℕ)
  | deactivateRevenueOfficer (user pk officerId : ℕ)
  | delegate (user : ℕ) (proxyEmail : String)
  | revokeDelegation (user pk : ℕ)
  | destroyPayer (user pk : ℕ)

namespace LoginRequest

open Logins

variable (fw : AuthFramework) (secrets : Secrets) (now : ℕ)

def serve : LoginRequest → LoginService (Option Verdict)
  | createStakeholder user data                 => do
    let _ ← Logins.createStakeholder fw secrets user data
    return none
  | revenueOfficers user pk data                => do
    let _ ← Logins.revenueOfficers fw secrets user pk data
    return none
  | createManager pk email password fullName    => do
    let _ ← Prog.atomic <| Logins.createManager fw secrets pk email password fullName
    return none
  | createAgent user consultantId ward data     => do
    let _ ← Logins.createAgent fw secrets user consultantId ward data
    return none
  | inviteRatepayer user pk email password      => do
    let _ ← Logins.inviteRatepayer fw secrets user pk email password
    return none
  | updateMe user data                          => do Logins.updateMe fw user data; return none
  | changePassword user current new             => do Logins.changePassword fw secrets user current new; return none
  | deactivateStakeholder user pk               => do Logins.deactivateStakeholder user pk; return none
  | deactivateRevenueOfficer user pk officerId  => do Logins.deactivateRevenueOfficer user pk officerId; return none
  | delegate user proxyEmail                    => some <$> Logins.delegate fw now user proxyEmail
  | revokeDelegation user pk                    => some <$> Logins.revokeDelegation now user pk
  | destroyPayer user pk                        => do Prog.atomic <| Logins.destroyPayer user pk; return none

-- The middleware commits what a request has written before it was refused, unless the database has given
-- up the transaction.
def respond (r : LoginRequest) : LoginService (Option Verdict) := do
  match ← (r.serve fw secrets now).attempt with
  | .ok verdict => return verdict
  | .error e    => if e.aborted then .raise e else return none

end LoginRequest

-- What the other requests change: they register payers, and leave alone who these are.
structure Logins.Elsewhere (s t : Logins) : Prop where
  same  : ∀ {n}, n ∈ [LoginName.role, .user, .delegation] → t.table n = s.table n
  payer : ∀ {k p}, (t.table .payer).get k = some p → p.user = none ∨
    ∃ q, (s.table .payer).get k = some q ∧ q.user = p.user ∧ q.council = p.council
  kept  : ∀ {k q}, (s.table .payer).get k = some q →
    ∃ p, (t.table .payer).get k = some p ∧ p.user = q.user ∧ p.council = q.council
  fresh : ∀ {k p}, (t.table .payer).get k = some p → (s.table .payer).get k = none → k ∉ s.retired .payer
  gone  : ∀ {k}, k ∈ s.retired .payer → k ∈ t.retired .payer

-- The requests are served one after the other, with the accepted actions on delegations, the last first.
inductive Logins.Served (fw : AuthFramework) (s : Logins) : List Verdict → Logins → Prop
  | start : Served fw s [] s
  | serve {verdicts t u n m out} (secrets : Secrets) (now : ℕ) (r : LoginRequest) :
    Served fw s verdicts t → (r.respond fw secrets now).call t n = (out, u, m) →
    Served fw s (out.toOption.join.toList ++ verdicts) u
  | elsewhere {verdicts t u} : Served fw s verdicts t → t.Elsewhere u → Served fw s verdicts u

end ACRev360
