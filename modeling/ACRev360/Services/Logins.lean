import ACRev360.Library.Search
import ACRev360.Library.Words
import ACRev360.Objects.Logins
import ACRev360.Services.Scoping
import ACRev360.Services.Names

namespace ACRev360

open Relational

-- What the logins rely on that is not in the repository: the texts of Python and of the database, whose
-- UPPER decides `iexact`, and Django's validators and hashes.
structure AuthFramework where
  lower                 : String → String
  upper                 : String → String
  isEmail               : String → Bool
  passwordError         : String → Option String
  makePassword          : String → String → String
  checkPassword         : String → String → Bool
  enforcePasswordPolicy : Bool

-- What `secrets` hands out to a request.
structure Secrets where
  password : String
  salt     : String

-- What an onboarding form has besides what is particular to it. The texts have been stripped.
structure Onboarding where
  email    : String
  password : Option String
  fullName : String
  phone    : String
  address  : String

namespace Logins

abbrev query {α : Type} (f : Logins → α) : LoginService α :=
  select f []

-- The request is refused if the condition does not hold.
def require (c : Prop) [Decidable c] (e : LoginError) : LoginService Unit :=
  if c then return () else refuse e

section Usernames

def usernameSafe (c : Char) : Bool :=
  c.isLower || c.isDigit || c ∈ ['.', '_', '-']

-- The name without a suffix: the safe characters of the local part of an email.
def usernameBase (lower : String → String) (email : String) : String :=
  let localPart := strip <| String.ofList <| email.toList.takeWhile (· ≠ '@')
  let safe      := (lower localPart).toList.filter usernameSafe
  let base      := (Words.trim (· ∈ ['.', '_', '-']) safe).take 55
  if base = [] then "user" else String.ofList base

def candidate (base : String) (suffix : ℕ) : String :=
  if suffix = 1 then base else base ++ toString suffix

def usernameTaken (s : Logins) (username : String) : Bool :=
  (s.table .user).first (fun _ a => a.username = username) |>.isSome

-- derive_username_from_email: the loop goes on while the name is taken.
def deriveUsername (lower : String → String) (s : Logins) (email : String) : String :=
  let name := candidate (usernameBase lower email)
  name <| firstFree (fun suffix => s.usernameTaken (name suffix)) (s.table .user).rows.length 1

end Usernames

def councilOf (s : Logins) (user : ℕ) : Option ℕ :=
  ((s.table .user).get user).bind (·.council)

-- HasAccessLevel.has_permission, for the user that a token names.
def hasPermission (levels : List AccessLevel) (user : ℕ) : LoginService Unit := do
  let account ← query fun s => (s.table .user).get user
  require (account.any (·.isActive)) .notAuthenticated
  let level ← query fun s => s.toDb.accessLevel user
  require (level.any (· ∈ levels)) .permissionDenied

variable (fw : AuthFramework)

def emailTaken (s : Logins) (email : String) : Bool :=
  (s.table .user).first (fun _ a => fw.upper a.email = fw.upper email) |>.isSome

-- An EmailField with `validate_unique_email`. Of several messages, the response has the first one here.
def emailField (field email : String) : LoginService String := do
  let email := strip email
  require (email ≠ "") <| .validationError field "This field may not be blank."
  let taken ← query fun s => s.emailTaken fw email
  require (taken = false) <| .validationError field "This email is already in use."
  require (fw.isEmail email) <| .validationError field "Enter a valid email address."
  return email

-- A CharField with `validate_account_password`
def passwordField (field password : String) : LoginService String := do
  let password := strip password
  require (password ≠ "") <| .validationError field "This field may not be blank."
  match fw.passwordError password with
  | none         => return password
  | some message => refuse <| .validationError field message

def optionalPassword (field : String) : Option String → LoginService (Option String)
  | none          => return none
  | some password => some <$> passwordField fw field password

-- The password, and whether it must be changed.
def provisionPassword (secrets : Secrets) (explicit : Option String) : String × Bool :=
  if fw.enforcePasswordPolicy && explicit.isNone then (secrets.password, true)
  else (explicit.getD "acrev360-2026", false)

def getOrCreateRole (name : String) (accessLevel : AccessLevel) : LoginService ℕ := do
  let find (s : Logins) := (s.table .role).first (fun _ r => r.name = name) |>.map (·.1)
  if let some k ← query find then return k
  match ← (create (R := logins) .role ⟨name, accessLevel⟩).atomic.attempt with
  | .ok k => return k
  | .error e =>
    if e.error ≠ .integrityError then .raise e
    match ← query find with
    | some k => return k
    | none   => .raise e

-- A text on its way into a column of at most `width` characters. It does not end with spaces.
def fits (width : ℕ) (text : String) : LoginService Unit :=
  if text.length ≤ width then return () else abort .dataError

-- AppUserManager.create_user
def createUser (secrets : Secrets) (a : Login) : LoginService ℕ := do
  require (a.username ≠ "") .valueError
  fits 64 a.username
  fits 160 a.fullName
  fits 254 a.email
  fits 32 a.phone
  create (R := logins) .user { a with password := fw.makePassword secrets.salt a.password }

-- The login with a username of its own.
def createLogin (secrets : Secrets) (a : Login) : LoginService ℕ := do
  let username ← query fun s => s.deriveUsername fw.lower a.email
  createUser fw secrets { a with username }

section Onboard

-- What the onboarding of a login begins with: the fields that decide whether it is made, and its role.
def onboard (secrets : Secrets) (role : String) (accessLevel : AccessLevel) (council consultant : Option ℕ)
    (data : Onboarding) : LoginService Login := do
  let email ← emailField fw "email" data.email
  let password ← optionalPassword fw "password" data.password
  let role ← getOrCreateRole role accessLevel
  let (password, mustChangePassword) := provisionPassword fw secrets password
  return {
    username   := "", email, password, council, consultant, mustChangePassword
    fullName   := data.fullName
    phone      := data.phone
    role       := some role
    isActive   := true
  }

-- StakeholderViewSet.perform_create
def createStakeholder (secrets : Secrets) (user : ℕ) (data : Onboarding) : LoginService ℕ := do
  hasPermission [.councilAdmin, .councilIt] user
  let council ← query fun s => s.councilOf user
  let a ← onboard fw secrets "STAKEHOLDER" .globalView council none data
  Prog.atomic do
    let k ← createLogin fw secrets a
    let _ ← create (R := logins) .stakeholder ⟨k, data.address⟩
    return k

def firmInQueryset (s : Logins) (user : ℕ) (firm : SubConsultant) : Bool :=
  s.councilOf user = some firm.council

-- SubConsultantViewSet.revenue_officers
def revenueOfficers (secrets : Secrets) (user pk : ℕ) (data : Onboarding) : LoginService ℕ := do
  hasPermission [.councilAdmin, .councilIt] user
  let some firm ← query fun s => ((s.table .consultant).get pk).filter (s.firmInQueryset user)
    | refuse .notFound
  let a ← onboard fw secrets "REVENUE_OFFICER" .revenueOfficer (some firm.council) (some pk) data
  Prog.atomic do
    let k ← createLogin fw secrets a
    let _ ← create (R := logins) .revenueOfficer ⟨k, data.address⟩
    return k

-- The login that SubConsultantViewSet.perform_create makes for the manager of a firm it has saved.
def createManager (secrets : Secrets) (pk : ℕ) (managerEmail : String) (managerPassword : Option String)
    (managerFullName : String) : LoginService ℕ := do
  let email ← emailField fw "manager_email" managerEmail
  let password ← optionalPassword fw "manager_password" managerPassword
  require (managerFullName ≠ "") <|
    .validationError "manager_full_name" "Required when manager_email is given."
  let some firm ← query fun s => (s.table .consultant).get pk | refuse .notFound
  let role ← getOrCreateRole "CONSULTANT_MANAGER" .consultant
  let (password, mustChangePassword) := provisionPassword fw secrets password
  createLogin fw secrets {
    username   := "", email, password, mustChangePassword
    fullName   := managerFullName
    phone      := ""
    council    := some firm.council
    consultant := some pk
    role       := some role
    isActive   := true
  }

def pad (width : ℕ) (n : ℕ) : String :=
  let digits := toString n
  String.ofList (List.replicate (width - digits.length) '0') ++ digits

def agentCode (seq : ℕ) : String :=
  "AGT-" ++ pad 5 seq

-- Each attempt is rolled back as a whole if the code is not unique.
def allocateAgent (secrets : Secrets) (council : ℕ) (assignedWard : Option ℕ) (a : Login) :
    ℕ → ℕ → LoginService ℕ
  | 0, _ => refuse <| .validationError "agent_code" "Could not allocate a unique agent code — contact support."
  | tries + 1, seq => do
    let make : LoginService ℕ := do
      let k ← createLogin fw secrets a
      create (R := logins) .fieldAgent { council, user := k, assignedWard, agentCode := agentCode seq }
    match ← make.atomic.attempt with
    | .ok k    => return k
    | .error e =>
      if e.error ≠ .integrityError then .raise e
      allocateAgent secrets council assignedWard a tries (seq + 1)

def isActiveFirm (s : Logins) (pk : ℕ) : Bool :=
  ((s.table .consultant).get pk).any (·.status = .active)

def agentsOf (s : Logins) (council : ℕ) : List (ℕ × CodedAgent) :=
  (s.table .fieldAgent).filter fun _ a => a.council = council

-- FieldAgentViewSet.perform_create
def createAgent (secrets : Secrets) (user : ℕ) (consultantId assignedWard : Option ℕ) (data : Onboarding) :
    LoginService ℕ := do
  hasPermission [.councilAdmin, .consultant, .councilIt] user
  let some council ← query fun s => s.councilOf user | refuse .integrityError
  let a ← onboard fw secrets "FIELD_AGENT" .agent (some council) none data
  let consultant ←
    if (← query fun s => s.toDb.accessLevel user) = some .consultant then do
      let firm ← query fun s => s.toDb.firmOf user
      let active ← query fun s => firm.any s.isActiveFirm
      require active <| .validationError "consultant_id"
        "Your consultant firm must be ACTIVE before onboarding field agents."
      pure firm
    else do
      require (consultantId.any (· ≠ 0)) <|
        .validationError "consultant_id" "Every agent must be assigned to a consultant."
      let active ← query fun s => consultantId.any fun k => s.isActiveFirm k &&
        ((s.table .consultant).get k).any (·.council = council)
      require active <| .validationError "consultant_id" "Not a valid active consultant for this council."
      pure consultantId
  let nextSeq ← query fun s => (s.agentsOf council).length + 1
  allocateAgent fw secrets council assignedWard { a with consultant } 20 nextSeq

def payerInQueryset (s : Logins) (user : ℕ) (payer : Payer) : Bool :=
  s.councilOf user = some payer.council && portfolioFilter s.toDb user payer

-- PayerViewSet.invite_ratepayer
def inviteRatepayer (secrets : Secrets) (user pk : ℕ) (email password : String) : LoginService ℕ := do
  hasPermission [.councilAdmin, .councilIt, .agent] user
  let some payer ← query fun s => ((s.table .payer).get pk).filter (s.payerInQueryset user)
    | refuse .notFound
  require (payer.user = none) <| .response 409 (payer.payerRef ++ " already has a ratepayer login.")
  let email ← emailField fw "email" email
  let password ← passwordField fw "password" password
  let role ← getOrCreateRole "RATEPAYER" .ratepayer
  let k ← createLogin fw secrets {
    username   := "", email, password
    fullName   := payer.fullName
    phone      := ""
    council    := some payer.council
    consultant := none
    role       := some role
    isActive   := true
    mustChangePassword := false
  }
  replace (R := logins) .payer pk fun p => { p with user := some k }
  return k

end Onboard

section Profiles

def emailTakenByOther (s : Logins) (user : ℕ) (email : String) : Bool :=
  (s.table .user).first (fun k a => k ≠ user && fw.upper a.email = fw.upper email) |>.isSome

-- The email of UpdateProfileSerializer: the column is unique as it is, and then `iexact`.
def profileEmail (user : ℕ) (email : String) : LoginService String := do
  let email := strip email
  require (email ≠ "") <| .validationError "email" "This field may not be blank."
  require (email.length ≤ 254) <| .validationError "email" "Ensure this field has no more than 254 characters."
  require (fw.isEmail email) <| .validationError "email" "Enter a valid email address."
  let used ← query fun s => (s.table .user).first (fun k a => k ≠ user && a.email = email) |>.isSome
  require (used = false) <| .validationError "email" "app user with this email already exists."
  let taken ← query fun s => s.emailTakenByOther fw user email
  require (taken = false) <| .validationError "email" "This email is already in use."
  return email

def newEmail (user : ℕ) : Option String → LoginService (Option String)
  | none       => return none
  | some email => some <$> profileEmail fw user email

structure ProfileUpdate where
  fullName        : Option String
  email           : Option String
  phone           : Option String
  currentPassword : Option String

-- MeView.update
def updateMe (user : ℕ) (data : ProfileUpdate) : LoginService Unit := do
  let some me ← query fun s => ((s.table .user).get user).filter (·.isActive) | refuse .notAuthenticated
  let fullName := data.fullName.map strip
  require (fullName ≠ some "") <| .validationError "full_name" "This field may not be blank."
  require (fullName.all (·.length ≤ 160)) <|
    .validationError "full_name" "Ensure this field has no more than 160 characters."
  let email ← newEmail fw user data.email
  let phone := data.phone.map strip
  require (phone.all (·.length ≤ 32)) <|
    .validationError "phone" "Ensure this field has no more than 32 characters."
  let currentPassword := (data.currentPassword.map strip).filter (· ≠ "")
  let moved := email.any fun e => fw.lower (strip e) ≠ fw.lower (strip me.email)
  require (moved → currentPassword.any (fw.checkPassword · me.password)) <|
    .validationError "current_password" "Enter your current password to change your login email."
  replace (R := logins) .user user fun a =>
    { a with fullName := fullName.getD a.fullName, email := email.getD a.email, phone := phone.getD a.phone }

-- ChangePasswordView.post
def changePassword (secrets : Secrets) (user : ℕ) (currentPassword newPassword : String) : LoginService Unit := do
  let some me ← query fun s => ((s.table .user).get user).filter (·.isActive) | refuse .notAuthenticated
  let newPassword ← passwordField fw "new_password" newPassword
  require (fw.checkPassword (strip currentPassword) me.password) <|
    .response 400 "Current password is incorrect"
  save (R := logins) .user user fun a =>
    { a with password := fw.makePassword secrets.salt newPassword, mustChangePassword := false }

def deactivateUser (pk : ℕ) : LoginService Unit :=
  save (R := logins) .user pk fun a => { a with isActive := false }

-- StakeholderViewSet.deactivate
def deactivateStakeholder (user pk : ℕ) : LoginService Unit := do
  hasPermission [.councilAdmin, .councilIt] user
  let inQueryset (s : Logins) (a : Login) := a.council = s.councilOf user && s.toDb.accessLevel pk = some .globalView
  let some stakeholder ← query fun s => ((s.table .user).get pk).filter (inQueryset s) | refuse .notFound
  if stakeholder.isActive then deactivateUser pk

-- SubConsultantViewSet.deactivate_revenue_officer
def deactivateRevenueOfficer (user pk officerId : ℕ) : LoginService Unit := do
  hasPermission [.councilAdmin, .councilIt] user
  let some _ ← query fun s => ((s.table .consultant).get pk).filter (s.firmInQueryset user) | refuse .notFound
  let isOfficer (s : Logins) (a : Login) := a.consultant = some pk && s.toDb.accessLevel officerId = some .revenueOfficer
  let some officer ← query fun s => ((s.table .user).get officerId).filter (isOfficer s) | refuse .notFound
  if officer.isActive then deactivateUser officerId

end Profiles

section Login

-- ModelBackend.authenticate
def authenticate (s : Logins) (username password : String) : Option ℕ :=
  match (s.table .user).first fun _ a => a.username = username with
  | some (k, a) => if fw.checkPassword password a.password && a.isActive then some k else none
  | none        => none

-- AppTokenObtainPairSerializer.validate: the account that signs in.
def validate (s : Logins) (email password : String) : Option ℕ :=
  let user := if email = "" then none else (s.table .user).first fun _ a => fw.upper a.email = fw.upper email
  s.authenticate fw ((user.map (·.2.username)).getD email) password

end Login

end Logins

end ACRev360
