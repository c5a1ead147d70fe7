import ACRev360.Library.Replace
import ACRev360.Objects.Schema

namespace ACRev360

-- The columns of an AppUser that only the services of the logins read.
structure Login extends AppUser where
  phone              : String
  isActive           : Bool
  mustChangePassword : Bool
deriving DecidableEq

structure CodedAgent extends FieldAgent where
  agentCode : String
deriving DecidableEq

-- StakeholderProfile and RevenueOfficerProfile
structure Profile where
  user    : ℕ
  address : String
deriving DecidableEq

structure PayerDelegation where
  council   : ℕ
  payer     : ℕ
  proxyUser : ℕ
  grantedBy : ℕ
  grantedAt : ℕ
  revokedAt : Option ℕ
deriving DecidableEq

def PayerDelegation.isActive (d : PayerDelegation) : Bool :=
  d.revokedAt = none

-- The tables of the logins, and what a ratepayer may read.
inductive LoginName where
  | role | user | consultant | fieldAgent | stakeholder | revenueOfficer | payer | delegation | bill
  | payment | receipt
deriving DecidableEq

abbrev LoginRec : LoginName → Type
  | .role           => AppRole
  | .user           => Login
  | .consultant     => SubConsultant
  | .fieldAgent     => CodedAgent
  | .stakeholder    => Profile
  | .revenueOfficer => Profile
  | .payer          => Payer
  | .delegation     => PayerDelegation
  | .bill           => Bill
  | .payment        => Payment
  | .receipt        => Receipt

inductive LoginKey where
  | roleName (name : String)
  | username (username : String)
  | email (email : String)
  | fieldAgent (user : ℕ)
  | agentCode (council : ℕ) (agentCode : String)
  | stakeholder (user : ℕ)
  | revenueOfficer (user : ℕ)
  | payerLogin (user : ℕ)
  | activeDelegation (payer proxyUser : ℕ)
deriving DecidableEq

abbrev loginKeys : (t : LoginName) → LoginRec t → List LoginKey
  | .role, r           => [.roleName r.name]
  | .user, r           => [.username r.username, .email r.email]
  | .fieldAgent, r     => [.fieldAgent r.user, .agentCode r.council r.agentCode]
  | .stakeholder, r    => [.stakeholder r.user]
  | .revenueOfficer, r => [.revenueOfficer r.user]
  | .payer, r          => r.user.toList.map .payerLogin
  | .delegation, r     => if r.isActive then [.activeDelegation r.payer r.proxyUser] else []
  | .consultant, _ | .bill, _ | .payment, _ | .receipt, _ => []

abbrev loginRefs : (t : LoginName) → LoginRec t → List (LoginName × ℕ)
  | .user, r           => r.role.toList.map (.role, ·) ++ r.consultant.toList.map (.consultant, ·)
  | .consultant, r     => r.registrationPayer.toList.map (.payer, ·)
  | .fieldAgent, r     => [(.user, r.user)]
  | .stakeholder, r    => [(.user, r.user)]
  | .revenueOfficer, r => [(.user, r.user)]
  | .payer, r          => (.user, r.enumeratedBy) :: r.assignedAgent.toList.map (.user, ·)
      ++ r.user.toList.map (.user, ·)
  | .delegation, r     => [(.payer, r.payer), (.user, r.proxyUser), (.user, r.grantedBy)]
  | .bill, r           => [(.payer, r.payer), (.user, r.issuedBy)] ++ r.supersededBy.toList.map (.bill, ·)
  | .payment, r        => (.bill, r.bill) :: r.postedBy.toList.map (.user, ·)
  | .receipt, r        => [(.payment, r.payment)]
  | .role, _           => []

-- The texts of the refusals are those of the responses.
inductive LoginError where
  | validationError (field message : String)
  | response (status : ℕ) (error : String)
  | valueError
  | notAuthenticated
  | permissionDenied
  | notFound
  | protectedError
  | dataError
  | databaseError
  | integrityError
deriving DecidableEq

abbrev logins : Relational where
  Name      := LoginName
  names     := [.role, .user, .consultant, .fieldAgent, .stakeholder, .revenueOfficer, .payer, .delegation,
    .bill, .payment, .receipt]
  mem_names t := by cases t <;> simp
  Rec       := LoginRec
  Key       := LoginKey
  keys      := loginKeys
  refs      := loginRefs
  Fixed _   := Unit
  fixed _ _ := ()
  Facet     := Empty
  Obs       := Empty.elim
  of        := Empty.elim
  obs f     := f.elim
  Error     := LoginError
  integrityError := .integrityError
  databaseError  := .databaseError

abbrev Logins := logins.Database

abbrev LoginService (α : Type) := Prog logins.schema α

-- The tables as the other services have them.
def Logins.toDb (s : Logins) : Db where
  table
    | .role       => s.table .role
    | .user       => (s.table .user).map (·.toAppUser)
    | .consultant => s.table .consultant
    | .fieldAgent => (s.table .fieldAgent).map (·.toFieldAgent)
    | .payer      => s.table .payer
    | .bill       => s.table .bill
    | .payment    => s.table .payment
    | .receipt    => s.table .receipt
    | _           => .empty
  retired _ := []

end ACRev360
