import ACRev360.Library.Newest
import ACRev360.Services.PlatformScope

namespace ACRev360

structure AuditLog where
  council    : ℕ
  action     : String
  entityType : String
  entityId   : String
  actor      : Option ℕ
  createdAt  : Instant
deriving DecidableEq

-- The committed events of all councils, with the usernames of those who are their actors.
structure AuditTrail extends Platform where
  events    : Table AuditLog
  usernames : Table String

namespace AuditTrail

variable (p : AuditTrail) (icontains : String → String → Bool)

def matchesQ (q : Option String) (r : AuditLog) : Bool :=
  (q.filter (· ≠ "")).all fun q =>
    (r.actor.bind p.usernames.get).any (icontains · q) || icontains r.action q || icontains r.entityType q

-- The 300 latest events of a council, in a session that sees the events of `seen`.
def perCouncil (q : Option String) (council : ℕ) (seen : CouncilId) : List (ℕ × AuditLog) :=
  Newest.newest (·.2.createdAt) 300 <| p.events.filter fun _ r =>
    seen = some r.council && r.council = council && p.matchesQ icontains q r

-- AuditLogViewSet.get_queryset
def getQueryset (now : Instant) (user : ℕ) (level : AccessLevel) (council : Option ℕ) (q : Option String) :
    Handler Error (List (ℕ × AuditLog)) :=
  match council with
  | none         =>
    platformWideQueryset (fun council => .query fun seen => .ret <| p.perCouncil icontains q council seen)
      (fun results => .ret <| Newest.newest (·.2.createdAt) 300 results.flatten)
      (p.accessibleCouncilIds now user level) []
  | some council => .query fun seen => .ret <| p.perCouncil icontains q council seen

end AuditTrail

end ACRev360
