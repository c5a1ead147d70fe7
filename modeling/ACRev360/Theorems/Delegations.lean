import ACRev360.Theorems.Logins

namespace ACRev360

open Relational Relational.Database

namespace Logins

variable {fw : AuthFramework} {s s₀ t : Logins} {verdicts : List Verdict} {v : Option Verdict} {w : Verdict}
  {k payer proxy user : ℕ}

-- What was decided last about a proxy's access to a payer.
def lastWord (verdicts : List Verdict) (payer proxy : ℕ) : Bool :=
  verdicts.find? (fun v => v.payer = payer && v.proxy = proxy) |>.any (·.granted)

@[simp]
theorem lastWord_nil : lastWord [] payer proxy = false :=
  rfl

theorem lastWord_cons : lastWord (w :: verdicts) payer proxy =
    if w.payer = payer ∧ w.proxy = proxy then w.granted else lastWord verdicts payer proxy := by
  rw [lastWord, List.find?_cons]
  split
  case h_1 h => rw [if_pos (by simpa using h), Option.any_some]
  case h_2 h => rw [if_neg (by simpa using h), lastWord]

theorem exists_of_lastWord (h : lastWord verdicts payer proxy) : ∃ v ∈ verdicts, v.payer = payer := by
  obtain ⟨v, hv, _⟩ := Option.any_eq_true _ _ |>.mp h
  have hmatch := List.find?_some hv
  simp only [Bool.and_eq_true, decide_eq_true_eq] at hmatch
  exact ⟨v, List.mem_of_find?_eq_some hv, hmatch.1⟩

section AccessLevels

theorem accessLevel_eq : s.toDb.accessLevel user = ((s.table .user).get user).bind fun a =>
    a.role.bind fun r => ((s.table .role).get r).map (·.accessLevel) := by
  simp only [Db.accessLevel, toDb, Table.get_map]
  cases (s.table .user).get user with
  | none => rfl
  | some a =>
    cases hr : a.role with
    | none => simp [hr]
    | some r => cases hrow : (s.table .role).get r <;> simp [hr, hrow]

-- The logins and the roles that there are keep what decides the access level.
structure Stays (s t : Logins) : Prop where
  user : ∀ {k a}, (s.table .user).get k = some a →
    ∃ b, (t.table .user).get k = some b ∧ b.council = a.council ∧ b.role = a.role
  role : ∀ {k r}, (s.table .role).get k = some r → (t.table .role).get k = some r

theorem Stays.accessLevel {level : AccessLevel} (h : Stays s t) (hl : s.toDb.accessLevel user = some level) :
    t.toDb.accessLevel user = some level := by
  rw [accessLevel_eq] at hl ⊢
  obtain ⟨a, ha, hl⟩ := Option.bind_eq_some_iff.mp hl
  obtain ⟨r, hr, hl⟩ := Option.bind_eq_some_iff.mp hl
  obtain ⟨row, hrow, rfl⟩ := Option.map_eq_some_iff.mp hl
  obtain ⟨b, hb, -, hrole⟩ := h.user ha
  rw [hb, Option.bind_some, hrole, hr, Option.bind_some, h.role hrow, Option.map_some]

theorem Stays.of_same (hu : t.table .user = s.table .user) (hr : t.table .role = s.table .role) : Stays s t where
  user h := ⟨_, hu ▸ h, rfl, rfl⟩
  role h := hr ▸ h

theorem Change.stays (h : Change fw s v t) : Stays s t := by
  cases h with
  | role => exact ⟨fun ha => ⟨_, get_insert_of_some ha, rfl, rfl⟩, get_insert_of_some⟩
  | side => exact ⟨fun ha => ⟨_, get_insert_of_some ha, rfl, rfl⟩, get_insert_of_some⟩
  | login => exact ⟨fun ha => ⟨_, get_insert_of_some ha, rfl, rfl⟩, get_insert_of_some⟩
  | account _ hkept =>
    refine ⟨fun {i a} ha => ?_, fun hr => by rwa [modify_table_ne (by decide)]⟩
    obtain ⟨b, hb, rfl | rfl⟩ := get_modify_of_some ha
    · exact ⟨_, hb, (hkept a).2.1, (hkept a).2.2⟩
    · exact ⟨_, hb, rfl, rfl⟩
  | invite => exact .of_same (modify_table_ne (by decide)) (modify_table_ne (by decide))
  | grant => exact .of_same (insert_table_ne (by decide)) (insert_table_ne (by decide))
  | again => exact .of_same rfl rfl
  | revoke => exact .of_same (modify_table_ne (by decide)) (modify_table_ne (by decide))
  | destroy honly => exact .of_same (honly _ (by decide)) (honly _ (by decide))

end AccessLevels

-- The proxy is a ratepayer's proxy of the council, and so is the payer one of the council.
structure Entitled (d : PayerDelegation) (s : Logins) : Prop where
  payer : ∃ p, (s.table .payer).get d.payer = some p ∧ p.council = d.council
  proxy : ∃ a, (s.table .user).get d.proxyUser = some a ∧ a.council = some d.council
  level : s.toDb.accessLevel d.proxyUser = some .ratepayerProxy

-- The active delegations are those whose last word is a grant.
structure Delegated (verdicts : List Verdict) (s : Logins) : Prop where
  login    : Unique (R := logins) .payer s
  active   : ∀ {i d}, (s.table .delegation).get i = some d → d.isActive → lastWord verdicts d.payer d.proxyUser
  word     : ∀ {payer proxy p}, (s.table .payer).get payer = some p → lastWord verdicts payer proxy →
    ∃ i d, (s.table .delegation).get i = some d ∧ d.isActive ∧ d.payer = payer ∧ d.proxyUser = proxy
  actor    : ∀ v ∈ verdicts, (∃ p, (s.table .payer).get v.payer = some p ∧ p.user = some v.actor) ∨
    (s.table .payer).get v.payer = none ∧ v.payer ∈ s.retired .payer
  entitled : ∀ {i d}, (s.table .delegation).get i = some d → Entitled d s
  single   : Unique (R := logins) .delegation s

theorem eq_of_login {i j : ℕ} {p q : Payer} (h : Unique (R := logins) .payer s)
    (hi : (s.table .payer).get i = some p) (hj : (s.table .payer).get j = some q) (hp : p.user = some user)
    (hq : q.user = some user) : i = j :=
  @h (.payerLogin user) i j ⟨p, hi, by simp [hp]⟩ ⟨q, hj, by simp [hq]⟩

theorem eq_of_active {i j : ℕ} {d e : PayerDelegation} (h : Unique (R := logins) .delegation s)
    (hi : (s.table .delegation).get i = some d) (hj : (s.table .delegation).get j = some e) (hd : d.isActive)
    (he : e.isActive) (hpayer : d.payer = e.payer) (hproxy : d.proxyUser = e.proxyUser) : i = j :=
  @h (.activeDelegation d.payer d.proxyUser) i j ⟨d, hi, by simp [hd]⟩ ⟨e, hj, by simp [he, hpayer, hproxy]⟩

namespace Delegated

theorem entitled_stays {d : PayerDelegation} (h : Entitled d s) (hs : Stays s t)
    (hp : ∀ {p}, (s.table .payer).get d.payer = some p →
      ∃ q, (t.table .payer).get d.payer = some q ∧ q.council = p.council) : Entitled d t where
  payer := by
    obtain ⟨p, hpayer, hc⟩ := h.payer
    obtain ⟨q, hq, hcouncil⟩ := hp hpayer
    exact ⟨q, hq, hcouncil.trans hc⟩
  proxy := by
    obtain ⟨a, ha, hc⟩ := h.proxy
    obtain ⟨b, hb, hcouncil, -⟩ := hs.user ha
    exact ⟨b, hb, hcouncil.trans hc⟩
  level := hs.accessLevel h.level

-- The delegations and the payers are not concerned.
theorem of_same (h : Delegated verdicts s) (hs : Stays s t) (hp : t.table .payer = s.table .payer)
    (hd : t.table .delegation = s.table .delegation) (hr : t.retired = s.retired) : Delegated verdicts t where
  login      := h.login.congr hp
  active     := hd ▸ h.active
  word       := by
    rw [hp, hd]
    exact h.word
  actor      := by
    rw [hp, hr]
    exact h.actor
  entitled hi := entitled_stays (h.entitled <| hd ▸ hi) hs fun hpayer => ⟨_, hp ▸ hpayer, rfl⟩
  single     := h.single.congr hd

theorem grant {now : ℕ} {row : Payer} {a : Login} (h : Delegated verdicts s)
    (hp : (s.table .payer).get payer = some row) (hactor : row.user = some user)
    (ha : (s.table .user).get proxy = some a) (hcouncil : a.council = some row.council)
    (hlevel : s.toDb.accessLevel proxy = some .ratepayerProxy)
    (hc : Database.conflicts s .delegation k ⟨row.council, payer, proxy, user, now, none⟩ = false) :
    Delegated (⟨payer, proxy, user, true⟩ :: verdicts)
      (Database.insert s .delegation k ⟨row.council, payer, proxy, user, now, none⟩) := by
  obtain ⟨hr, hk, _⟩ := conflicts_false hc
  have hpayer : (Database.insert s .delegation k ⟨row.council, payer, proxy, user, now, none⟩).table .payer =
      s.table .payer := insert_table_ne (by decide)
  have hstays : Stays s (Database.insert s .delegation k ⟨row.council, payer, proxy, user, now, none⟩) :=
    .of_same (insert_table_ne (by decide)) (insert_table_ne (by decide))
  constructor
  case login => exact h.login.congr hpayer
  case active =>
    intro i d hd hactive
    rw [lastWord_cons]
    split
    · rfl
    case isFalse hne =>
      rcases get_insert_cases hd with ⟨rfl, rfl⟩ | hd
      · exact absurd ⟨rfl, rfl⟩ hne
      · exact h.active hd hactive
  case word =>
    intro payer' proxy' p hp' hword
    rw [lastWord_cons] at hword
    split at hword
    case isTrue he =>
      obtain ⟨rfl, rfl⟩ := he
      exact ⟨k, _, by rw [insert_table hr, Table.get_insert_self hk], rfl, rfl, rfl⟩
    case isFalse =>
      obtain ⟨i, d, hd, hrest⟩ := h.word (hpayer ▸ hp') hword
      exact ⟨i, d, get_insert_of_some hd, hrest⟩
  case actor =>
    rw [hpayer, insert_retired]
    rintro v (_ | ⟨_, hv⟩)
    · exact .inl ⟨row, hp, hactor⟩
    · exact h.actor v hv
  case entitled =>
    intro i d hd
    have hkept {p : Payer} {j : ℕ} (hj : (s.table .payer).get j = some p) :
        ∃ q, ((Database.insert s .delegation k ⟨row.council, payer, proxy, user, now, none⟩).table .payer).get j =
          some q ∧ q.council = p.council := ⟨p, hpayer ▸ hj, rfl⟩
    rcases get_insert_cases hd with ⟨rfl, rfl⟩ | hd
    · exact entitled_stays ⟨⟨row, hp, rfl⟩, ⟨a, ha, hcouncil⟩, hlevel⟩ hstays hkept
    · exact entitled_stays (h.entitled hd) hstays hkept
  case single => exact h.single.insert hc

-- The delegation is there already.
theorem again {row : Payer} {i : ℕ} {d : PayerDelegation} (h : Delegated verdicts s)
    (hp : (s.table .payer).get payer = some row) (hactor : row.user = some user)
    (hd : (s.table .delegation).get i = some d) (hactive : d.isActive) (hpd : d.payer = payer)
    (hproxy : d.proxyUser = proxy) : Delegated (⟨payer, proxy, user, true⟩ :: verdicts) s where
  login    := h.login
  active he hactive := by
    rw [lastWord_cons]
    split
    · rfl
    · exact h.active he hactive
  word hp' hword := by
    rw [lastWord_cons] at hword
    split at hword
    case isTrue he => exact ⟨i, d, hd, hactive, hpd.trans he.1, hproxy.trans he.2⟩
    case isFalse => exact h.word hp' hword
  actor    := by
    rintro v (_ | ⟨_, hv⟩)
    · exact .inl ⟨row, hp, hactor⟩
    · exact h.actor v hv
  entitled := h.entitled
  single   := h.single

theorem revoke {now : ℕ} {row : Payer} {d : PayerDelegation} (h : Delegated verdicts s)
    (hp : (s.table .payer).get d.payer = some row) (hactor : row.user = some user)
    (hd : (s.table .delegation).get k = some d) (hactive : d.isActive) :
    Delegated (⟨d.payer, d.proxyUser, user, false⟩ :: verdicts)
      (Database.modify s .delegation k fun d => { d with revokedAt := some now }) := by
  have hpayer : (Database.modify s .delegation k
      fun d : PayerDelegation => { d with revokedAt := some now }).table .payer = s.table .payer := modify_table_ne (by decide)
  have hstays : Stays s (Database.modify s .delegation k
      fun d : PayerDelegation => { d with revokedAt := some now }) :=
    .of_same (modify_table_ne (by decide)) (modify_table_ne (by decide))
  -- What is active now was so before, and is another delegation.
  have hold {i : ℕ} {e : PayerDelegation}
      (he : ((Database.modify s .delegation k fun d =>
        { d with revokedAt := some now }).table .delegation).get i = some e)
      (hactive : e.isActive) : i ≠ k ∧ (s.table .delegation).get i = some e := by
    rw [modify_table, Table.get_modify] at he
    split at he
    case isTrue =>
      obtain ⟨_, _, rfl⟩ := Option.map_eq_some_iff.mp he
      simp [PayerDelegation.isActive] at hactive
    case isFalse hne => exact ⟨hne, he⟩
  constructor
  case login => exact h.login.congr hpayer
  case active =>
    intro i e he hactive'
    obtain ⟨hne, he⟩ := hold he hactive'
    rw [lastWord_cons, if_neg]
    · exact h.active he hactive'
    · rintro ⟨hpe, hproxy⟩
      exact hne <| eq_of_active h.single he hd hactive' hactive hpe.symm hproxy.symm
  case word =>
    intro payer' proxy' p hp' hword
    rw [lastWord_cons] at hword
    split at hword
    case isTrue => contradiction
    case isFalse hne =>
      obtain ⟨i, e, he, hactive', hpe, hproxy⟩ := h.word (hpayer ▸ hp') hword
      refine ⟨i, e, ?_, hactive', hpe, hproxy⟩
      rw [modify_table, Table.get_modify, if_neg, he]
      rintro rfl
      obtain rfl := Option.some.inj <| he.symm.trans hd
      exact hne ⟨hpe, hproxy⟩
  case actor =>
    rw [hpayer, modify_retired]
    rintro v (_ | ⟨_, hv⟩)
    · exact .inl ⟨row, hp, hactor⟩
    · exact h.actor v hv
  case entitled =>
    intro i e he
    have hkept {p : Payer} {j : ℕ} (hj : (s.table .payer).get j = some p) : ∃ q, ((Database.modify s .delegation k
        fun d : PayerDelegation => { d with revokedAt := some now }).table .payer).get j = some q ∧
          q.council = p.council := ⟨p, hpayer ▸ hj, rfl⟩
    obtain ⟨e', he', ⟨rfl, rfl⟩ | rfl⟩ := get_modify_cases he
    · obtain ⟨hep, heproxy, helevel⟩ := entitled_stays (h.entitled he') hstays hkept
      exact ⟨hep, heproxy, helevel⟩
    · exact entitled_stays (h.entitled he') hstays hkept
  case single => exact h.single.drop dropping_revoked

-- A payer without a login has no delegations, so nothing has been decided about it.
theorem invite {p : Payer} (h : Delegated verdicts s) (hp : (s.table .payer).get k = some p) (hnone : p.user = none)
    (hc : Database.clashes s .payer k { p with user := some user } = false) :
    Delegated verdicts (Database.modify s .payer k fun p => { p with user := some user }) := by
  have hd : (Database.modify s .payer k fun p : Payer => { p with user := some user }).table .delegation =
      s.table .delegation := modify_table_ne (by decide)
  have hstays : Stays s (Database.modify s .payer k fun p : Payer => { p with user := some user }) :=
    .of_same (modify_table_ne (by decide)) (modify_table_ne (by decide))
  have hget {i : ℕ} {q : Payer} (hq : (s.table .payer).get i = some q) :
      ∃ q', ((Database.modify s .payer k fun p : Payer => { p with user := some user }).table .payer).get i =
        some q' ∧ q'.council = q.council ∧ (i = k ∧ q'.user = some user ∨ i ≠ k ∧ q' = q) := by
    rw [modify_table, Table.get_modify]
    split
    case isTrue hi => exact ⟨{ q with user := some user }, by rw [← hi, hq]; rfl, rfl, .inl ⟨hi, rfl⟩⟩
    case isFalse hi => exact ⟨q, hq, rfl, .inr ⟨hi, rfl⟩⟩
  constructor
  case login => exact h.login.replace hp hc
  case active => exact hd ▸ h.active
  case word =>
    intro payer proxy q hq hword
    obtain ⟨q', hq', _⟩ := get_modify_cases hq
    rw [hd]
    exact h.word hq' hword
  case actor =>
    intro v hv
    rcases h.actor v hv with ⟨q, hq, hactor⟩ | ⟨hgone, hretired⟩
    · obtain ⟨q', hq', -, ⟨rfl, _⟩ | ⟨_, rfl⟩⟩ := hget hq
      · obtain rfl := Option.some.inj <| hq.symm.trans hp
        rw [hnone] at hactor
        contradiction
      · exact .inl ⟨_, hq', hactor⟩
    · refine .inr ⟨?_, hretired⟩
      rw [modify_table, Table.get_modify, hgone]
      split
      case isTrue hi => rw [← hi, hgone]; rfl
      case isFalse => rfl
  case entitled =>
    intro i d hi
    refine entitled_stays (h.entitled <| hd ▸ hi) hstays fun hq => ?_
    obtain ⟨q', hq', hcouncil, -⟩ := hget hq
    exact ⟨q', hq', hcouncil⟩
  case single => exact h.single.congr hd

theorem destroy (h : Delegated verdicts s) (honly : Only [LoginName.payer, LoginName.delegation] s t)
    (hp : t.table .payer = (s.table .payer).erase k)
    (hd : ∀ i d, (t.table .delegation).get i = some d ↔ (s.table .delegation).get i = some d ∧ d.payer ≠ k)
    (hr : ∀ i, i ∈ s.retired .payer ∨ i = k → i ∈ t.retired .payer) : Delegated verdicts t := by
  have hget {i : ℕ} {p : Payer} : (t.table .payer).get i = some p ↔ (s.table .payer).get i = some p ∧ i ≠ k := by
    rw [hp, Table.get_erase]
    split <;> simp_all
  have hstays : Stays s t := .of_same (honly _ (by decide)) (honly _ (by decide))
  constructor
  case login =>
    exact fun _ _ _ ⟨p, hi, hu⟩ ⟨q, hj, hv⟩ => h.login ⟨p, (hget.mp hi).1, hu⟩ ⟨q, (hget.mp hj).1, hv⟩
  case active => exact fun hi => h.active ((hd _ _).mp hi).1
  case word =>
    intro payer proxy p hpayer hword
    obtain ⟨hpayer, hne⟩ := hget.mp hpayer
    obtain ⟨i, d, hi, hactive, hpd, hproxy⟩ := h.word hpayer hword
    exact ⟨i, d, (hd _ _).mpr ⟨hi, hpd ▸ hne⟩, hactive, hpd, hproxy⟩
  case actor =>
    intro v hv
    rcases h.actor v hv with ⟨p, hpayer, hactor⟩ | ⟨hgone, hretired⟩
    · by_cases hk : v.payer = k
      case pos => exact .inr ⟨by rw [hp, hk, Table.get_erase, if_pos rfl], hr _ <| .inr hk⟩
      case neg => exact .inl ⟨p, hget.mpr ⟨hpayer, hk⟩, hactor⟩
    · refine .inr ⟨?_, hr _ <| .inl hretired⟩
      rw [hp, Table.get_erase, hgone, ite_self]
  case entitled =>
    intro i d hi
    obtain ⟨hi, hne⟩ := (hd _ _).mp hi
    exact entitled_stays (h.entitled hi) hstays fun hpayer => ⟨_, hget.mpr ⟨hpayer, hne⟩, rfl⟩
  case single =>
    rintro _ _ _ ⟨d, hi, hu⟩ ⟨e, hj, hv⟩
    exact h.single ⟨d, ((hd _ _).mp hi).1, hu⟩ ⟨e, ((hd _ _).mp hj).1, hv⟩

theorem elsewhere (h : Delegated verdicts s) (he : Elsewhere s t) : Delegated verdicts t := by
  have hd : t.table .delegation = s.table .delegation := he.same (by decide)
  have hstays : Stays s t := .of_same (he.same (by decide)) (he.same (by decide))
  constructor
  case login =>
    have hold {u i} (hi : Holds (R := logins) t u .payer i) : Holds (R := logins) s u .payer i := by
      obtain ⟨p, hp, hu⟩ := hi
      rcases he.payer hp with hnone | ⟨q, hq, huser, -⟩
      · simp [hnone] at hu
      · exact ⟨q, hq, by simpa [huser] using hu⟩
    exact fun _ _ _ hi hj => h.login (hold hi) (hold hj)
  case active => exact hd ▸ h.active
  case word =>
    intro payer proxy p hpayer hword
    rw [hd]
    obtain ⟨v, hv, rfl⟩ := exists_of_lastWord hword
    rcases h.actor v hv with ⟨q, hq, _⟩ | ⟨hgone, hretired⟩
    · exact h.word hq hword
    · exact absurd hretired <| he.fresh hpayer hgone
  case actor =>
    intro v hv
    rcases h.actor v hv with ⟨q, hq, hactor⟩ | ⟨hgone, hretired⟩
    · obtain ⟨p, hp, hpu, -⟩ := he.kept hq
      exact .inl ⟨p, hp, hpu.trans hactor⟩
    · refine .inr ⟨?_, he.gone hretired⟩
      cases hp : (t.table .payer).get v.payer with
      | none => rfl
      | some p => exact absurd hretired <| he.fresh hp hgone
  case entitled =>
    intro i d hi
    refine entitled_stays (h.entitled <| hd ▸ hi) hstays fun hq => ?_
    obtain ⟨p, hp, -, hcouncil⟩ := he.kept hq
    exact ⟨p, hp, hcouncil⟩
  case single => exact h.single.congr hd

theorem change (h : Delegated verdicts s) (hc : Change fw s v t) : Delegated (v.toList ++ verdicts) t := by
  have hprofile {user payer : ℕ} {row : Payer} (hp : s.payerProfile user = some (payer, row)) :
      (s.table .payer).get payer = some row ∧ row.user = some user := by
    simpa using Table.first_some hp
  have hstays := hc.stays
  cases hc with
  | role => exact h.of_same hstays (insert_table_ne (by decide)) (insert_table_ne (by decide)) insert_retired
  | side hn =>
    refine h.of_same hstays (insert_table_ne ?_) (insert_table_ne ?_) insert_retired <;>
    · rintro rfl
      simp at hn
  | login => exact h.of_same hstays (insert_table_ne (by decide)) (insert_table_ne (by decide)) insert_retired
  | account => exact h.of_same hstays (modify_table_ne (by decide)) (modify_table_ne (by decide)) modify_retired
  | invite hp hnone hc => exact h.invite hp hnone hc
  | grant hp ha hcouncil hlevel hc =>
    obtain ⟨hp, hactor⟩ := hprofile hp
    exact h.grant hp hactor ha hcouncil hlevel hc
  | again hp hd =>
    obtain ⟨hp, hactor⟩ := hprofile hp
    obtain ⟨⟨i, d⟩, hd⟩ := Option.isSome_iff_exists.mp hd
    obtain ⟨hd, hmatch⟩ := Table.first_some hd
    simp only [Bool.and_eq_true, decide_eq_true_eq] at hmatch
    exact h.again hp hactor hd hmatch.2 hmatch.1.1 hmatch.1.2
  | revoke hp hd hactive =>
    obtain ⟨hp, hactor⟩ := hprofile hp
    exact h.revoke hp hactor hd hactive
  | destroy honly hp hd hr => exact h.destroy honly hp hd hr

theorem path {later : List Verdict} (h : Delegated verdicts s) (hp : Path fw s later t) :
    Delegated (later ++ verdicts) t := by
  induction hp with
  | refl => exact h
  | change _ hc hi => exact List.append_assoc .. ▸ hi.change hc

theorem served (h : Delegated [] s₀) (hs : Served fw s₀ verdicts s) : Delegated verdicts s := by
  induction hs with
  | start => exact h
  | serve secrets now r _ hr hi => exact hi.path <| path_of_respond hr
  | elsewhere _ ht hi => exact hi.elsewhere ht

theorem start (h : Unique (R := logins) .payer s) (hnone : s.table .delegation = .empty) : Delegated [] s where
  login           := h
  active hd       := by simp [hnone] at hd
  word _ hword    := by simp at hword
  actor           := by simp
  entitled hd     := by simp [hnone] at hd
  single _ _ _ hi := by
    obtain ⟨d, hd, _⟩ := hi
    simp [hnone] at hd

end Delegated

-- The payers are those of the login, and those that it is the proxy of by the last word.
def MayRead (verdicts : List Verdict) (s : Logins) (user payer : ℕ) : Prop :=
  ∃ p, (s.table .payer).get payer = some p ∧ (p.user = some user ∨ lastWord verdicts payer user)

-- What the portal answers, for every login.
structure Governed (verdicts : List Verdict) (s : Logins) : Prop where
  accessible : ∀ {user payer}, payer ∈ s.accessiblePayerIds user ↔ MayRead verdicts s user payer
  bills      : ∀ {user rows t n m}, (bills user).call s n = (.ok rows, t, m) → t = s ∧ ∀ k b, (k, b) ∈ rows ↔
    (s.table .bill).get k = some b ∧ s.councilOf user = some b.council ∧ MayRead verdicts s user b.payer
  payments   : ∀ {user rows t n m}, (payments user).call s n = (.ok rows, t, m) → t = s ∧ ∀ k q, (k, q) ∈ rows ↔
    (s.table .payment).get k = some q ∧ s.councilOf user = some q.council ∧
      ∃ b, (s.table .bill).get q.bill = some b ∧ MayRead verdicts s user b.payer
  receipts   : ∀ {user rows t n m}, (receipts user).call s n = (.ok rows, t, m) → t = s ∧ ∀ k r, (k, r) ∈ rows ↔
    (s.table .receipt).get k = some r ∧ s.councilOf user = some r.council ∧
      ∃ q, (s.table .payment).get r.payment = some q ∧
        ∃ b, (s.table .bill).get q.bill = some b ∧ MayRead verdicts s user b.payer
  -- Only the login of a payer decides, and for proxies of the same council.
  actor      : ∀ v ∈ verdicts, ∀ p, (s.table .payer).get v.payer = some p → p.user = some v.actor
  proxy      : ∀ {payer proxy p}, (s.table .payer).get payer = some p → lastWord verdicts payer proxy →
    s.toDb.accessLevel proxy = some .ratepayerProxy ∧ s.councilOf proxy = some p.council
  -- There is one active delegation to revoke.
  single     : Unique (R := logins) .delegation s

section Reading

theorem payerProfile_iff {row : Payer} (h : Unique (R := logins) .payer s) : s.payerProfile user = some (payer, row) ↔
    (s.table .payer).get payer = some row ∧ row.user = some user := by
  refine ⟨fun hp => by simpa using Table.first_some hp, fun ⟨hp, hu⟩ => ?_⟩
  cases hq : s.payerProfile user with
  | none =>
    have := Table.first_none hq hp
    simp [hu] at this
  | some q =>
    obtain ⟨i, q⟩ := q
    obtain ⟨hq, hqu⟩ := Table.first_some hq
    obtain rfl := eq_of_login h hq hp (by simpa using hqu) hu
    obtain rfl := Option.some.inj <| hq.symm.trans hp
    rfl

theorem Delegated.accessible (h : Delegated verdicts s) :
    payer ∈ s.accessiblePayerIds user ↔ MayRead verdicts s user payer := by
  simp only [accessiblePayerIds, List.mem_append, List.mem_map, Option.mem_toList, Prod.exists, exists_and_right,
    exists_eq_right, payerProfile_iff h.login, Table.mem_filter_iff, Bool.and_eq_true, decide_eq_true_eq]
  constructor
  case mp =>
    rintro (⟨p, hp, hu⟩ | ⟨i, d, ⟨hd, rfl, hactive⟩, rfl⟩)
    · exact ⟨p, hp, .inl hu⟩
    · obtain ⟨p, hp, _⟩ := (h.entitled hd).payer
      exact ⟨p, hp, .inr <| h.active hd hactive⟩
  case mpr =>
    rintro ⟨p, hp, hu | hword⟩
    · exact .inl ⟨p, hp, hu⟩
    · obtain ⟨i, d, hd, hactive, hpayer, hproxy⟩ := h.word hp hword
      exact .inr ⟨i, d, ⟨hd, hproxy, hactive⟩, hpayer⟩

theorem ok_of_read {α : Type} {f : Logins → α} {out : α} {n m : LoginName → ℕ}
    (h : (isRatepayerOrDelegate user >>= fun _ => query f).call s n = (.ok out, t, m)) : t = s ∧ out = f s := by
  have hread : Prog.Ensures (fun _ => True) (isRatepayerOrDelegate user >>= fun _ => query f) s
      fun out t => t = s ∧ out = f s := by
    refine .seq (ensures_hasPermission (Q := fun _ t => t = s) trivial fun _ => rfl) ?_
    rintro _ _ rfl
    exact ⟨post_select ⟨rfl, rfl⟩⟩
  exact (Prog.call_ok hread.post h).1

end Reading

theorem governed (h : Unique (R := logins) .payer s₀) (hnone : s₀.table .delegation = .empty)
    (hs : Served fw s₀ verdicts s) : Governed verdicts s := by
  have hd := (Delegated.start h hnone).served hs
  constructor
  case accessible => exact hd.accessible
  case bills =>
    intro user t rows n m hcall
    obtain ⟨rfl, rfl⟩ := ok_of_read hcall
    simp [Table.mem_filter_iff, hd.accessible]
  case payments =>
    intro user t rows n m hcall
    obtain ⟨rfl, rfl⟩ := ok_of_read hcall
    simp [Table.mem_filter_iff, hd.accessible, Option.any_eq_true]
  case receipts =>
    intro user t rows n m hcall
    obtain ⟨rfl, rfl⟩ := ok_of_read hcall
    simp [Table.mem_filter_iff, hd.accessible, Option.any_eq_true]
  case actor =>
    intro v hv p hp
    rcases hd.actor v hv with ⟨q, hq, hactor⟩ | ⟨hgone, _⟩
    · obtain rfl := Option.some.inj <| hp.symm.trans hq
      exact hactor
    · rw [hgone] at hp
      contradiction
  case proxy =>
    intro payer proxy p hp hword
    obtain ⟨i, d, hi, _, rfl, rfl⟩ := hd.word hp hword
    obtain ⟨⟨q, hq, hcouncil⟩, ⟨a, ha, hcouncil'⟩, hlevel⟩ := hd.entitled hi
    obtain rfl := Option.some.inj <| hp.symm.trans hq
    exact ⟨hlevel, by simp [councilOf, ha, hcouncil, hcouncil']⟩
  case single => exact hd.single

end Logins

namespace Sample

def neighbour : Login :=
  { clerk with username := "neighbour", fullName := "Neighbour", email := "neighbour@x.ng", role := some 2 }

def tenant (ref : String) : Payer where
  payerType      := .individual
  firstName      := "Musa"
  middleName     := ""
  lastName       := "Danjuma"
  phone          := "08030000000"
  email          := ""
  address        := ""
  ward           := 1
  ninBvnHash     := ""
  tin            := ""
  businessSize   := none
  lineOfBusiness := ""
  council        := 1
  payerRef       := ref
  enumeratedBy   := 1
  assignedAgent  := none
  creditBalance  := 0
  user           := none

def demand (payer : ℕ) : Bill :=
  ⟨1, "BILL-1", payer, 0, 0, 0, .issued, 20, none, 1, 10⟩

-- Two payers without a login, each with a bill, and a proxy.
def street : Logins where
  table
    | .role  => (office.table .role).insert 2 ⟨"RATEPAYER_PROXY", .ratepayerProxy⟩
    | .user  => (office.table .user).insert 2 neighbour
    | .payer => (Table.empty.insert 1 (tenant "P-1")).insert 2 (tenant "P-2")
    | .bill  => (Table.empty.insert 1 (demand 1)).insert 2 (demand 2)
    | _      => .empty
  retired _ := []

def petition (r : LoginRequest) (x : List Logins.Verdict × Logins × (LoginName → ℕ)) :
    List Logins.Verdict × Logins × (LoginName → ℕ) :=
  let (out, t, n) := (r.respond auth secrets 1).call x.2.1 x.2.2
  (out.toOption.join.toList ++ x.1, t, n)

-- Both payers get a login and let the neighbour in, and the first one changes his mind.
def neighbours : List Logins.Verdict × Logins × (LoginName → ℕ) :=
  ([], street, fun _ => 3)
    |> petition (.inviteRatepayer 1 1 "musa@x.ng" "a long password")
    |> petition (.inviteRatepayer 1 2 "ladi@x.ng" "a long password")
    |> petition (.delegate 3 "Neighbour@x.ng")
    |> petition (.delegate 4 "NEIGHBOUR@x.ng")
    |> petition (.revokeDelegation 4 3)
    |> petition (.revokeDelegation 3 3)

theorem served_petition {x : List Logins.Verdict × Logins × (LoginName → ℕ)} (r : LoginRequest)
    (h : Logins.Served auth street x.1 x.2.1) : Logins.Served auth street (petition r x).1 (petition r x).2.1 :=
  .serve secrets 1 r h rfl

theorem street_unique : Database.Unique (R := logins) .payer street :=
  .of_pairwise <| by decide +kernel

set_option maxRecDepth 20000 in
theorem sample_governed : Logins.Governed neighbours.1 neighbours.2.1 ∧
    neighbours.1 = [⟨1, 2, 3, false⟩, ⟨2, 2, 4, true⟩, ⟨1, 2, 3, true⟩] ∧
    neighbours.2.1.accessiblePayerIds 2 = [2] := by
  have hserved : Logins.Served auth street neighbours.1 neighbours.2.1 :=
    served_petition _ <| served_petition _ <| served_petition _ <| served_petition _ <| served_petition _ <|
      @served_petition ([], street, fun _ => 3) _ .start
  exact ⟨Logins.governed street_unique rfl hserved, by decide +kernel, by decide +kernel⟩

end Sample

end ACRev360
