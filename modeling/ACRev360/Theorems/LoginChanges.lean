import ACRev360.Library.Contracts
import ACRev360.Library.Delimited
import ACRev360.Services.Portal

namespace ACRev360

open Relational Relational.Database Delimited

variable {fw : AuthFramework} {secrets : Secrets} {s t : Logins} {lower : String → String} {email base : String}
  {α : Type}

namespace Logins

-- The usernames that are derived from emails.
structure LegalUsername (username : String) : Prop where
  ne     : username ≠ ""
  length : username.length ≤ 64
  safe   : ∀ c ∈ username.toList, usernameSafe c

section Usernames

theorem usernameSafe_of_isDigit {c : Char} (h : c.isDigit) : usernameSafe c := by
  simp [usernameSafe, h]

theorem not_mem_of_safe {username : String} (h : ∀ c ∈ username.toList, usernameSafe c) : '@' ∉ username.toList :=
  fun hmem => absurd (h _ hmem) (by decide)

theorem candidate_inj {i j : ℕ} (h : candidate base i = candidate base j) : i = j ∨ i = 0 ∨ j = 0 := by
  have hne {n : ℕ} : base ≠ base ++ toString n := by
    intro he
    have := congrArg (·.toList.length) he
    have hpos : (toString n).toList ≠ [] := by simp
    have := List.length_pos_of_ne_nil hpos
    simp at *
  unfold candidate at h
  split at h <;> split at h
  · omega
  · exact absurd h hne
  · exact absurd h.symm hne
  · exact .inl <| toString_inj.mp <| (String.append_right_inj base).mp h

theorem mem_of_mem_trim {sep : Char → Bool} {l : List Char} {c : Char} (h : c ∈ Words.trim sep l) : c ∈ l :=
  (List.dropWhile_sublist _).subset <| (List.rdropWhile_prefix _ _).subset h

theorem usernameBase_safe : ∀ c ∈ (usernameBase lower email).toList, usernameSafe c := by
  intro c hc
  unfold usernameBase at hc
  extract_lets localPart safe base at hc
  split at hc
  case isTrue => exact List.all_eq_true.mp (by decide) c hc
  case isFalse =>
    rw [String.toList_ofList] at hc
    exact (List.mem_filter.mp <| mem_of_mem_trim <| List.mem_of_mem_take hc).2

theorem candidate_safe {n : ℕ} (h : ∀ c ∈ base.toList, usernameSafe c) :
    ∀ c ∈ (candidate base n).toList, usernameSafe c := by
  intro c hc
  unfold candidate at hc
  split at hc
  case isTrue => exact h c hc
  case isFalse =>
    rw [String.toList_append] at hc
    rcases List.mem_append.mp hc with hc | hc
    · exact h c hc
    · exact usernameSafe_of_isDigit <| isDigit_of_mem_toString hc

theorem usernameTaken_iff {username : String} :
    s.usernameTaken username ↔ username ∈ (s.table .user).rows.map (·.2.username) := by
  rw [usernameTaken, Table.isSome_first]
  simp [Table.mem_rows_iff]

-- The loop of derive_username_from_email ends: one of the names is not taken.
theorem deriveUsername_free : s.usernameTaken (s.deriveUsername lower email) = false := by
  have htaken : s.usernameTaken = fun username => decide (username ∈ (s.table .user).rows.map (·.2.username)) := by
    funext username
    rw [Bool.eq_iff_iff, usernameTaken_iff, decide_eq_true_iff]
  rw [deriveUsername, htaken]
  refine decide_eq_false <| Search.firstFree_not_mem (fun i j hi hj h => ?_) (List.length_map ..).le
  rcases candidate_inj h with h | h | h <;> omega

-- The name has the smallest suffix that is free.
theorem deriveUsername_least : ∃ n, 1 ≤ n ∧ s.deriveUsername lower email = candidate (usernameBase lower email) n ∧
    ∀ i, 1 ≤ i → i < n → s.usernameTaken (candidate (usernameBase lower email) i) :=
  ⟨_, Search.le_firstFree, rfl, fun _ => Search.taken_of_lt_firstFree⟩

end Usernames

section Changes

-- What the statements of a request change, and the action on delegations that has been accepted by then.
inductive Change (fw : AuthFramework) (s : Logins) : Option Verdict → Logins → Prop
  | role {k r} : Database.conflicts s .role k r = false → Change fw s none (Database.insert s .role k r)
  | side {n : LoginName} {k} {r : LoginRec n} : n ∈ [LoginName.fieldAgent, .stakeholder, .revenueOfficer] →
    Change fw s none (Database.insert s n k r)
  | login {k a} : Database.conflicts s .user k a = false → s.emailTaken fw a.email = false →
    s.usernameTaken a.username = false → LegalUsername a.username → Change fw s none (Database.insert s .user k a)
  | account {k} {g : Login → Login} :
    (∀ a, (s.table .user).get k = some a → (g a).email = a.email ∨ s.emailTakenByOther fw k (g a).email = false) →
    (∀ a, (g a).username = a.username ∧ (g a).council = a.council ∧ (g a).role = a.role) →
    Change fw s none (Database.modify s .user k g)
  | invite {k user} {p : Payer} : (s.table .payer).get k = some p → p.user = none →
    Database.clashes s .payer k { p with user := some user } = false →
    Change fw s none (Database.modify s .payer k fun p => { p with user := some user })
  | grant {k payer proxy actor now} {row : Payer} {a : Login} : s.payerProfile actor = some (payer, row) →
    (s.table .user).get proxy = some a → a.council = some row.council →
    s.toDb.accessLevel proxy = some .ratepayerProxy →
    Database.conflicts s .delegation k ⟨row.council, payer, proxy, actor, now, none⟩ = false →
    Change fw s (some ⟨payer, proxy, actor, true⟩)
      (Database.insert s .delegation k ⟨row.council, payer, proxy, actor, now, none⟩)
  | again {payer proxy actor} {row : Payer} : s.payerProfile actor = some (payer, row) →
    (s.activeDelegation payer proxy).isSome → Change fw s (some ⟨payer, proxy, actor, true⟩) s
  | revoke {k actor now} {d : PayerDelegation} {row : Payer} : s.payerProfile actor = some (d.payer, row) →
    (s.table .delegation).get k = some d → d.isActive → Change fw s (some ⟨d.payer, d.proxyUser, actor, false⟩)
      (Database.modify s .delegation k fun d => { d with revokedAt := some now })
  | destroy {k t} : Only [LoginName.payer, LoginName.delegation] s t → t.table .payer = (s.table .payer).erase k →
    (∀ i d, (t.table .delegation).get i = some d ↔ (s.table .delegation).get i = some d ∧ d.payer ≠ k) →
    (∀ i, i ∈ s.retired .payer ∨ i = k → i ∈ t.retired .payer) → Change fw s none t

inductive Path (fw : AuthFramework) (s : Logins) : List Verdict → Logins → Prop
  | refl : Path fw s [] s
  | change {verdicts v t u} : Path fw s verdicts t → Change fw t v u → Path fw s (v.toList ++ verdicts) u

variable {s₀ : Logins} {Q : α → Logins → Prop}

theorem Path.extend (h : Path fw s₀ [] s) (hc : Change fw s none t) : Path fw s₀ [] t :=
  h.change hc

theorem ensures_require {c : Prop} [Decidable c] {e : LoginError} {f : Unit → LoginService α} {I : Logins → Prop}
    (hs : I s) (h : c → Prog.Ensures I (f ()) s Q) : Prog.Ensures I (require c e >>= f) s Q := by
  unfold require
  split
  case isTrue hc => exact h hc
  case isFalse => exact .seq (R := fun _ _ => False) (.raise hs) fun _ _ h => h.elim

theorem ensures_hasPermission {levels : List AccessLevel} {user : ℕ} {I : Logins → Prop} {Q : Unit → Logins → Prop}
    (hs : I s) (h : (s.toDb.accessLevel user).any (· ∈ levels) → Q () s) :
    Prog.Ensures I (hasPermission levels user) s Q := by
  refine ensures_select <| ensures_require hs fun _ => ensures_select ?_
  unfold require
  split
  case isTrue hlevel => exact .ret <| h hlevel
  case isFalse => exact .raise hs

theorem ensures_emailField {field : String} {Q : String → Logins → Prop} (hs : Path fw s₀ [] s)
    (h : ∀ e, s.emailTaken fw e = false → Q e s) :
    Prog.Ensures (Path fw s₀ []) (emailField fw field email) s Q := by
  unfold emailField
  refine ensures_require hs fun _ => ensures_select <| ensures_require hs fun hfree => ?_
  exact ensures_require hs fun _ => .ret <| h _ hfree

theorem ensures_passwordField {field password : String} {Q : String → Logins → Prop} (hs : Path fw s₀ [] s)
    (h : ∀ password, Q password s) : Prog.Ensures (Path fw s₀ []) (passwordField fw field password) s Q := by
  unfold passwordField
  refine ensures_require hs fun _ => ?_
  split
  · exact .ret <| h _
  · exact .raise hs

theorem ensures_optionalPassword {field : String} {password : Option String} {Q : Option String → Logins → Prop}
    (hs : Path fw s₀ [] s) (h : ∀ password, Q password s) :
    Prog.Ensures (Path fw s₀ []) (optionalPassword fw field password) s Q := by
  cases password with
  | none => exact .ret <| h none
  | some password => exact .map <| ensures_passwordField hs fun _ => h _

-- The role may have been inserted.
theorem ensures_getOrCreateRole {name : String} {level : AccessLevel} {Q : ℕ → Logins → Prop}
    (hs : Path fw s₀ [] s) (h : ∀ k t, Path fw s₀ [] t → Only [LoginName.role] s t → Q k t) :
    Prog.Ensures (Path fw s₀ []) (getOrCreateRole name level) s Q := by
  unfold getOrCreateRole
  refine ensures_select ?_
  dsimp only
  split
  case h_1 => exact .ret <| h _ _ hs (Std.Refl.refl _)
  case h_2 =>
    let R (r : Except logins.Exn ℕ) (t : Logins) := Path fw s₀ [] t ∧ Only [LoginName.role] s t
    refine .seq (R := R) (.attempt (J := (· = s)) (.atomic rfl ?create) ?failed) fun r t ht => ?_
    case create => exact ensures_create trivial fun k hc => ⟨hs.extend <| .role hc, only_insert <| .head _⟩
    case failed =>
      rintro _ _ rfl
      exact ⟨hs, Std.Refl.refl _⟩
    obtain ⟨hpath, honly⟩ := ht
    split
    case h_1 => exact .ret <| h _ _ hpath honly
    case h_2 =>
      refine .guard hpath fun _ => ensures_select ?_
      split
      · exact .ret <| h _ _ hpath honly
      · exact .raise hpath

theorem ensures_fits {width : ℕ} {text : String} {β : Type} {f : Unit → LoginService β} {Q : β → Logins → Prop}
    {I : Logins → Prop} (hs : I s) (h : text.length ≤ width → Prog.Ensures I (f ()) s Q) :
    Prog.Ensures I (fits width text >>= f) s Q := by
  unfold fits
  split
  case isTrue hle => exact h hle
  case isFalse => exact .seq (R := fun _ _ => False) (.raise hs) fun _ _ h => h.elim

-- A login with the email can be made.
structure Ready (fw : AuthFramework) (s₀ : Logins) (email : String) (s : Logins) : Prop where
  path : Path fw s₀ [] s
  free : s.emailTaken fw email = false

-- The login that is made has a username of its own.
theorem ensures_createLogin {a : Login} {Q : ℕ → Logins → Prop} (hs : Ready fw s₀ a.email s)
    (h : ∀ k t, Path fw s₀ [] t → Only [LoginName.user] s t → Q k t) :
    Prog.Ensures (Path fw s₀ []) (createLogin fw secrets a) s Q := by
  unfold createLogin
  obtain ⟨hpath, hfree⟩ := hs
  refine ensures_select <| ensures_require hpath fun hne => ?_
  refine ensures_fits hpath fun hlen => ensures_fits hpath fun _ => ensures_fits hpath fun _ => ?_
  refine ensures_fits hpath fun _ => ?_
  refine ensures_create hpath fun k hc => h k _ (hpath.extend <| .login hc hfree deriveUsername_free ⟨hne, hlen, ?_⟩) ?_
  · exact candidate_safe usernameBase_safe
  · exact only_insert <| .head _

-- The fields have been checked, and the role is there.
theorem ensures_onboard {role : String} {level : AccessLevel} {council consultant : Option ℕ} {data : Onboarding}
    (hs : Path fw s₀ [] s) : Prog.Ensures (Path fw s₀ []) (onboard fw secrets role level council consultant data) s
      fun a t => Ready fw s₀ a.email t := by
  unfold onboard
  refine .seq (ensures_emailField (Q := fun e t => s = t ∧ s.emailTaken fw e = false) hs fun _ he => ⟨rfl, he⟩) ?_
  rintro email _ ⟨rfl, hemail⟩
  refine .seq (ensures_optionalPassword (Q := fun _ t => s = t) hs fun _ => rfl) ?_
  rintro password _ rfl
  refine .seq (ensures_getOrCreateRole (Q := fun _ t => Path fw s₀ [] t ∧ Only [LoginName.role] s t) hs
    fun _ _ => .intro) fun role t ht => .ret ⟨ht.1, ?_⟩
  rw [emailTaken, ht.2 .user (by decide)]
  exact hemail

theorem ensures_createStakeholder {user : ℕ} {data : Onboarding} (hs : Path fw s₀ [] s) :
    Prog.Ensures (Path fw s₀ []) (createStakeholder fw secrets user data) s fun _ t => Path fw s₀ [] t := by
  unfold createStakeholder
  refine .seq (ensures_hasPermission (Q := fun _ t => s = t) hs fun _ => rfl) ?_
  rintro _ _ rfl
  refine ensures_select ?_
  refine .seq (ensures_onboard hs) fun a t ht => .atomic ht.path ?_
  refine .seq ((ensures_createLogin ht fun _ _ h _ => h).weaken fun _ _ => trivial) fun k t ht => ?_
  exact .seq (ensures_create trivial fun _ _ => ht.extend <| .side <| by simp) fun _ _ ht => .ret ht

theorem ensures_revenueOfficers {user pk : ℕ} {data : Onboarding} (hs : Path fw s₀ [] s) :
    Prog.Ensures (Path fw s₀ []) (revenueOfficers fw secrets user pk data) s fun _ t => Path fw s₀ [] t := by
  unfold revenueOfficers
  refine .seq (ensures_hasPermission (Q := fun _ t => s = t) hs fun _ => rfl) ?_
  rintro _ _ rfl
  refine ensures_select ?_
  dsimp only
  split
  case h_2 => exact .raise hs
  case h_1 firm _ =>
    refine .seq (ensures_onboard hs) fun a t ht => .atomic ht.path ?_
    refine .seq ((ensures_createLogin ht fun _ _ h _ => h).weaken fun _ _ => trivial) fun k t ht => ?_
    exact .seq (ensures_create trivial fun _ _ => ht.extend <| .side <| by simp) fun _ _ ht => .ret ht

theorem ensures_createManager {pk : ℕ} {name : String} {password : Option String} (hs : Path fw s₀ [] s) :
    Prog.Ensures (Path fw s₀ []) (createManager fw secrets pk email password name) s fun _ t => Path fw s₀ [] t := by
  unfold createManager
  refine .seq (ensures_emailField (Q := fun e t => s = t ∧ s.emailTaken fw e = false) hs fun _ he => ⟨rfl, he⟩) ?_
  rintro email _ ⟨rfl, hemail⟩
  refine .seq (ensures_optionalPassword (Q := fun _ t => s = t) hs fun _ => rfl) ?_
  rintro password _ rfl
  refine ensures_require hs fun _ => ensures_select ?_
  dsimp only
  split
  case h_2 => exact .raise hs
  case h_1 firm _ =>
    refine .seq (ensures_getOrCreateRole (Q := fun _ t => Path fw s₀ [] t ∧ Only [LoginName.role] s t) hs
      fun _ _ => .intro) fun role t ht => ensures_createLogin ⟨ht.1, ?_⟩ fun _ _ h _ => h
    rw [emailTaken, ht.2 .user (by decide)]
    exact hemail

-- A failed attempt leaves nothing behind.
theorem ensures_allocateAgent {council : ℕ} {ward : Option ℕ} {a : Login} {tries seq : ℕ}
    (hs : Ready fw s₀ a.email s) : Prog.Ensures (Path fw s₀ [])
      (allocateAgent fw secrets council ward a tries seq) s fun _ t => Path fw s₀ [] t := by
  induction tries generalizing seq with
  | zero => exact .raise hs.path
  | succ tries hi =>
    let R (r : Except logins.Exn ℕ) (t : Logins) :=
      match r with
      | .ok _    => Path fw s₀ [] t
      | .error _ => t = s
    refine .seq (R := R) (.attempt (J := (· = s)) (.atomic rfl ?make) fun _ _ h => h) fun r t ht => ?_
    case make =>
      refine .seq ((ensures_createLogin hs fun _ _ h _ => h).weaken fun _ _ => trivial) fun k t ht => ?_
      exact ensures_create trivial fun _ _ => ht.extend <| .side <| by simp
    cases r with
    | ok k => exact .ret ht
    | error e =>
      obtain rfl : t = s := ht
      exact .guard hs.path fun _ => hi

theorem ensures_createAgent {user : ℕ} {consultantId ward : Option ℕ} {data : Onboarding} (hs : Path fw s₀ [] s) :
    Prog.Ensures (Path fw s₀ []) (createAgent fw secrets user consultantId ward data) s
      fun _ t => Path fw s₀ [] t := by
  unfold createAgent
  refine .seq (ensures_hasPermission (Q := fun _ t => s = t) hs fun _ => rfl) ?_
  rintro _ _ rfl
  refine ensures_select ?_
  dsimp only
  split
  case h_2 => exact .raise hs
  case h_1 council _ =>
    refine .seq (ensures_onboard hs) fun a t ht => ensures_select ?_
    have hrest (consultant : Option ℕ) : Prog.Ensures (Path fw s₀ []) (do
        let nextSeq ← query fun s => (s.agentsOf council).length + 1
        allocateAgent fw secrets council ward { a with consultant } 20 nextSeq) t fun _ u => Path fw s₀ [] u :=
      ensures_select <| ensures_allocateAgent ht
    split
    · refine ensures_select <| ensures_select <| ensures_require ht.path fun _ => hrest _
    · exact ensures_require ht.path fun _ => ensures_select <| ensures_require ht.path fun _ => hrest _

theorem ensures_inviteRatepayer {user pk : ℕ} {password : String} (hs : Path fw s₀ [] s) :
    Prog.Ensures (Path fw s₀ []) (inviteRatepayer fw secrets user pk email password) s
      fun _ t => Path fw s₀ [] t := by
  unfold inviteRatepayer
  refine .seq (ensures_hasPermission (Q := fun _ t => s = t) hs fun _ => rfl) ?_
  rintro _ _ rfl
  refine ensures_select ?_
  dsimp only
  split
  case h_2 => exact .raise hs
  case h_1 p hp =>
    have hp := (Option.filter_eq_some_iff.mp hp).1
    refine ensures_require hs fun hnone => ?_
    refine .seq (ensures_emailField (Q := fun e t => s = t ∧ s.emailTaken fw e = false) hs fun _ he => ⟨rfl, he⟩) ?_
    rintro email _ ⟨rfl, hemail⟩
    refine .seq (ensures_passwordField (Q := fun _ t => s = t) hs fun _ => rfl) ?_
    rintro password _ rfl
    refine .seq (ensures_getOrCreateRole (Q := fun _ t => Path fw s₀ [] t ∧ Only [LoginName.role] s t) hs
      fun _ _ => .intro) fun role t ht => ?_
    have hfree : emailTaken fw t email = false := by
      rw [emailTaken, ht.2 .user (by decide)]
      exact hemail
    refine .seq (ensures_createLogin (Q := fun _ u => Path fw s₀ [] u ∧ Only [LoginName.user] t u) ⟨ht.1, hfree⟩
      fun _ _ => .intro) fun k u hu => ?_
    have hpayer : u.table .payer = s.table .payer := (hu.2 _ (by decide)).trans (ht.2 _ (by decide))
    refine .seq (ensures_replace (Q := fun _ v => Path fw s₀ [] v) hu.1 fun p' hp' hc => ?_) fun _ v hv => .ret hv
    obtain rfl := Option.some.inj <| (hpayer ▸ hp').symm.trans hp
    exact hu.1.extend <| .invite hp' hnone hc

theorem ensures_profileEmail {user : ℕ} {Q : String → Logins → Prop} (hs : Path fw s₀ [] s)
    (h : ∀ e, s.emailTakenByOther fw user e = false → Q e s) :
    Prog.Ensures (Path fw s₀ []) (profileEmail fw user email) s Q := by
  unfold profileEmail
  refine ensures_require hs fun _ => ensures_require hs fun _ => ensures_require hs fun _ => ensures_select ?_
  exact ensures_require hs fun _ => ensures_select <| ensures_require hs fun hfree => .ret <| h _ hfree

theorem ensures_newEmail {user : ℕ} {email : Option String} {Q : Option String → Logins → Prop}
    (hs : Path fw s₀ [] s) (h : ∀ email, (∀ e ∈ email, s.emailTakenByOther fw user e = false) → Q email s) :
    Prog.Ensures (Path fw s₀ []) (newEmail fw user email) s Q := by
  cases email with
  | none => exact .ret <| h none fun _ he => by contradiction
  | some email =>
    refine .map <| ensures_profileEmail hs fun e he => h _ ?_
    rintro _ ⟨⟩
    exact he

theorem ensures_updateMe {user : ℕ} {data : ProfileUpdate} (hs : Path fw s₀ [] s) :
    Prog.Ensures (Path fw s₀ []) (updateMe fw user data) s fun _ t => Path fw s₀ [] t := by
  unfold updateMe
  refine ensures_select ?_
  dsimp only
  split
  case h_2 => exact .raise hs
  case h_1 me _ =>
    refine ensures_require hs fun _ => ensures_require hs fun _ => ?_
    let R (email : Option String) (t : Logins) := s = t ∧ ∀ e ∈ email, s.emailTakenByOther fw user e = false
    refine .seq (R := R) (ensures_newEmail hs fun _ he => ⟨rfl, he⟩) ?_
    rintro email _ ⟨rfl, he⟩
    refine ensures_require hs fun _ => ensures_require hs fun _ => ensures_replace hs fun _ _ _ => ?_
    refine hs.extend <| .account (fun a _ => ?_) fun a => ⟨rfl, rfl, rfl⟩
    cases email with
    | none => exact .inl rfl
    | some e => exact .inr <| he e rfl

-- The email, the username, the council and the role of a login stay.
theorem ensures_saveUser {k : ℕ} {g : Login → Login} {hg : logins.Keeping .user g} (hs : Path fw s₀ [] s)
    (hemail : ∀ a, (g a).email = a.email)
    (hkept : ∀ a, (g a).username = a.username ∧ (g a).council = a.council ∧ (g a).role = a.role) :
    Prog.Ensures (Path fw s₀ []) (save (R := logins) .user k g hg) s fun _ t => Path fw s₀ [] t :=
  ensures_save hs fun _ _ => hs.extend <| .account (fun a _ => .inl <| hemail a) hkept

theorem ensures_changePassword {user : ℕ} {current new : String} (hs : Path fw s₀ [] s) :
    Prog.Ensures (Path fw s₀ []) (changePassword fw secrets user current new) s fun _ t => Path fw s₀ [] t := by
  unfold changePassword
  refine ensures_select ?_
  dsimp only
  split
  case h_2 => exact .raise hs
  case h_1 me _ =>
    refine .seq (ensures_passwordField (Q := fun _ t => s = t) hs fun _ => rfl) ?_
    rintro password _ rfl
    exact ensures_require hs fun _ => ensures_saveUser hs (fun _ => rfl) fun _ => ⟨rfl, rfl, rfl⟩

theorem ensures_deactivateUser {pk : ℕ} (hs : Path fw s₀ [] s) :
    Prog.Ensures (Path fw s₀ []) (deactivateUser pk) s fun _ t => Path fw s₀ [] t :=
  ensures_saveUser hs (fun _ => rfl) fun _ => ⟨rfl, rfl, rfl⟩

theorem ensures_deactivateStakeholder {user pk : ℕ} (hs : Path fw s₀ [] s) :
    Prog.Ensures (Path fw s₀ []) (deactivateStakeholder user pk) s fun _ t => Path fw s₀ [] t := by
  unfold deactivateStakeholder
  refine .seq (ensures_hasPermission (Q := fun _ t => s = t) hs fun _ => rfl) ?_
  rintro _ _ rfl
  refine ensures_select ?_
  dsimp only
  split
  case h_2 => exact .raise hs
  case h_1 =>
    split
    · exact ensures_deactivateUser hs
    · exact .ret hs

theorem ensures_deactivateRevenueOfficer {user pk officerId : ℕ} (hs : Path fw s₀ [] s) :
    Prog.Ensures (Path fw s₀ []) (deactivateRevenueOfficer user pk officerId) s fun _ t => Path fw s₀ [] t := by
  unfold deactivateRevenueOfficer
  refine .seq (ensures_hasPermission (Q := fun _ t => s = t) hs fun _ => rfl) ?_
  rintro _ _ rfl
  refine ensures_select ?_
  dsimp only
  split
  case h_2 => exact .raise hs
  case h_1 =>
    refine ensures_select ?_
    split
    case h_2 => exact .raise hs
    case h_1 =>
      split
      · exact ensures_deactivateUser hs
      · exact .ret hs

theorem ensures_managedPayer {user : ℕ} {Q : ℕ × Payer → Logins → Prop} (hs : Path fw s₀ [] s)
    (h : ∀ payer, s.payerProfile user = some payer → Q payer s) :
    Prog.Ensures (Path fw s₀ []) (managedPayer user) s Q := by
  unfold managedPayer
  refine .seq (ensures_hasPermission (Q := fun _ t => s = t) hs fun _ => rfl) ?_
  rintro _ _ rfl
  refine ensures_select <| ensures_require hs fun _ => ensures_select ?_
  split
  case h_1 payer hp => exact .ret <| h payer hp
  case h_2 => exact .raise hs

theorem ensures_delegate {now user : ℕ} {proxyEmail : String} (hs : Path fw s₀ [] s) :
    Prog.Ensures (Path fw s₀ []) (delegate fw now user proxyEmail) s fun v t => Path fw s₀ [v] t := by
  unfold delegate
  refine .seq (ensures_managedPayer (Q := fun payer t => s = t ∧ s.payerProfile user = some payer) hs
    fun _ hp => ⟨rfl, hp⟩) ?_
  rintro ⟨payer, row⟩ _ ⟨rfl, hp⟩
  refine ensures_require hs fun _ => ensures_require hs fun _ => ensures_select ?_
  dsimp only
  split
  case h_2 => exact .raise hs
  case h_1 proxy a hproxy =>
    obtain ⟨ha, hmatch⟩ := Table.first_some hproxy
    simp only [Bool.and_eq_true, decide_eq_true_eq] at hmatch
    refine ensures_select ?_
    split
    case isTrue hactive => exact .ret <| hs.change <| .again hp hactive
    case isFalse =>
      refine .seq (ensures_create (Q := fun _ t => Path fw s₀ [⟨payer, proxy, user, true⟩] t) hs fun k hc => ?_)
        fun _ _ ht => .ret ht
      exact hs.change <| .grant hp ha hmatch.2 hmatch.1.2 hc

theorem ensures_revokeDelegation {now user pk : ℕ} (hs : Path fw s₀ [] s) :
    Prog.Ensures (Path fw s₀ []) (revokeDelegation now user pk) s fun v t => Path fw s₀ [v] t := by
  unfold revokeDelegation
  refine .seq (ensures_hasPermission (Q := fun _ t => s = t) hs fun _ => rfl) ?_
  rintro _ _ rfl
  refine ensures_select <| ensures_require hs fun _ => ensures_select <| ensures_select ?_
  dsimp only
  split
  case h_2 => exact .raise hs
  case h_1 d hd =>
    obtain ⟨hd, hmine⟩ := Option.filter_eq_some_iff.mp hd
    simp only [Bool.and_eq_true, decide_eq_true_eq] at hmine
    obtain ⟨⟨payer, row⟩, hp, rfl⟩ := Option.map_eq_some_iff.mp hmine.1
    refine .seq (ensures_close (Q := fun _ t => Path fw s₀ [⟨d.payer, d.proxyUser, user, false⟩] t) hs fun _ _ => ?_)
      fun _ _ ht => .ret ht
    exact hs.change <| .revoke hp hd hmine.2

theorem ensures_destroyPayer {user pk : ℕ} (hs : Path fw s₀ [] s) :
    Prog.Ensures (Path fw s₀ []) (Prog.atomic <| destroyPayer user pk) s fun _ t => Path fw s₀ [] t := by
  refine .atomic hs ?_
  unfold destroyPayer
  refine .seq ((ensures_hasPermission (Q := fun _ t => s = t) hs fun _ => rfl).weaken fun _ _ => trivial) ?_
  rintro _ _ rfl
  refine ensures_select ?_
  dsimp only
  split
  case h_2 => exact .raise trivial
  case h_1 p hp =>
    refine ensures_select <| ensures_require trivial fun _ => ensures_select <| ensures_require trivial fun _ => ?_
    refine ensures_select <| .seq ensures_removeAll fun _ t ht => ?_
    obtain ⟨honly, hget, hretired⟩ := ht
    have hpayer : t.table .payer = s.table .payer := honly _ (by decide)
    have hgone (i : ℕ) (d : PayerDelegation) : (t.table .delegation).get i = some d ↔
        (s.table .delegation).get i = some d ∧ d.payer ≠ pk := by
      rw [hget]
      split
      case isTrue hmem =>
        obtain ⟨⟨i, d'⟩, hd', rfl⟩ := List.mem_map.mp hmem
        obtain ⟨hd', hpk⟩ := Table.mem_filter_iff.mp hd'
        refine iff_of_false (by simp) fun ⟨hd, hne⟩ => hne ?_
        obtain rfl := Option.some.inj <| hd.symm.trans hd'
        simpa using hpk
      case isFalse hmem =>
        refine ⟨fun hd => ⟨hd, fun hpk => hmem ?_⟩, And.left⟩
        exact List.mem_map.mpr ⟨(i, d), Table.mem_filter_iff.mpr ⟨hd, by simpa using hpk⟩, rfl⟩
    refine ensures_remove (fun _ _ => ?_) fun hn => ?none
    case none =>
      rw [hpayer, (Option.filter_eq_some_iff.mp hp).1] at hn
      contradiction
    refine hs.extend <| @Change.destroy _ _ pk _ ?only ?payer (fun i d => ?gone) fun i hi => ?retired
    case only =>
      refine IsTrans.trans _ _ _ (honly.mono fun n hn => ?_) (only_erase (by simp))
      simp_all
    case payer => rw [erase_table, hpayer]
    case gone => rw [erase_table_ne (by decide), hgone]
    case retired =>
      have hkept := hretired .payer (by decide)
      simpa [erase, hkept] using hi.symm

-- What a request changes, whether it is accepted or refused.
theorem path_of_respond {r : LoginRequest} {now : ℕ} {n m : LoginName → ℕ} {out : Except logins.Exn (Option Verdict)}
    (h : (r.respond fw secrets now).call s n = (out, t, m)) : Path fw s out.toOption.join.toList t := by
  have hserve : Prog.Ensures (Path fw s []) (r.serve fw secrets now) s fun v t => Path fw s v.toList t := by
    have hs : Path fw s [] s := .refl
    cases r with
    | createStakeholder => exact .seq (ensures_createStakeholder hs) fun _ _ ht => .ret ht
    | revenueOfficers => exact .seq (ensures_revenueOfficers hs) fun _ _ ht => .ret ht
    | createManager =>
      exact .seq (.atomic hs <| (ensures_createManager hs).weaken fun _ _ => trivial) fun _ _ ht => .ret ht
    | createAgent => exact .seq (ensures_createAgent hs) fun _ _ ht => .ret ht
    | inviteRatepayer => exact .seq (ensures_inviteRatepayer hs) fun _ _ ht => .ret ht
    | updateMe => exact .seq (ensures_updateMe hs) fun _ _ ht => .ret ht
    | changePassword => exact .seq (ensures_changePassword hs) fun _ _ ht => .ret ht
    | deactivateStakeholder => exact .seq (ensures_deactivateStakeholder hs) fun _ _ ht => .ret ht
    | deactivateRevenueOfficer => exact .seq (ensures_deactivateRevenueOfficer hs) fun _ _ ht => .ret ht
    | delegate => exact .map <| ensures_delegate hs
    | revokeDelegation => exact .map <| ensures_revokeDelegation hs
    | destroyPayer => exact .seq (ensures_destroyPayer hs) fun _ _ ht => .ret ht
  have hrespond : Prog.Ensures (fun _ => True) (r.respond fw secrets now) s fun v t => Path fw s v.toList t := by
    unfold LoginRequest.respond
    let R (r : Except logins.Exn (Option Verdict)) (t : Logins) := Path fw s r.toOption.join.toList t
    refine .seq (R := R) (.attempt (J := Path fw s []) hserve fun _ _ h => h) fun r t ht => ?_
    cases r with
    | ok v => exact .ret ht
    | error e =>
      dsimp only
      split
      · exact .raise trivial
      · exact .ret ht
  cases out with
  | error e => exact Prog.call_error h ▸ .refl
  | ok v => exact (Prog.call_ok hrespond.post h).1

end Changes

end Logins

end ACRev360
