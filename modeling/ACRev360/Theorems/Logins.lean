import ACRev360.Theorems.LoginChanges

namespace ACRev360

open Relational Relational.Database

namespace Logins

variable {fw : AuthFramework} {s s₀ t : Logins} {verdicts : List Verdict} {v : Option Verdict}

-- No two logins have the same email but for the case, or the same username.
structure Identified (fw : AuthFramework) (s : Logins) : Prop where
  emails    : ∀ {i j a b}, (s.table .user).get i = some a → (s.table .user).get j = some b →
    fw.upper a.email = fw.upper b.email → i = j
  usernames : ∀ {i j a b}, (s.table .user).get i = some a → (s.table .user).get j = some b →
    a.username = b.username → i = j
  legal     : ∀ {i a}, (s.table .user).get i = some a → LegalUsername a.username

namespace Identified

theorem congr (h : Identified fw s) (ht : t.table .user = s.table .user) : Identified fw t where
  emails    := by
    rw [ht]
    exact h.emails
  usernames := by
    rw [ht]
    exact h.usernames
  legal     := by
    rw [ht]
    exact h.legal

theorem insert {k : ℕ} {a : Login} (h : Identified fw s) (hemail : s.emailTaken fw a.email = false)
    (hname : s.usernameTaken a.username = false) (hlegal : LegalUsername a.username) :
    Identified fw (Database.insert s .user k a) := by
  have hemail {i b} (hb : (s.table .user).get i = some b) : fw.upper b.email ≠ fw.upper a.email := by
    have := Table.first_none (Option.isSome_eq_false_iff.mp hemail |> Option.isNone_iff_eq_none.mp) hb
    simpa using this
  have hname {i b} (hb : (s.table .user).get i = some b) : b.username ≠ a.username := by
    have := Table.first_none (Option.isSome_eq_false_iff.mp hname |> Option.isNone_iff_eq_none.mp) hb
    simpa using this
  constructor
  case emails =>
    intro i j b c hb hc he
    rcases get_insert_cases hb with ⟨rfl, rfl⟩ | hb'
    · rcases get_insert_cases hc with ⟨rfl, rfl⟩ | hc'
      · rfl
      · exact absurd he.symm <| hemail hc'
    · rcases get_insert_cases hc with ⟨rfl, rfl⟩ | hc'
      · exact absurd he <| hemail hb'
      · exact h.emails hb' hc' he
  case usernames =>
    intro i j b c hb hc he
    rcases get_insert_cases hb with ⟨rfl, rfl⟩ | hb'
    · rcases get_insert_cases hc with ⟨rfl, rfl⟩ | hc'
      · rfl
      · exact absurd he.symm <| hname hc'
    · rcases get_insert_cases hc with ⟨rfl, rfl⟩ | hc'
      · exact absurd he <| hname hb'
      · exact h.usernames hb' hc' he
  case legal =>
    intro i b hb
    rcases get_insert_cases hb with ⟨rfl, rfl⟩ | hb
    · exact hlegal
    · exact h.legal hb

-- The login has an email that no other one has, and its username stays.
theorem modify {k : ℕ} {g : Login → Login} (h : Identified fw s)
    (hemail : ∀ a, (s.table .user).get k = some a →
      (g a).email = a.email ∨ s.emailTakenByOther fw k (g a).email = false)
    (hname : ∀ a, (g a).username = a.username) : Identified fw (Database.modify s .user k g) := by
  have hold {i b} (hb : ((Database.modify s .user k g).table .user).get i = some b) :
      ∃ a, (s.table .user).get i = some a ∧ b.username = a.username ∧ (i = k ∧ b = g a ∨ i ≠ k ∧ b = a) := by
    rw [modify_table, Table.get_modify] at hb
    split at hb
    case isTrue hi =>
      obtain ⟨a, ha, rfl⟩ := Option.map_eq_some_iff.mp hb
      exact ⟨a, hi ▸ ha, hname a, .inl ⟨hi, rfl⟩⟩
    case isFalse hi => exact ⟨b, hb, rfl, .inr ⟨hi, rfl⟩⟩
  -- What the row becomes has another email than the other rows.
  have hother {j a c} (ha : (s.table .user).get k = some a) (hc : (s.table .user).get j = some c) (hj : j ≠ k) :
      fw.upper (g a).email ≠ fw.upper c.email := by
    intro he
    rcases hemail a ha with hsame | hfree
    · exact hj (h.emails ha hc (hsame ▸ he)).symm
    · have := Table.first_none (Option.isSome_eq_false_iff.mp hfree |> Option.isNone_iff_eq_none.mp) hc
      simp [hj, he] at this
  constructor
  case emails =>
    intro i j b c hb hc he
    obtain ⟨a, ha, _, hi⟩ := hold hb
    obtain ⟨d, hd, _, hj⟩ := hold hc
    rcases hi with ⟨rfl, rfl⟩ | ⟨hi, rfl⟩ <;> rcases hj with ⟨rfl, rfl⟩ | ⟨hj, rfl⟩
    · rfl
    · exact absurd he <| hother ha hd hj
    · exact absurd he.symm <| hother hd ha hi
    · exact h.emails ha hd he
  case usernames =>
    intro i j b c hb hc he
    obtain ⟨a, ha, hna, _⟩ := hold hb
    obtain ⟨d, hd, hnd, _⟩ := hold hc
    exact h.usernames ha hd <| hna.symm.trans <| he.trans hnd
  case legal =>
    intro i b hb
    obtain ⟨a, ha, hna, _⟩ := hold hb
    exact hna ▸ h.legal ha

theorem change (h : Identified fw s) (hc : Change fw s v t) : Identified fw t := by
  cases hc with
  | role _ => exact h.congr <| insert_table_ne (by decide)
  | side hn => exact h.congr <| insert_table_ne fun he => by simp [← he] at hn
  | login _ hemail hname hlegal => exact h.insert hemail hname hlegal
  | account hemail hkept => exact h.modify hemail fun a => (hkept a).1
  | invite => exact h.congr <| modify_table_ne (by decide)
  | grant => exact h.congr <| insert_table_ne (by decide)
  | again => exact h
  | revoke => exact h.congr <| modify_table_ne (by decide)
  | destroy honly => exact h.congr <| honly _ (by decide)

theorem path (h : Identified fw s) (hp : Path fw s verdicts t) : Identified fw t := by
  induction hp with
  | refl => exact h
  | change _ hc hi => exact hi.change hc

theorem served (h : Identified fw s₀) (hs : Served fw s₀ verdicts s) : Identified fw s := by
  induction hs with
  | start => exact h
  | serve secrets now r _ hr hi => exact hi.path <| path_of_respond hr
  | elsewhere _ ht hi => exact hi.congr <| ht.same (by decide)

end Identified

-- Who signs in, for every email and password, and the username of the next login.
structure SignsIn (fw : AuthFramework) (s : Logins) : Prop extends Identified fw s where
  owner   : ∀ {email password : String} {k : ℕ}, '@' ∈ email.toList → (s.validate fw email password = some k ↔
    ∃ a, (s.table .user).get k = some a ∧ fw.upper a.email = fw.upper email ∧ a.isActive ∧
      fw.checkPassword password a.password)
  derived : ∀ email, s.usernameTaken (s.deriveUsername fw.lower email) = false

theorem authenticate_iff {username password : String} {k : ℕ} (h : Identified fw s) :
    s.authenticate fw username password = some k ↔ ∃ a, (s.table .user).get k = some a ∧ a.username = username ∧
      a.isActive ∧ fw.checkPassword password a.password := by
  unfold authenticate
  split
  case h_1 i a hfirst =>
    obtain ⟨ha, hname⟩ := Table.first_some hfirst
    simp only [decide_eq_true_eq] at hname
    refine ⟨fun hk => ?_, fun ⟨b, hb, hname', hactive, hcheck⟩ => ?_⟩
    · split at hk
      case isTrue hok =>
        obtain rfl := Option.some.inj hk
        simp only [Bool.and_eq_true] at hok
        exact ⟨a, ha, hname, hok.2, hok.1⟩
      case isFalse => contradiction
    · obtain rfl := h.usernames ha hb <| hname.trans hname'.symm
      obtain rfl := Option.some.inj <| ha.symm.trans hb
      simp [hactive, hcheck]
  case h_2 hnone =>
    refine iff_of_false (by simp) fun ⟨b, hb, hname, _⟩ => ?_
    have := Table.first_none hnone hb
    simp [hname] at this

-- A text with an at sign is no username, so it has to be an email to sign in with.
theorem Identified.signsIn (h : Identified fw s) : SignsIn fw s where
  toIdentified := h
  derived _    := deriveUsername_free
  owner {email password k} hat := by
    have hne : email ≠ "" := by
      rintro rfl
      simp at hat
    rw [validate, if_neg hne]
    cases hfirst : (s.table .user).first fun _ a => fw.upper a.email = fw.upper email with
    | none =>
      rw [Option.map_none, Option.getD_none, authenticate_iff h]
      refine iff_of_false (fun ⟨a, ha, hname, _⟩ => ?_) fun ⟨a, ha, hemail, _⟩ => ?_
      · exact not_mem_of_safe (h.legal ha).safe <| hname ▸ hat
      · have := Table.first_none hfirst ha
        simp [hemail] at this
    | some r =>
      obtain ⟨i, a⟩ := r
      obtain ⟨ha, hemail⟩ := Table.first_some hfirst
      simp only [decide_eq_true_eq] at hemail
      rw [Option.map_some, Option.getD_some, authenticate_iff h]
      refine exists_congr fun b => and_congr_right fun hb => and_congr_left fun _ => ⟨fun hname => ?_, fun hup => ?_⟩
      · obtain rfl := h.usernames hb ha hname
        obtain rfl := Option.some.inj <| hb.symm.trans ha
        exact hemail
      · obtain rfl := h.emails hb ha <| hup.trans hemail.symm
        exact congrArg (·.username) <| Option.some.inj <| hb.symm.trans ha

-- Onboarding and profile updates leave every login the only one that its email signs in.
theorem signs_in_as_owner (h₀ : Identified fw s₀) (hs : Served fw s₀ verdicts s) : SignsIn fw s :=
  (h₀.served hs).signsIn

end Logins

namespace Sample

-- Only letters of the ASCII alphabet have a case, and passwords are stored as they are.
def auth : AuthFramework where
  lower s               := String.ofList <| s.toList.map Char.toLower
  upper s               := String.ofList <| s.toList.map Char.toUpper
  isEmail s             := s.toList.contains '@'
  passwordError _       := none
  makePassword _ s      := s
  checkPassword s t     := s = t
  enforcePasswordPolicy := false

def secrets : Secrets :=
  ⟨"Zx3kPq7mTn2W", "salt"⟩

def clerk : Login where
  username   := "admin"
  fullName   := "Council Admin"
  email      := "admin@kuje.ng"
  password   := "a long password"
  council    := some 1
  role       := some 1
  consultant := none
  phone      := ""
  isActive   := true
  mustChangePassword := false

-- A council with its admin.
def office : Logins where
  table
    | .role => .insert .empty 1 ⟨"COUNCIL_ADMIN", .councilAdmin⟩
    | .user => .insert .empty 1 clerk
    | _     => .empty
  retired _ := []

def ask (r : LoginRequest) (s : Logins × (LoginName → ℕ)) : Logins × (LoginName → ℕ) :=
  ((r.respond auth secrets 1).call s.1 s.2).2

-- Two stakeholders whose emails have the same local part, of whom the first changes hers.
def onboarded : Logins × (LoginName → ℕ) :=
  (office, fun _ => 2)
    |> ask (.createStakeholder 1 ⟨" Ada.Bello+kuje@x.ng", some "adas password", "Ada Bello", "", ""⟩)
    |> ask (.createStakeholder 1 ⟨"ada.bellokuje@y.ng", none, "Ada B. Kuje", "", ""⟩)
    |> ask (.createStakeholder 1 ⟨"ADA.BELLOKUJE@Y.NG", none, "Nobody", "", ""⟩)
    |> ask (.updateMe 2 ⟨none, some "Bello@z.ng", none, some "adas password"⟩)

set_option maxRecDepth 20000 in
example : (onboarded.1.table .user).rows.map (fun a => (a.1, a.2.username, a.2.email)) =
    [(1, "admin", "admin@kuje.ng"), (2, "ada.bellokuje", "Bello@z.ng"), (3, "ada.bellokuje2", "ada.bellokuje@y.ng")] := by
  decide +kernel

theorem office_identified : Logins.Identified auth office := by
  have hone {i : ℕ} {a : Login} (h : (office.table .user).get i = some a) : i = 1 ∧ a = clerk := by
    rw [office, Table.get_insert] at h
    split at h
    case isTrue hi => exact ⟨hi, by simpa [eq_comm] using h⟩
    case isFalse => simp at h
  constructor
  · exact fun ha hb _ => (hone ha).1.trans (hone hb).1.symm
  · exact fun ha hb _ => (hone ha).1.trans (hone hb).1.symm
  · intro i a ha
    rw [(hone ha).2]
    exact ⟨by decide, by decide, List.all_eq_true.mp (by decide)⟩

theorem served_ask {s : Logins × (LoginName → ℕ)} (r : LoginRequest)
    (h : ∃ verdicts, Logins.Served auth office verdicts s.1) :
    ∃ verdicts, Logins.Served auth office verdicts (ask r s).1 := by
  obtain ⟨_, h⟩ := h
  exact ⟨_, .serve secrets 1 r h rfl⟩

set_option maxRecDepth 20000 in
-- The email signs in whatever the case, the old one does not, and neither does the username of another one.
theorem sample_signs_in : Logins.SignsIn auth onboarded.1 ∧
    onboarded.1.validate auth "BELLO@Z.NG" "adas password" = some 2 ∧
    onboarded.1.validate auth "Ada.Bello+kuje@x.ng" "adas password" = none := by
  have hstart : ∃ verdicts, Logins.Served auth office verdicts office := ⟨[], .start⟩
  have hserved : ∃ verdicts, Logins.Served auth office verdicts onboarded.1 :=
    served_ask _ <| served_ask _ <| served_ask _ <| @served_ask (office, fun _ => 2) _ hstart
  obtain ⟨_, h⟩ := hserved
  exact ⟨Logins.signs_in_as_owner office_identified h, by decide +kernel, by decide +kernel⟩

end Sample

end ACRev360
