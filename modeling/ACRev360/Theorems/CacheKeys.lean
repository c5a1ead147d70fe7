import ACRev360.Services.CacheKeys
import ACRev360.Theorems.ReadModels

namespace ACRev360

section Isoformat

variable {c d n400 n100 n4 n1 rest : ℕ}

-- The cycles of 400, 100, 4 and 1 years before a date. The last day of a cycle ends no shorter ones.
structure Cycles (d n400 n100 n4 n1 rest : ℕ) : Prop where
  ordinal   : d = 146097 * n400 + 36524 * n100 + 1461 * n4 + 365 * n1 + rest + 1
  cases     : n100 ≤ 3 ∧ n4 ≤ 24 ∧ n1 ≤ 3 ∧ rest ≤ 364 ∨ n100 ≤ 3 ∧ n4 ≤ 23 ∧ n1 = 4 ∧ rest = 0 ∨
    n100 = 4 ∧ n4 = 0 ∧ n1 = 0 ∧ rest = 0
  year      : Date.year d = if n1 = 4 ∨ n100 = 4 then 400 * n400 + 100 * n100 + 4 * n4 + n1
    else 400 * n400 + 100 * n100 + 4 * n4 + n1 + 1
  dayOfYear : Date.dayOfYear d = if n1 = 4 ∨ n100 = 4 then 365 else rest

theorem cycles (h : 0 < d) : ∃ n400 n100 n4 n1 rest, Cycles d n400 n100 n4 n1 rest := by
  refine ⟨(d - 1) / 146097, (d - 1) % 146097 / 36524, (d - 1) % 146097 % 36524 / 1461,
    (d - 1) % 146097 % 36524 % 1461 / 365, (d - 1) % 146097 % 36524 % 1461 % 365, by omega, ?_, rfl, rfl⟩
  have hr : (d - 1) % 146097 < 146097 := Nat.mod_lt _ (by decide)
  generalize (d - 1) % 146097 = r at hr ⊢
  have h100 := Nat.div_add_mod r 36524
  have hs : r % 36524 < 36524 := Nat.mod_lt _ (by decide)
  generalize r % 36524 = s, r / 36524 = n100 at h100 hs ⊢
  have h4 := Nat.div_add_mod s 1461
  have ht : s % 1461 < 1461 := Nat.mod_lt _ (by decide)
  generalize s % 1461 = t, s / 1461 = n4 at h4 ht ⊢
  have h1 := Nat.div_add_mod t 365
  have hrest : t % 365 < 365 := Nat.mod_lt _ (by decide)
  generalize t % 365 = rest, t / 365 = n1 at h1 hrest ⊢
  have hn4 : n4 ≤ 24 := by omega
  have hn1 : n1 ≤ 4 := by omega
  rcases Nat.lt_or_ge n100 4 with hlt | hge
  case inl => rcases Nat.lt_or_ge n1 4 with h1lt | h1ge <;> omega
  case inr => omega

-- The year and the day of the year are those of one date only.
theorem ordinal_inj (hc : 0 < c) (hd : 0 < d) (hyear : Date.year c = Date.year d)
    (hday : Date.dayOfYear c = Date.dayOfYear d) : c = d := by
  obtain ⟨m400, m100, m4, m1, rest, hm⟩ := cycles hc
  obtain ⟨n400, n100, n4, n1, rest', hn⟩ := cycles hd
  rw [hm.year, hn.year] at hyear
  rw [hm.dayOfYear, hn.dayOfYear] at hday
  rw [hm.ordinal, hn.ordinal]
  have hmc := hm.cases
  have hnc := hn.cases
  split at hyear <;> split at hyear <;> simp_all <;> omega

theorem inMonths_pos (lengths : List ℕ) (n : ℕ) : 1 ≤ (inMonths lengths n).1 := by
  cases lengths with
  | nil => exact Nat.le_refl _
  | cons len months =>
    rw [inMonths]
    split
    · exact Nat.le_refl _
    · exact Nat.le_add_left ..

-- A day of the year is the days of the months before its own and its day of the month.
theorem inMonths_sum {lengths : List ℕ} {n : ℕ} :
    (lengths.take <| (inMonths lengths n).1 - 1).sum + ((inMonths lengths n).2 - 1) = n := by
  induction lengths generalizing n with
  | nil => simp [inMonths]
  | cons len months hi =>
    rw [inMonths]
    split
    case isTrue => simp
    case isFalse h =>
      obtain ⟨m, hm⟩ := Nat.exists_eq_add_of_le' <| inMonths_pos months (n - len)
      specialize hi (n := n - len)
      simp only [hm, Nat.add_sub_cancel] at hi ⊢
      rw [List.take_succ_cons, List.sum_cons]
      omega

theorem inMonths_inj {lengths : List ℕ} {m n : ℕ} (h : inMonths lengths m = inMonths lengths n) : m = n := by
  rw [← @inMonths_sum lengths m, h, inMonths_sum]

theorem zeroPadded_inj {width m n : ℕ} (h : zeroPadded width m = zeroPadded width n) : m = n := by
  have hread (n : ℕ) : Nat.ofDigitChars 10 ((Nat.toDigits 10 n).leftpad width '0') 0 = n := by
    have hzeros (k : ℕ) (l : List Char) :
        Nat.ofDigitChars 10 (List.replicate k '0' ++ l) 0 = Nat.ofDigitChars 10 l 0 := by
      induction k with
      | zero => rfl
      | succ k hi => simpa [List.replicate_succ, Nat.ofDigitChars] using hi
    rw [List.leftpad, hzeros, Nat.ofDigitChars_ten_toDigits]
  rw [← hread m, String.ofList_injective h, hread]

theorem isDigit_of_mem_zeroPadded {width n : ℕ} {c : Char} (h : c ∈ (zeroPadded width n).toList) : c.isDigit := by
  rw [zeroPadded, String.toList_ofList, List.leftpad, List.mem_append] at h
  cases h with
  | inl h => rw [List.eq_of_mem_replicate h]; decide
  | inr h => exact Nat.isDigit_of_mem_toDigits (by decide) (by decide) h

theorem free_zeroPadded {sep : Char} {width n : ℕ} (h : sep.isDigit = false) : Free sep (zeroPadded width n) := by
  intro hmem
  simp [isDigit_of_mem_zeroPadded hmem] at h

theorem isoformat_eq : Date.isoformat d = (String.singleton '-').intercalate [zeroPadded 4 (Date.year d),
    zeroPadded 2 (inMonths (monthLengths <| Date.year d) (Date.dayOfYear d)).1,
    zeroPadded 2 (inMonths (monthLengths <| Date.year d) (Date.dayOfYear d)).2] := rfl

theorem isoformat_inj (hc : 0 < c) (hd : 0 < d) (h : Date.isoformat c = Date.isoformat d) : c = d := by
  rw [isoformat_eq, isoformat_eq] at h
  obtain ⟨hyear, h⟩ := Delimited.intercalate_cons_inj (free_zeroPadded rfl) (free_zeroPadded rfl) h
  obtain ⟨hmonth, h⟩ := Delimited.intercalate_cons_inj (free_zeroPadded rfl) (free_zeroPadded rfl) h
  have hyear := zeroPadded_inj hyear
  have hmonth := zeroPadded_inj hmonth
  have hday := zeroPadded_inj <| by simpa using h
  rw [hyear] at hmonth hday
  exact ordinal_inj hc hd hyear <| inMonths_inj <| Prod.ext hmonth hday

end Isoformat

section Parts

variable {sep : Char} {a b : Option ℕ} {l m : Option AccessLevel} {f f' g g' : String} {fs gs : List String}

theorem str_inj (h : str a = str b) : a = b := by
  have hnone {n : ℕ} : toString n ≠ "None" := by
    intro hn
    have hdigit := Delimited.isDigit_of_mem_toString (n := n) (c := 'N') (by rw [hn]; decide)
    contradiction
  cases a with
  | none =>
    cases b with
    | none => rfl
    | some n => exact absurd h.symm hnone
  | some m =>
    cases b with
    | none => exact absurd h hnone
    | some n => exact congrArg some <| Delimited.toString_inj.mp h

theorem free_str (hdigit : sep.isDigit = false) (hnone : Free sep "None") : Free sep (str a) := by
  cases a with
  | none => exact hnone
  | some n => exact Delimited.free_toString hdigit

def AccessLevel.all : List AccessLevel :=
  [councilAdmin, consultant, agent, globalView, revenueOfficer, superAdmin, platformAdmin, devopsAdmin, bdView,
    complianceView, financeAdmin, supportAdmin, analyticsView, externalAuditor, councilIgrHead, councilTreasury,
    councilAuditor, councilIt, consultantStaff, agentSupervisor, ratepayer, ratepayerProxy]

def levels : List (Option AccessLevel) :=
  none :: AccessLevel.all.map some

theorem mem_levels : l ∈ levels := by
  rcases l with _ | l
  · decide
  · cases l <;> decide

theorem strLevel_inj (h : strLevel l = strLevel m) : l = m := by
  have hnodup : (levels.map strLevel).Nodup := by decide +kernel
  exact List.inj_on_of_nodup_map hnodup mem_levels mem_levels h

theorem free_strLevel : Free '|' (strLevel l) := by
  have hfree : ∀ l ∈ levels, Free '|' (strLevel l) := by decide +kernel
  exact hfree l mem_levels

theorem digestInput_cons_inj (hf : Free '|' f) (hg : Free '|' g)
    (h : digestInput (f :: f' :: fs) = digestInput (g :: g' :: gs)) :
    f = g ∧ digestInput (f' :: fs) = digestInput (g' :: gs) :=
  Delimited.intercalate_cons_inj hf hg h

theorem digestInput_singleton : digestInput [f] = f := by
  simp [digestInput]

theorem Token.free {t : Token} (h : sep ∉ "0123456789abcdef".toList) : Free sep t.hex :=
  fun hmem => h <| t.isHex sep hmem

end Parts

section Scope

variable {d : Rows} {user user' : Caller}

-- The viewer is what `portfolio_filter` branches on.
theorem visible_viewer : d.visible user.viewer = d.portfolioFilter user := by
  funext p
  rw [Caller.viewer, Rows.portfolioFilter]
  cases user.accessLevel with
  | none => rfl
  | some l =>
    cases l with
    | agentSupervisor => cases hw : d.wardOf user.id <;> simp [Rows.visible, hw]
    | _ => rfl

-- The scope in the key is what the catalogue's queryset branches on.
theorem itemListed_scope : d.itemListed user = (d.inScope · user.scope) := by
  funext item
  rw [Caller.scope, Rows.itemListed]
  cases user.accessLevel with
  | none => rfl
  | some l => cases l <;> cases user.consultant <;> rfl

end Scope

namespace CachedRequest

variable {state : ℕ → Rows} {read : String → Option CatalogueQuery} {token token' : Namespace → Token}
variable {r r' : CachedRequest} {user user' : Caller} {today today' : {d : Date // 0 < d}} {q q' : String}

-- Whom the payload is for: the council, and what of its payers and items the caller is shown.
def visibility (state : ℕ → Rows) : CachedRequest → Option ℕ × (Payer → Bool) × (ℕ → Bool)
  | summary user _         => (user.council, (Rows.ofCouncil state user.council).portfolioFilter user, fun _ => true)
  | dashboardGlobal user   => (user.council, fun _ => true, fun _ => true)
  | catalogue user _       => (user.council, fun _ => true, (Rows.ofCouncil state user.council).itemListed user)

-- Two requests that one payload answers, from the cache or as what the caller already has.
def Shared (token token' : Namespace → Token) (r r' : CachedRequest) : Prop :=
  (∃ k, r.key token = some k ∧ r'.key token' = some k) ∨ ∃ e, r.etag token = some e ∧ r'.etag token' = some e

-- What a shared payload has been computed for is the same.
structure Alike (state : ℕ → Rows) (read : String → Option CatalogueQuery) (r r' : CachedRequest) : Prop where
  visibility : r.visibility state = r'.visibility state
  fresh      : r.fresh state read = r'.fresh state read

theorem summary_alike (hcouncil : user.council = user'.council)
    (h : digestInput (summary user today).parts = digestInput (summary user' today').parts) :
    Alike state read (summary user today) (summary user' today') := by
  have hnone : Free '|' "None" := by decide
  obtain ⟨-, h⟩ := digestInput_cons_inj (by decide) (by decide) h
  obtain ⟨hlevel, h⟩ := digestInput_cons_inj free_strLevel free_strLevel h
  obtain ⟨hconsultant, h⟩ := digestInput_cons_inj (free_str rfl hnone) (free_str rfl hnone) h
  obtain ⟨hid, h⟩ := digestInput_cons_inj (free_str rfl hnone) (free_str rfl hnone) h
  rw [digestInput_singleton, digestInput_singleton] at h
  have hlevel := strLevel_inj hlevel
  have hconsultant := str_inj hconsultant
  have hid := str_inj hid
  obtain rfl : today = today' := Subtype.ext <| isoformat_inj today.2 today'.2 h
  have hviewer : user.viewer = user'.viewer := by
    unfold Caller.viewer
    rw [← hlevel, ← hconsultant]
    rw [← hlevel] at hid
    split <;> simp_all
  constructor
  case visibility => simp only [visibility, ← visible_viewer, hcouncil, hviewer]
  case fresh => simp only [fresh, hcouncil, hviewer]

theorem dashboardGlobal_alike (hcouncil : user.council = user'.council)
    (h : digestInput (dashboardGlobal user).parts = digestInput (dashboardGlobal user').parts) :
    Alike state read (dashboardGlobal user) (dashboardGlobal user') := by
  obtain ⟨-, h⟩ := digestInput_cons_inj (by decide) (by decide) h
  rw [digestInput_singleton, digestInput_singleton] at h
  have hlevel := strLevel_inj h
  constructor
  case visibility => simp only [visibility, hcouncil]
  case fresh => simp only [fresh, hcouncil, hlevel]

theorem catalogue_alike (h : digestInput (catalogue user q).parts = digestInput (catalogue user' q').parts) :
    Alike state read (catalogue user q) (catalogue user' q') := by
  have hnone : Free '|' "None" := by decide
  have hshared : user.council = user'.council ∧ user.scope = user'.scope ∧ q = q' := by
    -- The tag of the scope says which parts are there.
    cases hs : user.scope <;> cases hs' : user'.scope <;> simp only [parts, hs, hs'] at h <;>
      obtain ⟨hcouncil, h⟩ := digestInput_cons_inj (free_str rfl hnone) (free_str rfl hnone) h <;>
      obtain ⟨htag, h⟩ := digestInput_cons_inj (by decide) (by decide) h
    case consultant.consultant =>
      obtain ⟨hconsultant, h⟩ := digestInput_cons_inj (free_str rfl hnone) (free_str rfl hnone) h
      exact ⟨str_inj hcouncil, congrArg _ <| str_inj hconsultant, by simpa [digestInput_singleton] using h⟩
    case agent.agent =>
      obtain ⟨hid, h⟩ := digestInput_cons_inj (free_str rfl hnone) (free_str rfl hnone) h
      obtain ⟨hconsultant, h⟩ := digestInput_cons_inj (free_str rfl hnone) (free_str rfl hnone) h
      have hid := Option.some.inj <| str_inj hid
      exact ⟨str_inj hcouncil, congrArg₂ _ hid <| str_inj hconsultant, by simpa [digestInput_singleton] using h⟩
    case all.all => exact ⟨str_inj hcouncil, rfl, by simpa [digestInput_singleton] using h⟩
    all_goals exact absurd htag (by decide)
  obtain ⟨hcouncil, hscope, rfl⟩ := hshared
  have hlisted (d : Rows) : d.itemListed user = d.itemListed user' := by
    rw [itemListed_scope, itemListed_scope, hscope]
  constructor
  case visibility => simp only [visibility, hcouncil, hlisted]
  case fresh => simp only [fresh, Rows.listItems, hcouncil, hlisted]

theorem key_inj {k : String} (h : r.key token = some k) (h' : r'.key token' = some k) :
    ∃ p p', r.place = some p ∧ r'.place = some p' ∧ p.1 = p'.1 ∧ p.2.1 = p'.2.1 ∧
      digestInput r.parts = digestInput r'.parts := by
  obtain ⟨p, hp, hk⟩ := Option.map_eq_some_iff.mp h
  obtain ⟨p', hp', hk'⟩ := Option.map_eq_some_iff.mp h'
  have hnamespace {r : CachedRequest} {p} (hp : r.place = some p) : Free ':' p.1 := by
    cases r with
    | catalogue => cases hp; decide
    | summary user | dashboardGlobal user =>
      obtain ⟨_, _, rfl⟩ := Option.map_eq_some_iff.mp hp
      exact (by decide : Free ':' "dashboard")
  refine ⟨p, p', hp, hp', ?_⟩
  have h : (String.singleton ':').intercalate _ = (String.singleton ':').intercalate _ := hk.trans hk'.symm
  obtain ⟨-, h⟩ := Delimited.intercalate_cons_inj (by decide) (by decide) h
  obtain ⟨hns, h⟩ := Delimited.intercalate_cons_inj (hnamespace hp) (hnamespace hp') h
  obtain ⟨hcouncil, h⟩ := Delimited.intercalate_cons_inj (free_str rfl (by decide)) (free_str rfl (by decide)) h
  obtain ⟨-, h⟩ := Delimited.intercalate_cons_inj (Token.free (by decide)) (Token.free (by decide)) h
  exact ⟨hns, str_inj hcouncil, by simpa using h⟩

-- The digest of an ETag has the token in front of the parts of the key.
theorem etag_inj {e : String} (h : r.etag token = some e) (h' : r'.etag token' = some e) :
    ∃ user q user' q', r = catalogue user q ∧ r' = catalogue user' q' ∧
      digestInput r.parts = digestInput r'.parts := by
  have hhex {t : Token} : Free '|' t.hex := Token.free (by decide)
  cases r with
  | summary | dashboardGlobal => contradiction
  | catalogue user q =>
    cases r' with
    | summary | dashboardGlobal => contradiction
    | catalogue user' q' =>
      obtain ⟨-, h⟩ := digestInput_cons_inj hhex hhex <| Option.some.inj <| h.trans h'.symm
      exact ⟨user, q, user', q', rfl, rfl, h⟩

end CachedRequest

open CachedRequest in
-- What one payload answers are requests for which the same would be computed from the same payers and items.
theorem shared_alike {state : ℕ → Rows} {read : String → Option CatalogueQuery} {token token' : Namespace → Token}
    {r r' : CachedRequest} (h : Shared token token' r r') : Alike state read r r' := by
  rcases h with ⟨k, h, h'⟩ | ⟨e, h, h'⟩
  case inr =>
    obtain ⟨user, q, user', q', rfl, rfl, hparts⟩ := etag_inj h h'
    exact catalogue_alike hparts
  case inl =>
    obtain ⟨p, p', hp, hp', hns, hcouncil, hparts⟩ := key_inj h h'
    have hdashboard {user user' : Caller} (hp : user.council.map (fun c => ("dashboard", some c, Namespace.dashboard c)) =
        some p) (hp' : user'.council.map (fun c => ("dashboard", some c, Namespace.dashboard c)) = some p') :
        user.council = user'.council := by
      obtain ⟨c, hc, rfl⟩ := Option.map_eq_some_iff.mp hp
      obtain ⟨c', hc', rfl⟩ := Option.map_eq_some_iff.mp hp'
      exact hc.trans <| hcouncil.trans hc'.symm
    have hne : "dashboard" ≠ "catalogue" := by decide
    cases r <;> cases r'
    case summary.summary => exact summary_alike (hdashboard hp hp') hparts
    case dashboardGlobal.dashboardGlobal => exact dashboardGlobal_alike (hdashboard hp hp') hparts
    case catalogue.catalogue => exact catalogue_alike hparts
    case summary.dashboardGlobal | dashboardGlobal.summary =>
      exact absurd (digestInput_cons_inj (by decide) (by decide) hparts).1 (by decide)
    case summary.catalogue | dashboardGlobal.catalogue =>
      obtain ⟨_, _, rfl⟩ := Option.map_eq_some_iff.mp hp
      cases hp'
      exact absurd hns hne
    case catalogue.summary | catalogue.dashboardGlobal =>
      obtain ⟨_, _, rfl⟩ := Option.map_eq_some_iff.mp hp'
      cases hp
      exact absurd hns.symm hne

namespace Sample

-- Of two councils, one has a bill that has been paid.
def councils (council : ℕ) : Rows :=
  if council = 1 then paidRows else Rows.unset

def token : Token :=
  ⟨"5f", by simp⟩

def adminSummary (user council : ℕ) : CachedRequest :=
  .summary ⟨user, some council, some .councilAdmin, none⟩ ⟨736330, by decide⟩

end Sample

set_option maxRecDepth 20000 in
theorem sample_alike : Sample.adminSummary 1 1 ≠ Sample.adminSummary 2 1 ∧
    (Sample.adminSummary 1 1).Alike Sample.councils (fun _ => none) (Sample.adminSummary 2 1) :=
  have hshared : CachedRequest.Shared (fun _ => Sample.token) (fun _ => Sample.token) (Sample.adminSummary 1 1)
      (Sample.adminSummary 2 1) := .inl ⟨_, rfl, by decide +kernel⟩
  ⟨fun h => (nomatch h), shared_alike hshared⟩

set_option maxRecDepth 20000 in
-- The admins of two councils have the same parts, and the council stands in the key next to their digest.
theorem parts_not_alike : ¬∀ (state : ℕ → Rows) (read : String → Option CatalogueQuery) (r r' : CachedRequest),
    digestInput r.parts = digestInput r'.parts → r.fresh state read = r'.fresh state read := by
  intro h
  have hparts : digestInput (Sample.adminSummary 1 1).parts = digestInput (Sample.adminSummary 1 2).parts := rfl
  have hfresh := h Sample.councils (fun _ => none) _ _ hparts
  have hne : (Sample.adminSummary 1 1).fresh Sample.councils (fun _ => none) ≠
      (Sample.adminSummary 1 2).fresh Sample.councils (fun _ => none) := by decide +kernel
  exact hne hfresh

end ACRev360
