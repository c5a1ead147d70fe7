import ACRev360.Services.PlatformScope
import ACRev360.Theorems.TenantContext

namespace ACRev360

@[simp]
theorem Ran.after_out {ε ρ : Type} {l : List TenantEvent} {r : Ran ε ρ} : (r.after l).out = r.out := rfl

-- Each council's query runs under the council, and the results come one after another.
theorem platformWideQueryset_out {ε ρ : Type} {f : ℕ → CouncilId → ρ} {k : List ρ → Handler ε ρ}
    (hk : ∀ results own s s', ((k results).exec own s).out = ((k results).exec own s').out)
    {accessible : List ℕ} {results : List ρ} {own : CouncilId} {s : Setting CouncilId} :
    ((platformWideQueryset (fun c => .query fun seen => .ret (f c seen)) k accessible results).exec own s).out =
      ((k (results ++ accessible.map fun c => f c (some c))).exec own s).out := by
  induction accessible generalizing results s with
  | nil => rw [platformWideQueryset, List.map_nil, List.append_nil]
  | cons c accessible hi =>
    simp only [platformWideQueryset, Handler.exec, Ran.after, Setting.save, Setting.setLocal, Setting.release]
    rw [hi, List.append_assoc, List.map_cons, List.singleton_append]
    exact hk _ own _ _

section Platform

variable {p : Platform} {icontains : String → String → Bool} {now : Instant} {user : ℕ} {level : AccessLevel}
variable {params : QueryParams} {v : PlatformWideView} {s : Setting CouncilId} {k : ℕ} {r : v.Row} {council : ℕ}

-- The councils that a user of the platform may read: by the grants that have not expired, or all active ones.
def Entitled (p : Platform) (now : Instant) (user : ℕ) (level : AccessLevel) (council : ℕ) : Prop :=
  if level = .externalAuditor then
    ∃ k g, p.grants.get k = some g ∧ g.user = user ∧ g.council = council ∧ ∀ t ∈ g.expiresAt, now < t
  else ∃ c, p.councils.get council = some c ∧ c.isActive

-- The matching rows of the councils that the user is entitled to.
structure Due (p : Platform) (icontains : String → String → Bool) (now : Instant) (user : ℕ) (level : AccessLevel)
    (params : QueryParams) (v : PlatformWideView) (k : ℕ) (r : v.Row) : Prop where
  get      : (p.rows v).get k = some r
  entitled : Entitled p now user level (v.council r)
  selected : p.selects icontains params (some (v.council r)) v r

-- A list and its objects are complete and exact.
structure Exact (p : Platform) (icontains : String → String → Bool) (now : Instant) (user : ℕ) (level : AccessLevel)
    (params : QueryParams) (v : PlatformWideView) (s : Setting CouncilId) : Prop where
  listed  : ∃ rows, (serveUnder none (p.list icontains now user level params v) s).out = .ok rows ∧
    (rows.map (·.1)).Nodup ∧ ∀ k r, (k, r) ∈ rows ↔ Due p icontains now user level params v k r
  found   : ∀ k r, (serveUnder none (p.getObject icontains now user level params v k) s).out = .ok [(k, r)] ↔
    Due p icontains now user level params v k r
  missing : ∀ k, (∀ r, ¬Due p icontains now user level params v k r) →
    (serveUnder none (p.getObject icontains now user level params v k) s).out = .error .notFound

theorem mem_platformQuerysetFn {pk : Option ℕ} :
    (k, r) ∈ p.platformQuerysetFn icontains params v pk council (some council) ↔
      (p.rows v).get k = some r ∧ v.council r = council ∧ p.selects icontains params (some council) v r ∧
        pk.all (k = ·) := by
  rw [Platform.platformQuerysetFn, Table.mem_filter_iff]
  simp only [Bool.and_eq_true, decide_eq_true_eq, Option.some.injEq, and_assoc]
  constructor
  · rintro ⟨hget, -, hcouncil, hselected, hpk⟩
    exact ⟨hget, hcouncil, hselected, hpk⟩
  · rintro ⟨hget, hcouncil, hselected, hpk⟩
    exact ⟨hget, hcouncil.symm, hcouncil, hselected, hpk⟩

-- The rows that a user without a council gets to see of a view.
def accessibleRows (p : Platform) (icontains : String → String → Bool) (now : Instant) (user : ℕ)
    (level : AccessLevel) (params : QueryParams) (v : PlatformWideView) (pk : Option ℕ) : List (ℕ × v.Row) :=
  (p.accessibleCouncilIds now user level).flatMap fun c => p.platformQuerysetFn icontains params v pk c (some c)

theorem list_out : (serveUnder none (p.list icontains now user level params v) s).out =
    .ok (accessibleRows p icontains now user level params v none) :=
  platformWideQueryset_out fun _ _ _ _ => rfl

theorem getObject_out : (serveUnder none (p.getObject icontains now user level params v k) s).out =
    match accessibleRows p icontains now user level params v (some k) with
    | row :: _ => .ok [row]
    | []       => .error .notFound := by
  refine (platformWideQueryset_out fun results own s s' => ?_).trans ?_
  · cases results.flatten <;> rfl
  · rw [List.nil_append, ← List.flatMap_def]
    show ((match accessibleRows p icontains now user level params v (some k) with
      | row :: _ => .ret [row]
      | []       => .raise .notFound : Handler Error (List (ℕ × v.Row))).exec _ _).out = _
    cases accessibleRows p icontains now user level params v (some k) <;> rfl

theorem mem_accessibleRows {pk : Option ℕ} : (k, r) ∈ accessibleRows p icontains now user level params v pk ↔
    v.council r ∈ p.accessibleCouncilIds now user level ∧ (p.rows v).get k = some r ∧
      p.selects icontains params (some (v.council r)) v r ∧ pk.all (k = ·) := by
  simp only [accessibleRows, List.mem_flatMap, mem_platformQuerysetFn]
  constructor
  · rintro ⟨c, hc, hget, rfl, hselected, hpk⟩
    exact ⟨hc, hget, hselected, hpk⟩
  · rintro ⟨hc, hget, hselected, hpk⟩
    exact ⟨_, hc, hget, rfl, hselected, hpk⟩

theorem accessibleCouncilIds_nodup : (p.accessibleCouncilIds now user level).Nodup := by
  have hgrants {i j : ℕ} {g h : CouncilGrant} (hg : p.grants.get i = some g) (hh : p.grants.get j = some h)
      (hgu : g.user = user) (hhu : h.user = user) (hc : g.council = h.council) : g = h := by
    obtain rfl := p.unique hg hh (hgu.trans hhu.symm) hc
    exact Option.some.inj <| hg.symm.trans hh
  have hfilter (q : Option Instant → Bool) :
      ((p.grants.filter fun _ g => g.user = user && q g.expiresAt).map (·.2.council)).Nodup := by
    refine List.Nodup.map_on (fun x hx y hy hc => ?_) (List.Nodup.of_map _ Table.keys_nodup)
    obtain ⟨hx, hxq⟩ := Table.mem_filter_iff.mp hx
    obtain ⟨hy, hyq⟩ := Table.mem_filter_iff.mp hy
    simp only [Bool.and_eq_true, decide_eq_true_eq] at hxq hyq
    exact Prod.ext (p.unique hx hy (hxq.1.trans hyq.1.symm) hc) (hgrants hx hy hxq.1 hyq.1 hc)
  rw [Platform.accessibleCouncilIds]
  split
  case isTrue =>
    refine List.nodup_append.mpr ⟨hfilter (· = none), hfilter (·.any (now < ·)), fun c hc c' hc' he => ?_⟩
    -- A grant does not both expire and never expire.
    obtain ⟨x, hx, rfl⟩ := List.mem_map.mp hc
    obtain ⟨y, hy, rfl⟩ := List.mem_map.mp hc'
    obtain ⟨hx, hxq⟩ := Table.mem_filter_iff.mp hx
    obtain ⟨hy, hyq⟩ := Table.mem_filter_iff.mp hy
    simp only [Bool.and_eq_true, decide_eq_true_eq] at hxq hyq
    have hsame := hgrants hx hy hxq.1 hyq.1 he
    simp [← hsame, hxq.2] at hyq
  case isFalse =>
    split
    · exact Table.keys_nodup
    · exact List.nodup_nil

theorem mem_grantedCouncilIds : council ∈ p.grantedCouncilIds now user ↔
    ∃ k g, p.grants.get k = some g ∧ g.user = user ∧ g.council = council ∧ ∀ t ∈ g.expiresAt, now < t := by
  simp only [Platform.grantedCouncilIds, List.mem_append, List.mem_map, Prod.exists, Table.mem_filter_iff,
    Bool.and_eq_true, decide_eq_true_eq]
  constructor
  · rintro (⟨k, g, ⟨hget, huser, hexpires⟩, hcouncil⟩ | ⟨k, g, ⟨hget, huser, hexpires⟩, hcouncil⟩)
    · exact ⟨k, g, hget, huser, hcouncil, by simp [hexpires]⟩
    · refine ⟨k, g, hget, huser, hcouncil, fun t ht => ?_⟩
      rw [Option.mem_def.mp ht] at hexpires
      exact of_decide_eq_true hexpires
  · rintro ⟨k, g, hget, huser, hcouncil, hexpires⟩
    cases ht : g.expiresAt with
    | none => exact .inl ⟨k, g, ⟨hget, huser, ht⟩, hcouncil⟩
    | some t => exact .inr ⟨k, g, ⟨hget, huser, by simpa [ht] using hexpires t ht⟩, hcouncil⟩

-- The user is entitled to what is accessible, and the other way round if `accessible_council_ids` knows the
-- user's level.
theorem entitled_of_accessible (h : council ∈ p.accessibleCouncilIds now user level) :
    Entitled p now user level council := by
  rw [Platform.accessibleCouncilIds] at h
  split at h
  case isTrue hl =>
    have hl : level = .externalAuditor := by simpa [AccessLevel.grantScoped] using hl
    rw [Entitled, if_pos hl]
    exact mem_grantedCouncilIds.mp h
  case isFalse hl =>
    have hl : level ≠ .externalAuditor := by simpa [AccessLevel.grantScoped] using hl
    rw [Entitled, if_neg hl]
    split at h
    case isTrue =>
      obtain ⟨c, hc, rfl⟩ := List.mem_map.mp h
      exact ⟨c.2, Table.mem_filter_iff.mp hc⟩
    case isFalse => contradiction

theorem accessible_of_entitled (hl : level.grantScoped ∨ level.allCouncils) (h : Entitled p now user level council) :
    council ∈ p.accessibleCouncilIds now user level := by
  rw [Entitled] at h
  rw [Platform.accessibleCouncilIds]
  split at h
  case isTrue hauditor =>
    rw [if_pos (by simp [AccessLevel.grantScoped, hauditor])]
    exact mem_grantedCouncilIds.mpr h
  case isFalse hauditor =>
    have hgrant : ¬level.grantScoped := by simpa [AccessLevel.grantScoped] using hauditor
    obtain ⟨c, hc⟩ := h
    rw [if_neg hgrant, if_pos (hl.resolve_left hgrant)]
    exact List.mem_map.mpr ⟨(council, c), Table.mem_filter_iff.mpr hc, rfl⟩

theorem accessibleRows_nodup {pk : Option ℕ} :
    ((accessibleRows p icontains now user level params v pk).map (·.1)).Nodup := by
  rw [accessibleRows, List.map_flatMap, List.nodup_flatMap]
  refine ⟨fun c _ => Table.keys_nodup, accessibleCouncilIds_nodup.imp fun {c c'} hne => ?_⟩
  intro k hk hk'
  obtain ⟨x, hx, rfl⟩ := List.mem_map.mp hk
  obtain ⟨y, hy, he⟩ := List.mem_map.mp hk'
  obtain ⟨hx, hxc, -⟩ := mem_platformQuerysetFn.mp hx
  obtain ⟨hy, hyc, -⟩ := mem_platformQuerysetFn.mp hy
  rw [he, hx] at hy
  exact hne <| hxc.symm.trans <| (Option.some.inj hy) ▸ hyc

-- The list and its objects are exact as soon as the councils of what is due are accessible.
theorem exact_iff : Exact p icontains now user level params v s ↔
    ∀ k r, Due p icontains now user level params v k r → v.council r ∈ p.accessibleCouncilIds now user level := by
  constructor
  case mp =>
    rintro h k r hdue
    obtain ⟨rows, hrows, -, hmem⟩ := h.listed
    obtain rfl := Except.ok.inj <| list_out.symm.trans hrows
    exact (mem_accessibleRows.mp <| (hmem k r).mpr hdue).1
  case mpr =>
    intro h
    have hmem (pk : Option ℕ) (k : ℕ) (r : v.Row) : (k, r) ∈ accessibleRows p icontains now user level params v pk ↔
        Due p icontains now user level params v k r ∧ pk.all (k = ·) := by
      rw [mem_accessibleRows]
      constructor
      · rintro ⟨hc, hget, hselected, hpk⟩
        exact ⟨⟨hget, entitled_of_accessible hc, hselected⟩, hpk⟩
      · rintro ⟨hdue, hpk⟩
        exact ⟨h k r hdue, hdue.get, hdue.selected, hpk⟩
    constructor
    case listed => exact ⟨_, list_out, accessibleRows_nodup, fun k r => by simp [hmem]⟩
    case found =>
      intro k r
      have hmem := hmem (some k)
      rw [getObject_out]
      generalize accessibleRows p icontains now user level params v (some k) = rows at hmem
      cases rows with
      | nil =>
        refine ⟨fun h => (nomatch h), fun hdue => ?_⟩
        exact absurd ((hmem k r).mpr ⟨hdue, by simp⟩) List.not_mem_nil
      | cons row rows =>
        obtain ⟨hrow, hk⟩ := (hmem row.1 row.2).mp <| .head _
        obtain rfl : row.1 = k := by simpa using hk
        constructor
        · intro heq
          have heq : row.2 = r := congrArg Prod.snd <| List.head_eq_of_cons_eq <| Except.ok.inj heq
          exact heq ▸ hrow
        · intro hdue
          obtain rfl : row.2 = r := Option.some.inj <| hrow.get.symm.trans hdue.get
          rfl
    case missing =>
      intro k hk
      have hnone : accessibleRows p icontains now user level params v (some k) = [] := by
        refine List.eq_nil_iff_forall_not_mem.mpr fun row hrow => ?_
        obtain ⟨hdue, hpk⟩ := (hmem (some k) row.1 row.2).mp hrow
        obtain rfl : row.1 = k := by simpa using hpk
        exact hk row.2 hdue
      rw [getObject_out, hnone]

end Platform

-- The lists of the views are complete and exact for the users of the platform whom they admit, except that
-- who administers integration keys sees none of them.
theorem platformWide_exact_iff {p : Platform} {icontains : String → String → Bool} {now : Instant} {user : ℕ}
    {level : AccessLevel} {params : QueryParams} {v : PlatformWideView} {s : Setting CouncilId}
    (htier : level.platformTier) (hadmits : v.admits level) :
    Exact p icontains now user level params v s ↔
      level ≠ .devopsAdmin ∨ ∀ k r, ¬Due p icontains now user level params v k r := by
  rw [exact_iff]
  constructor
  case mp =>
    intro h
    refine or_iff_not_imp_left.mpr fun hl k r hdue => ?_
    have hl : level = .devopsAdmin := not_not.mp hl
    have hnone : p.accessibleCouncilIds now user level = [] := by
      rw [hl]
      rfl
    exact absurd (h k r hdue) (hnone ▸ List.not_mem_nil)
  case mpr =>
    rintro (hl | hnone) k r hdue
    case inr => exact absurd hdue (hnone k r)
    case inl =>
      have hknown : level.grantScoped ∨ level.allCouncils := by
        cases v <;> cases level <;> first | contradiction | decide
      exact accessible_of_entitled hknown hdue.entitled

namespace Sample

-- A council with a firm and a key for a bank.
theorem ungranted {i j : ℕ} {g h : CouncilGrant} (hg : (Table.empty : Table CouncilGrant).get i = some g) :
    (Table.empty : Table CouncilGrant).get j = some h → g.user = h.user → g.council = h.council → i = j := by
  simp at hg

def platform : Platform where
  councils := Table.empty.insert 1 ⟨true⟩
  grants   := Table.empty
  rows
    | .commissionSettlement => Table.empty
    | .subConsultant        => Table.empty.insert 1 ⟨⟨1, 0, .active, none⟩, "Alpha Firm", "CR-ALPHA"⟩
    | .apiClient            => Table.empty.insert 1 ⟨1, "FirstBank Production", "key_1", true⟩
  unique   := ungranted

def noParams : QueryParams :=
  ⟨none, none, none⟩

def unset : Setting CouncilId :=
  ⟨none, []⟩

-- The user of the platform is due a row of council 1, whatever the level is.
theorem due_platform {level : AccessLevel} (hl : level ≠ .externalAuditor) :
    Due platform (· == ·) 0 7 level noParams .apiClient 1 ⟨1, "FirstBank Production", "key_1", true⟩ where
  get      := rfl
  entitled := by
    rw [Entitled, if_neg hl]
    exact ⟨⟨true⟩, rfl, rfl⟩
  selected := rfl

end Sample

theorem sample_exact : Exact Sample.platform (· == ·) 0 7 .platformAdmin Sample.noParams .subConsultant Sample.unset ↔
    AccessLevel.platformAdmin ≠ .devopsAdmin ∨
      ∀ k r, ¬Due Sample.platform (· == ·) 0 7 .platformAdmin Sample.noParams .subConsultant k r :=
  platformWide_exact_iff (by decide) (by decide)

-- Who administers integration keys is admitted to their list and does not see the one that there is.
theorem keys_not_listed : ¬∀ (p : Platform) (icontains : String → String → Bool) (now : Instant) (user : ℕ)
    (level : AccessLevel) (params : QueryParams) (v : PlatformWideView) (s : Setting CouncilId),
    level.platformTier → v.admits level → Exact p icontains now user level params v s := by
  intro h
  have hexact := h Sample.platform (· == ·) 0 7 .devopsAdmin Sample.noParams .apiClient Sample.unset (by decide) (by decide)
  have haccessible := exact_iff.mp hexact _ _ <| Sample.due_platform (by decide)
  contradiction

end ACRev360
