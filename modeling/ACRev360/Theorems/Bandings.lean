import ACRev360.Library.Total
import ACRev360.Theorems.Rates

namespace ACRev360

open Relational Relational.Database

-- Which sets of bands are accepted.

variable {s t : Db} {item k : ℕ} {today date : Date} {m : Name → ℕ}

section Validation

-- The specification says what its mode needs and nothing else.
def BandSpec.Fits (spec : BandSpec) : Prop :=
  match spec.rateMode with
  | none         => False
  | some .flat   => spec.flatAmount.isSome ∧ spec.minAmount = none ∧ spec.maxAmount = none ∧ spec.tiers = []
  | some .range  => (∃ min ∈ spec.minAmount, ∃ max ∈ spec.maxAmount, min.val.units ≤ max.val.units) ∧
    spec.flatAmount = none ∧ spec.tiers = []
  | some .tiered => 2 ≤ spec.tiers.length ∧ (spec.tiers.map fun t => strip t.label).Nodup ∧
    spec.flatAmount = none ∧ spec.minAmount = none ∧ spec.maxAmount = none

structure WellFormed (specs : List BandSpec) : Prop where
  labels : (specs.map fun spec => strip spec.label).Nodup
  blank  : ∀ spec ∈ specs, strip spec.label = "" → specs.length = 1
  fits   : ∀ spec ∈ specs, spec.Fits

-- What RateBandEntrySerializer lets through: one of the three modes, and tiers with labels and amounts.
structure BandSpec.Validated (spec : BandSpec) : Prop where
  rateMode : spec.rateMode.isSome
  label    : ∀ t ∈ spec.tiers, strip t.label ≠ ""
  amount   : ∀ t ∈ spec.tiers, t.amount.isSome

-- What is stored of a specification that is accepted.
structure Stands (spec : BandSpec) (band : Band) : Prop where
  label : band.label = strip spec.label
  tiers : band.tiers.map Tier.label = spec.tiers.map fun t => strip t.label
  nodup : (band.tiers.map Tier.label).Nodup

theorem tiers_of_mapM {specs : List TierSpec} (h : ∀ t ∈ specs, t.amount.isSome) :
    ∃ tiers, (specs.mapM fun t => t.amount.map (⟨strip t.label, ·⟩ : Rate → Tier)) = some tiers ∧
      tiers.map Tier.label = specs.map fun t => strip t.label := by
  induction specs with
  | nil => exact ⟨[], rfl, rfl⟩
  | cons t specs hi =>
    rw [List.forall_mem_cons] at h
    have ⟨amount, ha⟩ := Option.isSome_iff_exists.mp h.1
    have ⟨tiers, ht, hlabels⟩ := hi h.2
    exact ⟨⟨strip t.label, amount⟩ :: tiers, by simp [List.mapM_cons, ha, ht], by simp [hlabels]⟩

theorem validateBandSpec_of_fits {spec : BandSpec} (hv : spec.Validated) (h : spec.Fits) :
    ∃ band, validateBandSpec spec = .ok band ∧ Stands spec band := by
  unfold BandSpec.Fits at h
  unfold validateBandSpec
  split at h
  case h_1 => exact h.elim
  case h_2 hmode =>
    have ⟨hflat, hmin, hmax, htiers⟩ := h
    have ⟨amount, ha⟩ := Option.isSome_iff_exists.mp hflat
    exact ⟨⟨strip spec.label, .flat amount, []⟩, by simp [hmode, ha, hmin, hmax, htiers], rfl, by simp [htiers],
      .nil⟩
  case h_3 hmode =>
    have ⟨⟨min, hmin, max, hmax, hle⟩, hflat, htiers⟩ := h
    rw [Option.mem_def] at hmin hmax
    exact ⟨⟨strip spec.label, .range min max, []⟩, by simp [hmode, hmin, hmax, hflat, htiers, hle.not_gt], rfl,
      by simp [htiers], .nil⟩
  case h_4 hmode =>
    have ⟨hlen, hnodup, hflat, hmin, hmax⟩ := h
    have ⟨tiers, ht, hlabels⟩ := tiers_of_mapM hv.amount
    exact ⟨⟨strip spec.label, .tiered, tiers⟩, by simp [hmode, hlen.not_gt, hnodup, ht, hflat, hmin, hmax], rfl,
      hlabels, hlabels ▸ hnodup⟩

theorem fits_of_validateBandSpec {spec : BandSpec} {band : Band} (h : validateBandSpec spec = .ok band) :
    spec.Fits := by
  unfold validateBandSpec at h
  split at h
  case h_1 => exact nomatch h
  case h_2 hmode =>
    split at h
    case h_1 => exact nomatch h
    case h_2 amount hflat =>
      split at h
      case isTrue => exact nomatch h
      case isFalse honly => simpa [BandSpec.Fits, hmode, hflat, and_assoc] using honly
  case h_3 hmode =>
    split at h
    case h_2 => exact nomatch h
    case h_1 min max hmin hmax =>
      split at h
      case isTrue => exact nomatch h
      case isFalse hle =>
        split at h
        case isTrue => exact nomatch h
        case isFalse honly =>
          simp only [BandSpec.Fits, hmode]
          exact ⟨⟨min, hmin, max, hmax, not_lt.mp hle⟩, by simpa using honly⟩
  case h_4 hmode =>
    split at h
    case isTrue => exact nomatch h
    case isFalse hlen =>
      split at h
      case isTrue => exact nomatch h
      case isFalse hnodup =>
        split at h
        case h_1 => exact nomatch h
        case h_2 =>
          split at h
          case isTrue => exact nomatch h
          case isFalse honly =>
            simp only [BandSpec.Fits, hmode]
            exact ⟨not_lt.mp hlen, not_not.mp hnodup, by simpa [and_assoc] using honly⟩

-- The bands that specifications which are accepted stand for.
theorem validateBands_of_fits {specs : List BandSpec} (hv : ∀ spec ∈ specs, spec.Validated)
    (hlabels : (specs.map fun spec => strip spec.label).Nodup) (h : ∀ spec ∈ specs, spec.Fits) :
    ∃ bands, validateBands specs = .ok bands ∧ List.Forall₂ Stands specs bands := by
  rw [validateBands, if_neg (not_not.mpr hlabels)]
  clear hlabels
  induction specs with
  | nil => exact ⟨[], rfl, .nil⟩
  | cons spec specs hi =>
    rw [List.forall_mem_cons] at hv h
    have ⟨band, hband, hstands⟩ := validateBandSpec_of_fits hv.1 h.1
    have ⟨bands, hbands, hall⟩ := hi hv.2 h.2
    refine ⟨band :: bands, ?_, .cons hstands hall⟩
    rw [List.mapM_cons, hband, hbands]
    rfl

theorem fits_of_validateBands {specs : List BandSpec} {bands : List Band} (h : validateBands specs = .ok bands) :
    (specs.map fun spec => strip spec.label).Nodup ∧ ∀ spec ∈ specs, spec.Fits := by
  unfold validateBands at h
  split at h
  case isTrue => exact nomatch h
  case isFalse hlabels =>
    refine ⟨not_not.mp hlabels, ?_⟩
    clear hlabels
    induction specs generalizing bands with
    | nil => exact List.forall_mem_nil _
    | cons spec specs hi =>
      rw [List.mapM_cons] at h
      cases hband : validateBandSpec spec with
      | error => simp [hband, bind, Except.bind] at h
      | ok band =>
        cases hbands : specs.mapM validateBandSpec with
        | error => simp [hband, hbands, bind, Except.bind] at h
        | ok => exact List.forall_mem_cons.mpr ⟨fits_of_validateBandSpec hband, hi hbands⟩

end Validation

section Storage

theorem runs_storeSmall {n : ℕ} : Runs (storeSmall n) s fun out t =>
    t = s ∧ (out = .ok n ∧ n ≤ 32767 ∨ out = .error ⟨.dataError, true⟩ ∧ 32767 < n) := by
  unfold storeSmall
  split
  case isTrue h => exact .ret ⟨rfl, .inl ⟨rfl, h⟩⟩
  case isFalse h => exact .raise ⟨rfl, .inr ⟨rfl, not_le.mp h⟩⟩

-- Neither an open band of the item nor a tier of the band has one of the labels.
def BandsFree (s : Db) (item : ℕ) (labels : List String) : Prop :=
  ∀ ⦃k r⦄, (s.table .rateBand).get k = some r → r.item = item → r.effectiveTo = none → r.label ∉ labels

def TiersFree (s : Db) (band : ℕ) (labels : List String) : Prop :=
  ∀ ⦃k r⦄, (s.table .rateTier).get k = some r → r.band = band → r.label ∉ labels

theorem BandsFree.not_holds {label : String} {labels : List String} (h : BandsFree s item labels)
    (hl : label ∈ labels) (n : Name) (k : ℕ) : ¬s.Holds (.openBand item label) n k := by
  rintro ⟨r, hr, hu⟩
  cases n with
  | rateBand =>
    simp only [uniqueKeys] at hu
    split at hu
    case isTrue hopen =>
      obtain ⟨rfl, rfl⟩ := UniqueKey.openBand.inj <| List.mem_singleton.mp hu
      exact h hr rfl hopen hl
    case isFalse => simp at hu
  | payment | item | rateSchedule | consultantPortfolio | agentPortfolio =>
    simp only [uniqueKeys] at hu
    split at hu <;> simp at hu
  | _ => simp at hu

theorem TiersFree.not_holds {label : String} {labels : List String} (h : TiersFree s k labels)
    (hl : label ∈ labels) (n : Name) (i : ℕ) : ¬s.Holds (.tier k label) n i := by
  rintro ⟨r, hr, hu⟩
  cases n with
  | rateTier =>
    obtain ⟨rfl, rfl⟩ := UniqueKey.tier.inj <| List.mem_singleton.mp hu
    exact h hr rfl hl
  | rateBand | payment | item | rateSchedule | consultantPortfolio | agentPortfolio =>
    simp only [uniqueKeys] at hu
    split at hu <;> simp at hu
  | _ => simp at hu

theorem runs_createTier {tier : Tier} {n : ℕ} (hband : Database.Has s (.rateBand, k))
    (hfree : TiersFree s k [tier.label]) : Runs (createTier k tier n) s fun out (t : Db) =>
      ((∃ i, out = .ok i) ∧ n ≤ 32767 ∧ Database.Only [Name.rateTier] s t ∧
        ∀ {i r}, (t.table .rateTier).get i = some r → (s.table .rateTier).get i = some r ∨ r = tier.row k n) ∨
      (out = .error ⟨.dataError, true⟩ ∧ 32767 < n ∧ t = s) := by
  refine .bind <| runs_storeSmall.mono fun out u ⟨hu, hout⟩ => ?_
  subst hu
  rcases hout with ⟨rfl, hn⟩ | ⟨rfl, hn⟩
  · refine runs_create (fun ref href => List.mem_singleton.mp href ▸ hband) (fun _ i _ _ => ?_) fun u hu t' i hheld => ?_
    · exact .inl ⟨⟨i, rfl⟩, hn, only_insert <| .head _, fun hr => (get_insert_cases hr).symm.imp_right And.right⟩
    · obtain rfl := List.mem_singleton.mp hu
      exact absurd hheld <| hfree.not_holds (List.mem_singleton_self _) t' i
  · exact .inr ⟨rfl, hn, rfl⟩

theorem runs_createTiers {tiers : List Tier} {n : ℕ} (hband : Database.Has s (.rateBand, k))
    (hnodup : (tiers.map Tier.label).Nodup) (hfree : TiersFree s k (tiers.map Tier.label)) (hn : n ≤ 32768) :
    Runs ((tiers.zipIdx n).forM fun (tier, j) => do let _ ← createTier k tier j) s fun out t =>
      Database.Only [Name.rateTier] s t ∧ (out = .ok () ∧ n + tiers.length ≤ 32768 ∨
        out = .error ⟨.dataError, true⟩ ∧ 32768 < n + tiers.length) := by
  induction tiers generalizing s n with
  | nil => exact .ret ⟨Std.Refl.refl _, .inl ⟨rfl, hn⟩⟩
  | cons tier tiers hi =>
    rw [List.map_cons, List.nodup_cons] at hnodup
    rw [List.zipIdx_cons, List.length_cons]
    have hfirst : TiersFree s k [tier.label] := fun i r hr hb hl =>
      hfree hr hb <| List.mem_singleton.mp hl ▸ .head _
    refine .bind <| .bind <| (runs_createTier hband hfirst).mono fun out u hout => ?_
    rcases hout with ⟨⟨i, rfl⟩, hn, honly, hu⟩ | ⟨rfl, hn, rfl⟩
    · have hrest : TiersFree u k (tiers.map Tier.label) := fun i r hr hb hl => by
        rcases hu hr with hr | rfl
        · exact hfree hr hb <| .tail _ hl
        · exact hnodup.1 hl
      refine .ret <| (hi (hband.of_only honly (by simp)) hnodup.2 hrest (by omega)).mono fun out t ⟨honly', hout⟩ => ?_
      exact ⟨IsTrans.trans _ _ _ honly honly', by convert hout using 3 <;> omega⟩
    · exact ⟨Std.Refl.refl _, .inr ⟨rfl, by omega⟩⟩

-- The bands and their tiers have places that their columns can hold.
def Placeable (n : ℕ) (bands : List Band) : Prop :=
  n + bands.length ≤ 32768 ∧ ∀ b ∈ bands, b.tiers.length ≤ 32768

theorem runs_createBand {b : Band} {n : ℕ} (hitem : Database.Has s (.item, item))
    (hnodup : (b.tiers.map Tier.label).Nodup) (hfree : BandsFree s item [b.label]) :
    Runs (createBand item date b n) s fun out (t : Db) =>
      ((∃ i, out = .ok i) ∧ n ≤ 32767 ∧ b.tiers.length ≤ 32768 ∧
        Database.Only [Name.rateBand, Name.rateTier] s t ∧ ∀ {i r}, (t.table .rateBand).get i = some r →
          (s.table .rateBand).get i = some r ∨ r = b.row item date n) ∨
      (out = .error ⟨.dataError, true⟩ ∧ (32767 < n ∨ 32768 < b.tiers.length)) := by
  refine .of_refs fun hrefs => .bind <| runs_storeSmall.mono fun out u ⟨hu, hout⟩ => ?_
  rw [hu]
  rcases hout with ⟨rfl, hn⟩ | ⟨rfl, hn⟩
  case inr => exact .inr ⟨rfl, .inl hn⟩
  case inl =>
    refine .bind <| runs_create (fun ref href => List.mem_singleton.mp href ▸ hitem) (fun _ k hr hk => ?_) fun u hu t' i hheld => ?_
    case refine_2 =>
      obtain rfl : u = _ := by simpa [Band.row] using hu
      exact absurd hheld <| hfree.not_holds (List.mem_singleton_self _) t' i
    case refine_1 =>
      let u := s.insert .rateBand k (b.row item date n)
      have hband : Database.Has u (.rateBand, k) :=
        ⟨b.row item date n, by rw [insert_table hr, Table.get_insert_self hk]⟩
      have htiers : TiersFree u k (b.tiers.map Tier.label) := fun i r hr hb _ => by
        rw [insert_table_ne (by decide)] at hr
        have ⟨r', hr'⟩ := hrefs .rateTier i r hr _ (List.mem_singleton_self _)
        simp only [hb, hk] at hr'
        exact nomatch hr'
      refine .bind <| (runs_createTiers hband hnodup htiers (Nat.zero_le _)).mono fun out t ⟨honly, hout⟩ => ?_
      rcases hout with ⟨rfl, hlen⟩ | ⟨rfl, hlen⟩
      · refine .ret <| .inl ⟨⟨k, rfl⟩, hn, by omega, ?_, fun hr => ?_⟩
        · have hinsert : Database.Only [Name.rateBand, Name.rateTier] s u := only_insert <| .head _
          exact IsTrans.trans _ _ _ hinsert <| honly.mono <| by simp
        · rw [honly .rateBand (by decide)] at hr
          exact (get_insert_cases hr).symm.imp_right And.right
      · exact .inr ⟨rfl, .inr <| by omega⟩

theorem runs_createBands {bands : List Band} {n : ℕ} {created : List ℕ} (hitem : Database.Has s (.item, item))
    (hlabels : (bands.map Band.label).Nodup) (htiers : ∀ b ∈ bands, (b.tiers.map Tier.label).Nodup)
    (hfree : BandsFree s item (bands.map Band.label)) (hn : n ≤ 32768) :
    Runs ((bands.zipIdx n).foldlM (fun created (b, i) =>
        return created ++ [← createBand item date b i]) created) s fun out _ =>
      (∃ l, out = .ok l) ∧ Placeable n bands ∨ out = .error ⟨.dataError, true⟩ ∧ ¬Placeable n bands := by
  induction bands generalizing s n created with
  | nil => exact .ret <| .inl ⟨⟨created, rfl⟩, hn, List.forall_mem_nil _⟩
  | cons b bands hi =>
    rw [List.map_cons, List.nodup_cons] at hlabels
    rw [List.forall_mem_cons] at htiers
    rw [List.zipIdx_cons, List.foldlM_cons]
    have hfirst : BandsFree s item [b.label] := fun i r hr hitem hopen hl =>
      hfree hr hitem hopen <| List.mem_singleton.mp hl ▸ .head _
    refine .bind <| .bind <| (runs_createBand hitem htiers.1 hfirst).mono fun out u hout => ?_
    rcases hout with ⟨⟨i, rfl⟩, hn, hlen, honly, hu⟩ | ⟨rfl, hlarge⟩
    · have hrest : BandsFree u item (bands.map Band.label) := fun i r hr hitem hopen hl => by
        rcases hu hr with hr | rfl
        · exact hfree hr hitem hopen <| .tail _ hl
        · exact hlabels.1 hl
      refine .ret <| (hi (hitem.of_only honly (by simp)) hlabels.2 htiers.2 hrest (by omega)).mono fun out t hout => ?_
      have hplace : Placeable n (b :: bands) ↔ Placeable (n + 1) bands := by
        simp only [Placeable, List.length_cons, List.forall_mem_cons, hlen, true_and]
        exact and_congr_left fun _ => by omega
      rwa [hplace]
    · refine .inr ⟨rfl, fun ⟨hn, hlen⟩ => ?_⟩
      have := hlen b (.head _)
      rw [List.length_cons] at hn
      omega

theorem mem_openBands {b : Loaded RateBand} : b ∈ openBands s item ↔
    (s.table .rateBand).get b.id = some b.row ∧ b.row.item = item ∧ b.row.effectiveTo = none := by
  unfold openBands
  rw [List.mem_insertionSort, List.mem_map]
  constructor
  · rintro ⟨x, hx, rfl⟩
    exact (Table.mem_filter_iff.mp hx).imp_right of_decide_eq_true
  · exact fun hb => ⟨(b.id, b.row), Table.mem_filter_iff.mpr <| hb.imp_right decide_eq_true, rfl⟩

theorem runs_closeBands {l : List (Loaded RateBand)} (h : ∀ b ∈ l, Database.Has s (.rateBand, b.id)) :
    Runs (l.forM fun b => close (R := relational) .rateBand b.id (fun r => { r with effectiveTo := some date })
      ⟨fun _ => List.nil_subset _, fun _ => rfl⟩) s fun out _ => out = .ok () := by
  induction l generalizing s with
  | nil => exact .ret rfl
  | cons b l hi =>
    rw [List.forall_mem_cons] at h
    have ⟨r, hr⟩ := h.1
    exact .bind <| runs_close hr (fun _ href => .inl href) <| hi fun b hb => (h.2 b hb).modify

theorem runs_replaceRateBands {specs : List BandSpec} {bands : List Band} {effectiveFrom : Option Date}
    (hitem : Database.Has s (.item, item)) (hv : validateBands specs = .ok bands)
    (hlabels : (bands.map Band.label).Nodup) (htiers : ∀ b ∈ bands, (b.tiers.map Tier.label).Nodup) :
    Runs (replaceRateBands today item specs effectiveFrom) s fun out _ =>
      (∃ l, out = .ok l) ∧ Placeable 0 bands ∨ out = .error ⟨.dataError, true⟩ ∧ ¬Placeable 0 bands := by
  unfold replaceRateBands
  rw [hv]
  refine .bind <| runs_select <| .bind ?_
  have hclosed : ∀ b ∈ openBands s item, Database.Has s (.rateBand, b.id) := fun b hb =>
    ⟨b.row, (mem_openBands.mp hb).1⟩
  refine ((runs_closeBands hclosed).and_post post_closeBands).mono fun out u ⟨hout, hu⟩ => ?_
  subst hout
  obtain ⟨honly, hu⟩ := hu
  have hfree : BandsFree u item (bands.map Band.label) := fun k r hr hitem hopen => by
    rw [hu] at hr
    split at hr
    case isTrue =>
      obtain ⟨_, _, rfl⟩ := Option.map_eq_some_iff.mp hr
      simp at hopen
    case isFalse hk =>
      have hb : (⟨k, r⟩ : Loaded RateBand) ∈ openBands s item := mem_openBands.mpr ⟨hr, hitem, hopen⟩
      exact absurd (List.mem_map_of_mem hb) hk
  exact runs_createBands (hitem.of_only honly (by simp)) hlabels htiers hfree (Nat.zero_le _)

end Storage

section Acceptance

-- A set is accepted exactly when it is well-formed, and answered with BandingError otherwise.
structure Screened (s : Db) (m : Name → ℕ) (today : Date) (item : ℕ) (specs : List BandSpec)
    (effectiveFrom : Option Date) : Prop where
  accepts : (∃ l t n, (replaceRateBands today item specs effectiveFrom).call s m = (.ok l, t, n)) ↔ WellFormed specs
  rejects : ¬WellFormed specs → ∃ e n,
    (replaceRateBands today item specs effectiveFrom).call s m = (.error ⟨.banding e, false⟩, s, n)

-- The set fits, but a band among several has a blank label, or there are more bands or tiers than their
-- columns can number.
structure Overlooked (specs : List BandSpec) : Prop where
  labels : (specs.map fun spec => strip spec.label).Nodup
  fits   : ∀ spec ∈ specs, spec.Fits
  amiss  : (∃ spec ∈ specs, strip spec.label = "" ∧ specs.length ≠ 1) ∨ 32768 < specs.length ∨
    ∃ spec ∈ specs, 32768 < spec.tiers.length

namespace Stands

variable {specs : List BandSpec} {bands : List Band}

theorem labels (h : List.Forall₂ Stands specs bands) :
    bands.map Band.label = specs.map fun spec => strip spec.label := by
  induction h with
  | nil => rfl
  | cons h _ hi => rw [List.map_cons, List.map_cons, h.label, hi]

theorem tiersNodup (h : List.Forall₂ Stands specs bands) : ∀ b ∈ bands, (b.tiers.map Tier.label).Nodup := by
  induction h with
  | nil => exact List.forall_mem_nil _
  | cons h _ hi => exact List.forall_mem_cons.mpr ⟨h.nodup, hi⟩

theorem placeable_iff (h : List.Forall₂ Stands specs bands) :
    Placeable 0 bands ↔ specs.length ≤ 32768 ∧ ∀ spec ∈ specs, spec.tiers.length ≤ 32768 := by
  rw [Placeable, Nat.zero_add, h.length_eq]
  refine and_congr .rfl ?_
  induction h with
  | nil => simp
  | @cons spec b _ _ h _ hi =>
    have hlen : b.tiers.length = spec.tiers.length := by simpa using congrArg List.length h.tiers
    rw [List.forall_mem_cons, List.forall_mem_cons, hlen]
    exact and_congr_right fun _ => hi

end Stands

theorem call_replaceRateBands (hs : Database.Proper s m) (hitem : Database.Has s (.item, item))
    {specs : List BandSpec} {bands : List Band} {effectiveFrom : Option Date} (hv : validateBands specs = .ok bands)
    (hstands : List.Forall₂ Stands specs bands) (hlabels : (specs.map fun spec => strip spec.label).Nodup) :
    (∃ l t n, (replaceRateBands today item specs effectiveFrom).call s m = (.ok l, t, n)) ∧ Placeable 0 bands ∨
      (∃ n, (replaceRateBands today item specs effectiveFrom).call s m = (.error ⟨.dataError, true⟩, s, n)) ∧
        ¬Placeable 0 bands := by
  have hlabels : (bands.map Band.label).Nodup := Stands.labels hstands ▸ hlabels
  rcases (runs_replaceRateBands hitem hv hlabels (Stands.tiersNodup hstands)).call hs with ⟨l, t, n, hc, hout⟩ | ⟨e, t, n, hc, hout⟩
  · rcases hout with ⟨_, hplace⟩ | ⟨hout, _⟩
    · exact .inl ⟨⟨l, t, n, hc⟩, hplace⟩
    · exact nomatch hout
  · rcases hout with ⟨⟨_, hout⟩, _⟩ | ⟨hout, hplace⟩
    · exact nomatch hout
    · exact .inr ⟨⟨n, by rw [hc, Except.error.inj hout]⟩, hplace⟩

theorem call_refused {specs : List BandSpec} {effectiveFrom : Option Date} {e : BandingError}
    (hv : validateBands specs = .error e) : (replaceRateBands today item specs effectiveFrom).call s m =
      (.error ⟨.banding e, false⟩, s, m) := by
  unfold replaceRateBands
  rw [hv]
  rfl

-- Well-formed sets are accepted, and all others refused, unless something is overlooked.
theorem screened_iff (hs : Database.Proper s m) (hitem : Database.Has s (.item, item)) {specs : List BandSpec}
    {effectiveFrom : Option Date} (hv : ∀ spec ∈ specs, spec.Validated) :
    Screened s m today item specs effectiveFrom ↔ ¬Overlooked specs := by
  have hplain : ¬Overlooked specs → (specs.map fun spec => strip spec.label).Nodup → (∀ spec ∈ specs, spec.Fits) →
      WellFormed specs ∧ specs.length ≤ 32768 ∧ ∀ spec ∈ specs, spec.tiers.length ≤ 32768 := by
    intro h hlabels hfits
    have h : ¬((∃ spec ∈ specs, strip spec.label = "" ∧ specs.length ≠ 1) ∨ 32768 < specs.length ∨
        ∃ spec ∈ specs, 32768 < spec.tiers.length) := fun hamiss => h ⟨hlabels, hfits, hamiss⟩
    simp only [not_or, not_exists, not_and, not_not, not_lt] at h
    exact ⟨⟨hlabels, h.1, hfits⟩, h.2⟩
  constructor
  case mp =>
    rintro ⟨haccepts, hrejects⟩ ⟨hlabels, hfits, hamiss⟩
    have ⟨bands, hbands, hstands⟩ := validateBands_of_fits hv hlabels hfits
    rcases call_replaceRateBands hs hitem hbands hstands hlabels with ⟨hok, hplace⟩ | ⟨⟨n, hc⟩, _⟩
    · have hplace := (Stands.placeable_iff hstands).mp hplace
      have hwell := haccepts.mp hok
      rcases hamiss with ⟨spec, hspec, hblank, hlen⟩ | hlen | ⟨spec, hspec, hlen⟩
      · exact hlen <| hwell.blank spec hspec hblank
      · omega
      · have := hplace.2 spec hspec
        omega
    · by_cases hwell : WellFormed specs
      case pos =>
        have ⟨l, t, n', hok⟩ := haccepts.mpr hwell
        rw [hc] at hok
        exact nomatch hok
      case neg =>
        have ⟨e, n', he⟩ := hrejects hwell
        rw [hc] at he
        exact nomatch he
  case mpr =>
    intro h
    cases hbands : validateBands specs with
    | error e =>
      have hwell : ¬WellFormed specs := fun hwell => by
        have ⟨bands, hok, _⟩ := validateBands_of_fits hv hwell.labels hwell.fits
        rw [hbands] at hok
        exact nomatch hok
      refine ⟨⟨fun ⟨l, t, n, hok⟩ => ?_, fun h => absurd h hwell⟩, fun _ => ⟨e, m, call_refused hbands⟩⟩
      rw [call_refused hbands] at hok
      exact nomatch hok
    | ok bands =>
      have ⟨hlabels, hfits⟩ := fits_of_validateBands hbands
      have ⟨hwell, hplace⟩ := hplain h hlabels hfits
      refine ⟨⟨fun _ => hwell, fun _ => ?_⟩, fun h => absurd hwell h⟩
      have ⟨bands', hbands', hstands⟩ := validateBands_of_fits hv hlabels hfits
      rcases call_replaceRateBands hs hitem hbands' hstands hlabels with ⟨hok, _⟩ | ⟨_, hlarge⟩
      · exact hok
      · exact absurd ((Stands.placeable_iff hstands).mpr hplace) hlarge

namespace Sample

-- The item has no bands.
def activated : Db × (Name → ℕ) :=
  administerRates (unrated, fun _ => 1) <| .createItem 1 "MKT" amount

def flat (label : String) : BandSpec :=
  ⟨label, some .flat, some amount, none, none, []⟩

theorem proper_activated : Database.Proper activated.1 activated.2 :=
  proper_of_bounds (by decide +kernel) (by decide +kernel)

theorem has_item : Database.Has activated.1 (.item, 1) :=
  Option.isSome_iff_exists.mp <| by decide +kernel

theorem flat_validated (label : String) : (flat label).Validated :=
  ⟨rfl, List.forall_mem_nil _, List.forall_mem_nil _⟩

end Sample

theorem sample_screened : Screened Sample.activated.1 Sample.activated.2 Sample.day 1 [Sample.flat ""] none :=
  (screened_iff Sample.proper_activated Sample.has_item (by simpa using Sample.flat_validated "")).mpr fun h => by
    rcases h.amiss with ⟨_, _, _, h⟩ | h | ⟨spec, hspec, h⟩
    · exact h rfl
    · simp at h
    · simp [List.mem_singleton.mp hspec, Sample.flat] at h

-- Two bands are accepted of which one has no label.
theorem not_screened : ¬Screened Sample.activated.1 Sample.activated.2 Sample.day 1 [Sample.flat "", Sample.flat "Kiosk"]
    none := fun h => by
  have hwell : ¬WellFormed [Sample.flat "", Sample.flat "Kiosk"] := fun h => by
    simpa using h.blank (Sample.flat "") (.head _) (by decide +kernel)
  have hok : ((replaceRateBands Sample.day 1 [Sample.flat "", Sample.flat "Kiosk"] none).call
      Sample.activated.1 Sample.activated.2).1.isOk := by decide +kernel
  have ⟨e, n, he⟩ := h.rejects hwell
  rw [he] at hok
  exact nomatch hok

end Acceptance

end ACRev360
