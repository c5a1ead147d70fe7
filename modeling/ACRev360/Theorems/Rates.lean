import ACRev360.Services.Rates
import ACRev360.Theorems.Ledger

namespace ACRev360

open Relational Relational.Database

-- What items cost is never overwritten.

variable {s t u : Db} {item band k : ℕ} {today date : Date}

section Ordering

-- The rows of a table that satisfy `p`, as they are numbered.
structure Listing {α : Type} (t : Table α) (p : α → Prop) (f : α → ℕ) (l : List (Loaded α)) : Prop where
  mem   : ∀ x, x ∈ l ↔ t.get x.id = some x.row ∧ p x.row
  order : l.map (fun x => f x.row) = List.range l.length

namespace Listing

variable {α : Type} {t t' : Table α} {p : α → Prop} {f : α → ℕ} {l : List (Loaded α)}

theorem nil (h : ∀ k a, t.get k = some a → ¬p a) : Listing t p f [] where
  mem x := by simpa using h x.id x.row
  order := rfl

theorem congr (h : Listing t p f l) (ht : ∀ k a, p a → (t'.get k = some a ↔ t.get k = some a)) :
    Listing t' p f l where
  mem x := by
    rw [h.mem]
    exact and_congr_left fun hp => (ht x.id x.row hp).symm
  order := h.order

theorem push (h : Listing t p f l) {a : α} (hk : t.get k = none) (ha : p a) (hf : f a = l.length) :
    Listing (t.insert k a) p f (l ++ [⟨k, a⟩]) where
  mem := by
    rintro ⟨i, x⟩
    rw [List.mem_append, h.mem, List.mem_singleton, Loaded.mk.injEq, Table.get_insert, hk]
    by_cases hi : i = k
    case pos =>
      subst hi
      simp only [hk, reduceCtorEq, false_and, false_or, true_and, if_true, Option.getD_none, Option.some.injEq]
      exact ⟨fun he => ⟨he.symm, he ▸ ha⟩, fun ⟨he, _⟩ => he.symm⟩
    case neg => simp [hi]
  order := by simp [h.order, hf, List.range_succ]

-- Sorting by number, and by name where the numbers are the same, lists the rows.
theorem sorted (h : Listing t p f l) [DecidablePred p] {g : α → String} :
    ((t.filter fun _ a => p a).map fun x => (⟨x.1, x.2⟩ : Loaded α)).insertionSort (fun x y =>
      f x.row < f y.row ∨ (f x.row = f y.row ∧ g x.row ≤ g y.row)) = l := by
  let r (x y : Loaded α) : Prop := f x.row < f y.row ∨ (f x.row = f y.row ∧ g x.row ≤ g y.row)
  have : Std.Total r := ⟨fun x y => by
    rcases lt_trichotomy (f x.row) (f y.row) with h | h | h
    · exact .inl <| .inl h
    · exact (String.le_total (g x.row) (g y.row)).imp (fun hg => .inr ⟨h, hg⟩) fun hg => .inr ⟨h.symm, hg⟩
    · exact .inr <| .inl h⟩
  have : IsTrans (Loaded α) r := ⟨fun x y z => by
    rintro (h₁ | ⟨h₁, g₁⟩) (h₂ | ⟨h₂, g₂⟩)
    · exact .inl <| h₁.trans h₂
    · exact .inl <| h₁.trans_eq h₂
    · exact .inl <| h₁.trans_lt h₂
    · exact .inr ⟨h₁.trans h₂, String.le_trans g₁ g₂⟩⟩
  have hlt : l.Pairwise fun x y => f x.row < f y.row := by
    rw [← List.pairwise_map (f := fun x : Loaded α => f x.row) (R := (· < ·)), h.order]
    exact List.pairwise_lt_range
  have hinj : ∀ x ∈ l, ∀ y ∈ l, f x.row = f y.row → x = y := by
    refine List.inj_on_of_nodup_map (f := fun x : Loaded α => f x.row) ?_
    rw [h.order]
    exact List.nodup_range
  have hnodup : ((t.filter fun _ a => p a).map fun x => (⟨x.1, x.2⟩ : Loaded α)).Nodup := by
    refine .of_map Loaded.id ?_
    rw [List.map_map]
    exact Table.keys_nodup
  have hperm : ((t.filter fun _ a => p a).map fun x => (⟨x.1, x.2⟩ : Loaded α)).Perm l := by
    refine (List.perm_ext_iff_of_nodup hnodup <| hlt.imp fun h he => by simp [he] at h).mpr fun x => ?_
    rw [h.mem, List.mem_map]
    constructor
    · rintro ⟨y, hy, rfl⟩
      exact (Table.mem_filter_iff.mp hy).imp_right of_decide_eq_true
    · exact fun hx => ⟨(x.id, x.row), Table.mem_filter_iff.mpr <| hx.imp_right decide_eq_true, rfl⟩
  have hsorted := (List.perm_insertionSort r _).trans hperm
  have hl : l.Pairwise r := hlt.imp .inl
  refine hsorted.eq_of_pairwise (fun x y hx hy hxy hyx => ?_) (List.pairwise_insertionSort r _) hl
  refine hinj x (hsorted.mem_iff.mp hx) y hy ?_
  rcases hxy with h | ⟨h, _⟩
  · rcases hyx with h' | ⟨h', _⟩ <;> omega
  · exact h

end Listing

end Ordering

section Rating

-- What an item has cost: the closed rows in the order in which they were opened, each closed on the day
-- from which the next one is effective, and the open one.
structure Rated (s : Db) (item : ℕ) (closed : List (Loaded RateSchedule)) (current : Loaded RateSchedule) :
    Prop where
  mem   : ∀ r, r ∈ closed ++ [current] ↔ (s.table .rateSchedule).get r.id = some r.row ∧ r.row.item = item
  nodup : ((closed ++ [current]).map Loaded.id).Nodup
  chain : (closed ++ [current]).IsChain fun x y => x.row.effectiveTo = some y.row.effectiveFrom
  open_ : current.row.effectiveTo = none

namespace Rated

variable {closed : List (Loaded RateSchedule)} {current : Loaded RateSchedule}

theorem congr (h : Rated s item closed current) (ht : ∀ k r, r.item = item →
    ((t.table .rateSchedule).get k = some r ↔ (s.table .rateSchedule).get k = some r)) :
    Rated t item closed current where
  mem r := by
    rw [h.mem]
    exact and_congr_left fun hitem => (ht r.id r.row hitem).symm
  nodup := h.nodup
  chain := h.chain
  open_ := h.open_

theorem closed_of_chain {l : List (Loaded RateSchedule)} {r : Loaded RateSchedule}
    (h : (l ++ [r]).IsChain fun x y => x.row.effectiveTo = some y.row.effectiveFrom) :
    ∀ x ∈ l, x.row.effectiveTo ≠ none := by
  induction l with
  | nil => simp
  | cons a l hi =>
    rw [List.cons_append, List.isChain_cons] at h
    refine List.forall_mem_cons.mpr ⟨?_, hi h.2⟩
    cases l with
    | nil => simp [h.1 r (by simp)]
    | cons b l => simp [h.1 b (by simp)]

-- The current row is the only open one.
theorem unique (h : Rated s item closed current) {r : RateSchedule}
    (hr : (s.table .rateSchedule).get k = some r) (hitem : r.item = item) (hopen : r.effectiveTo = none) :
    (⟨k, r⟩ : Loaded RateSchedule) = current := by
  rcases List.mem_append.mp <| (h.mem ⟨k, r⟩).mpr ⟨hr, hitem⟩ with hmem | hmem
  · exact absurd hopen <| closed_of_chain h.chain _ hmem
  · exact List.mem_singleton.mp hmem

theorem get (h : Rated s item closed current) :
    (s.table .rateSchedule).get current.id = some current.row ∧ current.row.item = item :=
  (h.mem current).mp <| by simp

theorem currentRate (h : Rated s item closed current) : s.currentRate item = some current := by
  have hmem : ∀ x : ℕ × RateSchedule, x ∈ (s.table .rateSchedule).filter (fun _ r => r.item = item ∧ r.effectiveTo = none) ↔
      (⟨x.1, x.2⟩ : Loaded RateSchedule) = current := by
    rintro ⟨k, r⟩
    rw [Table.mem_filter_iff]
    constructor
    · rintro ⟨hr, hp⟩
      have ⟨hitem, hopen⟩ := of_decide_eq_true hp
      exact h.unique hr hitem hopen
    · rintro he
      have ⟨hget, hitem⟩ := h.get
      rw [← he] at hget hitem
      have hopen := h.open_
      rw [← he] at hopen
      exact ⟨hget, decide_eq_true ⟨hitem, hopen⟩⟩
  have hlist : (s.table .rateSchedule).filter (fun _ r => r.item = item ∧ r.effectiveTo = none) =
      [(current.id, current.row)] := by
    refine List.perm_singleton.mp ?_
    refine (List.perm_ext_iff_of_nodup (.of_map _ Table.keys_nodup) <| List.nodup_singleton _).mpr fun x => ?_
    rw [hmem, List.mem_singleton]
    constructor
    · rintro rfl
      rfl
    · rintro rfl
      rfl
  rw [Db.currentRate, hlist]
  rfl

-- The open row is closed and the next one follows it.
theorem change (h : Rated s item closed current) {r : RateSchedule} (hk : (s.table .rateSchedule).get k = none)
    (hitem : r.item = item) (hopen : r.effectiveTo = none)
    (ht : ∀ i, (t.table .rateSchedule).get i = if i = k then some r else if i = current.id then
      some { current.row with effectiveTo := some r.effectiveFrom } else (s.table .rateSchedule).get i) :
    Rated t item (closed ++ [⟨current.id, { current.row with effectiveTo := some r.effectiveFrom }⟩]) ⟨k, r⟩ := by
  have hids : (closed ++ [(⟨current.id, { current.row with effectiveTo := some r.effectiveFrom }⟩ :
      Loaded RateSchedule)]).map Loaded.id = (closed ++ [current]).map Loaded.id := by simp
  have hfresh : k ∉ (closed ++ [current]).map Loaded.id := fun hmem => by
    have ⟨x, hx, he⟩ := List.mem_map.mp hmem
    simp [← he, (h.mem x).mp hx] at hk
  have hnot : current.id ∉ closed.map Loaded.id := by
    have := h.nodup
    rw [List.map_append, List.nodup_append] at this
    exact fun hmem => this.2.2 _ hmem _ (by simp) rfl
  constructor
  case mem =>
    rintro ⟨i, x⟩
    have hold := h.mem ⟨i, x⟩
    have hi : (⟨i, x⟩ : Loaded RateSchedule) ∈ closed → i ∈ closed.map Loaded.id := List.mem_map_of_mem
    have hcurrent : current.row.item = item := h.get.2
    rw [List.mem_append, List.mem_singleton] at hold
    rw [List.mem_append, List.mem_append, List.mem_singleton, List.mem_singleton, ht, Loaded.mk.injEq, Loaded.mk.injEq]
    rw [List.map_append, List.mem_append, not_or, List.map_singleton, List.mem_singleton] at hfresh
    by_cases hik : i = k
    case pos =>
      subst hik
      simp only [mt hi hfresh.1, hfresh.2, if_true, false_and, or_self, false_or, true_and, Option.some.injEq]
      exact ⟨fun he => ⟨he.symm, he ▸ hitem⟩, fun ⟨he, _⟩ => he.symm⟩
    case neg =>
      by_cases hic : i = current.id
      case pos =>
        subst hic
        simp only [mt hi hnot, hik, if_true, if_false, false_and, or_false, false_or, true_and, Option.some.injEq]
        exact ⟨fun he => ⟨he.symm, he ▸ hcurrent⟩, fun ⟨he, _⟩ => he.symm⟩
      case neg =>
        have hne : (⟨i, x⟩ : Loaded RateSchedule) ≠ current := fun he => hic <| congrArg Loaded.id he
        simp only [hne, or_false] at hold
        simpa only [hik, hic, if_false, false_and, or_false] using hold
  case nodup =>
    rw [List.map_append, hids]
    exact List.nodup_append.mpr ⟨h.nodup, by simp, fun x hx y hy he => hfresh <| by
      rw [List.map_singleton, List.mem_singleton] at hy
      rwa [he, hy] at hx⟩
  case chain =>
    have ⟨hclosed, _, hlast⟩ := List.isChain_append.mp h.chain
    refine .append (.append hclosed (.singleton _) fun x hx y hy => ?_) (.singleton _) fun x hx y hy => ?_
    · obtain rfl : _ = y := by simpa using hy
      exact hlast x hx current (by simp)
    · obtain rfl : _ = x := by simpa using hx
      obtain rfl : _ = y := by simpa using hy
      rfl
  case open_ => exact hopen

end Rated

end Rating

section Banding

-- The open bands of the item, and the tiers of the band.
abbrev Opened (s : Db) (item : ℕ) (l : List (Loaded RateBand)) : Prop :=
  Listing (s.table .rateBand) (fun r => r.item = item ∧ r.effectiveTo = none) RateBand.sortOrder l

abbrev Tiered (s : Db) (band : ℕ) (l : List (Loaded RateTier)) : Prop :=
  Listing (s.table .rateTier) (fun r => r.band = band) RateTier.sortOrder l

theorem openBands_eq {l : List (Loaded RateBand)} (h : Opened s item l) : openBands s item = l :=
  h.sorted

theorem tiersOf_eq {l : List (Loaded RateTier)} (h : Tiered s band l) : tiersOf s band = l :=
  h.sorted

-- The bands of the tiers are there.
def TiersPlaced (s : Db) : Prop :=
  ∀ ⦃k r⦄, (s.table .rateTier).get k = some r → ∃ b, (s.table .rateBand).get r.band = some b

-- The tiers of other bands are the same, and those of the band are still there.
structure TiersOff (band : ℕ) (s t : Db) : Prop where
  others : ∀ k r, r.band ≠ band → ((t.table .rateTier).get k = some r ↔ (s.table .rateTier).get k = some r)
  kept   : ∀ {k r}, (s.table .rateTier).get k = some r → (t.table .rateTier).get k = some r
  only   : Database.Only [Name.rateTier] s t

namespace TiersOff

theorem refl : TiersOff band s s :=
  ⟨fun _ _ _ => .rfl, id, Std.Refl.refl _⟩

theorem trans (h₁ : TiersOff band s t) (h₂ : TiersOff band t u) : TiersOff band s u where
  others k r hr := (h₂.others k r hr).trans <| h₁.others k r hr
  kept hr       := h₂.kept <| h₁.kept hr
  only          := IsTrans.trans _ _ _ h₁.only h₂.only

theorem tiersOf (h : TiersOff band s t) (hk : k ≠ band) : tiersOf t k = tiersOf s k := by
  unfold ACRev360.tiersOf
  rw [Table.filter_congr fun i r hr => h.others i r ?_]
  rw [of_decide_eq_true hr]
  exact hk

end TiersOff

theorem storeSmall_eq {n : ℕ} : Prog.Post (storeSmall n) s <| Prog.OnReturn fun m t => t = s ∧ m = n := by
  unfold storeSmall
  split
  · exact .ret ⟨rfl, rfl⟩
  · exact .raise trivial

theorem post_createTier {tier : Tier} {sortOrder : ℕ} : Prog.Post (createTier band tier sortOrder) s <|
    Prog.OnReturn fun k t => (s.table .rateTier).get k = none ∧
      t.table .rateTier = (s.table .rateTier).insert k (tier.row band sortOrder) ∧ TiersOff band s t := by
  refine .seq storeSmall_eq fun m s₁ ⟨hs₁, hm⟩ => ?_
  subst hs₁ hm
  refine post_create (fun k hk => ?_) fun _ => trivial
  have ⟨hr, hnone, _⟩ := conflicts_false hk
  refine ⟨hnone, insert_table hr, fun i r hne => ?_, get_insert_of_some, only_insert <| .head _⟩
  rw [insert_table hr, Table.get_insert, hnone]
  split
  case isTrue hi =>
    rw [hi, hnone, Option.getD_none, Option.some.injEq]
    exact ⟨fun he => absurd (he ▸ rfl) hne, nofun⟩
  case isFalse => rfl

theorem post_createTiers {tiers : List Tier} {l : List (Loaded RateTier)} (h : Tiered s band l) :
    Prog.Post ((tiers.zipIdx l.length).forM fun (tier, j) => do let _ ← createTier band tier j) s <|
      Prog.OnReturn fun _ t => TiersOff band s t ∧
        ∃ l', Tiered t band l' ∧ l'.map storedTier = l.map storedTier ++ tiers := by
  induction tiers generalizing s l with
  | nil => exact .ret ⟨.refl, l, h, (List.append_nil _).symm⟩
  | cons tier tiers hi =>
    rw [List.zipIdx_cons]
    refine .seq (Q := fun _ t => TiersOff band s t ∧ ∃ k,
      Tiered t band (l ++ [⟨k, tier.row band l.length⟩])) ?_ fun _ s₁ ⟨hoff, k, hs₁⟩ => ?_
    · refine .seq post_createTier fun k u ⟨hk, hu, hoff⟩ => .ret ⟨hoff, k, ?_⟩
      rw [Tiered, hu]
      exact h.push hk rfl rfl
    · have := hi hs₁
      rw [List.length_append, List.length_singleton] at this
      refine this.imp fun _ t ⟨hoff', l', hl', he⟩ => ⟨hoff.trans hoff', l', hl', ?_⟩
      rw [he, List.map_append, List.append_assoc]
      rfl

-- The item may have more bands, with their tiers, and nothing else has changed.
structure Extended (item : ℕ) (s t : Db) : Prop where
  kept   : ∀ {k r}, (s.table .rateBand).get k = some r → (t.table .rateBand).get k = some r
  others : ∀ k r, r.item ≠ item →
    ((t.table .rateBand).get k = some r ↔ (s.table .rateBand).get k = some r)
  tiers  : ∀ {k r}, (s.table .rateTier).get k = some r → (t.table .rateTier).get k = some r
  same   : ∀ {k r}, (s.table .rateBand).get k = some r → tiersOf t k = tiersOf s k
  placed : TiersPlaced s → TiersPlaced t
  only   : Database.Only [Name.rateBand, Name.rateTier] s t

namespace Extended

theorem refl : Extended item s s :=
  ⟨id, fun _ _ _ => .rfl, id, fun _ => rfl, id, Std.Refl.refl _⟩

theorem trans (h₁ : Extended item s t) (h₂ : Extended item t u) : Extended item s u where
  kept hr       := h₂.kept <| h₁.kept hr
  others k r hr := (h₂.others k r hr).trans <| h₁.others k r hr
  tiers hr      := h₂.tiers <| h₁.tiers hr
  same hr       := (h₂.same <| h₁.kept hr).trans <| h₁.same hr
  placed hs     := h₂.placed <| h₁.placed hs
  only          := IsTrans.trans _ _ _ h₁.only h₂.only

theorem storedBand {l : List (Loaded RateBand)} (h : Extended item s t)
    (hl : ∀ b ∈ l, (s.table .rateBand).get b.id = some b.row) :
    l.map (storedBand t) = l.map (storedBand s) :=
  List.map_congr_left fun b hb => by
    rw [ACRev360.storedBand, h.same (hl b hb)]
    rfl

end Extended

theorem post_createBand (hs : TiersPlaced s) {b : Band} {sortOrder : ℕ} :
    Prog.Post (createBand item date b sortOrder) s <| Prog.OnReturn fun k t =>
      Extended item s t ∧ (s.table .rateBand).get k = none ∧
        t.table .rateBand = (s.table .rateBand).insert k (b.row item date sortOrder) ∧
        (tiersOf t k).map storedTier = b.tiers := by
  refine .seq storeSmall_eq fun m s₁ ⟨hs₁, hm⟩ => ?_
  rw [hs₁, hm]
  refine .seq (Q := fun k (u : Db) => (s.table .rateBand).get k = none ∧
    u = s.insert .rateBand k (b.row item date sortOrder) ∧
    u.table .rateBand = (s.table .rateBand).insert k (b.row item date sortOrder)) ?_ ?_
  · refine post_create (fun k hk => ?_) fun _ => trivial
    have ⟨hr, hnone, _⟩ := conflicts_false hk
    exact ⟨hnone, rfl, insert_table hr⟩
  · rintro k (u : Db) ⟨hk, hu, hbands⟩
    have htiers : u.table .rateTier = s.table .rateTier := by rw [hu, insert_table_ne (by decide)]
    have hnew : Tiered u k [] := .nil fun i r hr he => by
      rw [htiers] at hr
      have ⟨b, hb⟩ := hs hr
      simp [he, hk] at hb
    refine .seq (post_createTiers hnew) fun _ (t : Db) ⟨hoff, l, hl, he⟩ => .ret ?_
    have hband : t.table .rateBand = u.table .rateBand := hoff.only .rateBand (by decide)
    have hkept : ∀ {i r}, (s.table .rateBand).get i = some r → (t.table .rateBand).get i = some r :=
      fun hr => by
        rw [hband, hu]
        exact get_insert_of_some hr
    refine ⟨⟨hkept, fun i r hr => ?_, fun hr => hoff.kept (htiers ▸ hr), fun {i r} hr => ?_, fun _ i r hr => ?_,
      ?_⟩, hk, hband.trans hbands, ?_⟩
    · rw [hband, hbands, Table.get_insert, hk]
      split
      case isTrue hi =>
        rw [hi, hk, Option.getD_none, Option.some.injEq]
        exact ⟨fun he => absurd (he ▸ rfl) hr, nofun⟩
      case isFalse => rfl
    · have hne : i ≠ k := fun he => by simp [he, hk] at hr
      rw [hoff.tiersOf hne, tiersOf, tiersOf, htiers]
    · by_cases hrk : r.band = k
      case pos => exact ⟨_, by rw [hband, hbands, hrk, Table.get_insert_self hk]⟩
      case neg =>
        have ⟨b, hb⟩ := hs <| htiers ▸ (hoff.others i r hrk).mp hr
        exact ⟨b, hkept hb⟩
    · have hinsert : Database.Only [Name.rateBand, Name.rateTier] s u := hu ▸ only_insert (.head _)
      exact IsTrans.trans _ _ _ hinsert <| hoff.only.mono <| by simp
    · rw [tiersOf_eq hl, he]
      rfl

theorem post_createBands {bands : List Band} {l : List (Loaded RateBand)} {created : List ℕ} (h : Opened s item l)
    (hs : TiersPlaced s) :
    Prog.Post ((bands.zipIdx l.length).foldlM (fun created (b, i) =>
        return created ++ [← createBand item date b i]) created) s <|
      Prog.OnReturn fun _ t => Extended item s t ∧
        ∃ l', Opened t item l' ∧ l'.map (storedBand t) = l.map (storedBand s) ++ bands := by
  induction bands generalizing s l created with
  | nil => exact .ret ⟨.refl, l, h, (List.append_nil _).symm⟩
  | cons b bands hi =>
    rw [List.zipIdx_cons, List.foldlM_cons]
    refine .seq (Q := fun _ t => Extended item s t ∧ ∃ k,
      Opened t item (l ++ [⟨k, b.row item date l.length⟩]) ∧ (tiersOf t k).map storedTier = b.tiers) ?_ ?_
    · refine .seq (post_createBand hs) fun k t ⟨hext, hk, ht, htiers⟩ => .ret ⟨hext, k, ?_, htiers⟩
      rw [Opened, ht]
      exact h.push hk ⟨rfl, rfl⟩ rfl
    · rintro created t ⟨hext, k, hopen, htiers⟩
      have := @hi t _ created hopen (hext.placed hs)
      rw [List.length_append, List.length_singleton] at this
      refine this.imp fun _ u ⟨hext', l', hl', he⟩ => ⟨hext.trans hext', l', hl', ?_⟩
      rw [he, List.map_append, List.append_assoc, hext.storedBand fun x hx => ((h.mem x).mp hx).1,
        List.map_singleton, storedBand, htiers]
      rfl

-- The bands of the list are closed.
theorem post_closeBands {l : List (Loaded RateBand)} :
    Prog.Post (l.forM fun b => close (R := relational) .rateBand b.id (fun r => { r with effectiveTo := some date })
        ⟨fun _ => List.nil_subset _, fun _ => rfl⟩) s <|
      Prog.OnReturn fun _ (t : Db) => Database.Only [Name.rateBand] s t ∧ ∀ k, (t.table .rateBand).get k =
        if k ∈ l.map Loaded.id then ((s.table .rateBand).get k).map fun r => { r with effectiveTo := some date }
        else (s.table .rateBand).get k := by
  induction l generalizing s with
  | nil => exact .ret ⟨Std.Refl.refl _, fun k => rfl⟩
  | cons b l hi =>
    refine .seq (Q := fun _ t => t = s.modify .rateBand b.id fun r => { r with effectiveTo := some date }) ?_ ?_
    · exact post_close (fun _ _ => rfl) fun _ => trivial
    · rintro _ t rfl
      refine hi.imp fun _ u ⟨honly, hu⟩ => ⟨IsTrans.trans _ _ _ (only_modify <| .head _) honly, fun k => ?_⟩
      simp only [hu, modify_table, Table.get_modify, List.map_cons, List.mem_cons]
      by_cases hk : k = b.id
      case neg => simp [hk]
      case pos =>
        subst hk
        cases (s.table .rateBand).get b.id <;> simp

theorem post_replaceRateBands (hs : TiersPlaced s) {l : List (Loaded RateBand)} (h : Opened s item l)
    {specs : List BandSpec} {effectiveFrom : Option Date} :
    Prog.Post (replaceRateBands today item specs effectiveFrom) s <| Prog.OnReturn fun _ t =>
      ∃ u, Database.Only [Name.rateBand] s u ∧ Extended item u t ∧
        (∀ k, (Database.table u .rateBand).get k = if k ∈ l.map Loaded.id then
          ((s.table .rateBand).get k).map fun r => { r with effectiveTo := some (effectiveFrom.getD today) }
          else (s.table .rateBand).get k) ∧
        ∃ bands l', validateBands specs = .ok bands ∧ Opened t item l' ∧ l'.map (storedBand t) = bands := by
  unfold replaceRateBands
  simp only
  split
  case h_1 => exact .raise trivial
  case h_2 bands hv =>
    refine .bind <| post_select ?_
    rw [openBands_eq h]
    refine .seq post_closeBands fun _ u ⟨honly, hu⟩ => ?_
    have hnone : Opened u item [] := .nil fun k r hr ⟨hitem, hopen⟩ => by
      rw [hu] at hr
      split at hr
      case isTrue =>
        obtain ⟨_, _, rfl⟩ := Option.map_eq_some_iff.mp hr
        simp at hopen
      case isFalse hk => exact hk <| List.mem_map_of_mem <| (h.mem ⟨k, r⟩).mpr ⟨hr, hitem, hopen⟩
    have hplaced : TiersPlaced u := fun k r hr => by
      rw [honly .rateTier (by decide)] at hr
      have ⟨b, hb⟩ := hs hr
      simp only [hu, hb]
      split <;> exact ⟨_, rfl⟩
    exact (post_createBands hnone hplaced).imp fun _ t ⟨hext, l', hl', he⟩ =>
      ⟨u, honly, hext, hu, bands, l', hv, hl', he⟩

end Banding

section Requests

-- Of the rows that are there nothing but the end of an open one is written.
structure FiguresKept (s t : Db) : Prop where
  rate : ∀ {k r}, (s.table .rateSchedule).get k = some r → ∃ e,
    (t.table .rateSchedule).get k = some { r with effectiveTo := e } ∧ (r.effectiveTo ≠ none → e = r.effectiveTo)
  band : ∀ {k r}, (s.table .rateBand).get k = some r → ∃ e,
    (t.table .rateBand).get k = some { r with effectiveTo := e } ∧ (r.effectiveTo ≠ none → e = r.effectiveTo)
  tier : ∀ {k r}, (s.table .rateTier).get k = some r → (t.table .rateTier).get k = some r

theorem FiguresKept.refl : FiguresKept s s :=
  ⟨fun hr => ⟨_, hr, fun _ => rfl⟩, fun hr => ⟨_, hr, fun _ => rfl⟩, id⟩

-- Every item has its rates, and every open band its place in the order of the item's.
structure Versioned (s : Db) : Prop where
  rated  : ∀ {item i}, (s.table .item).get item = some i → ∃ closed current, Rated s item closed current
  homed  : ∀ {k r}, (s.table .rateSchedule).get k = some r → ∃ i, (s.table .item).get r.item = some i
  placed : TiersPlaced s
  opened : ∀ item, ∃ l, Opened s item l

theorem post_created {n : Name} {r : Rec n} : Prog.Post (create (R := relational) n r) s <|
    Prog.OnReturn fun k (t : Db) => (s.table n).get k = none ∧ Database.Only [n] s t ∧
      ∀ i, (t.table n).get i = if i = k then some r else (s.table n).get i := by
  refine post_create (fun k hk => ?_) fun _ => trivial
  have ⟨hr, hnone, _⟩ := conflicts_false hk
  refine ⟨hnone, only_insert <| .head _, fun i => ?_⟩
  rw [insert_table hr, Table.get_insert, hnone, Option.getD_none]

theorem post_createRevenueItem {code : String} {amount : Rate} {council : ℕ} :
    Prog.Post (createRevenueItem today council code amount) s <| Prog.OnReturn fun item (t : Db) =>
      (s.table .item).get item = none ∧ (∀ i ≠ item, (t.table .item).get i = (s.table .item).get i) ∧
      Database.Only [Name.item, Name.rateSchedule] s t ∧ ∃ k, (s.table .rateSchedule).get k = none ∧
        ∀ i, (t.table .rateSchedule).get i =
          if i = k then some ⟨item, amount, today, none⟩ else (s.table .rateSchedule).get i := by
  refine .seq post_created fun item u ⟨hitem, honly, hu⟩ => ?_
  refine .seq post_created fun k t ⟨hk, honly', ht⟩ => .ret ?_
  rw [honly .rateSchedule (by decide)] at hk ht
  refine ⟨hitem, fun i hi => ?_, IsTrans.trans _ _ _ (honly.mono <| by simp) (honly'.mono <| by simp), k, hk, ht⟩
  rw [honly' .item (by decide), hu, if_neg hi]

-- The current row, if any, is closed, and the new one is opened.
theorem post_changeRate {amount : Rate} {effectiveFrom : Option Date} :
    Prog.Post (changeRate today item amount effectiveFrom) s <| Prog.OnReturn fun k (t : Db) =>
      (s.table .rateSchedule).get k = none ∧ Database.Only [Name.rateSchedule] s t ∧
      ∀ i, (t.table .rateSchedule).get i =
        if i = k then some ⟨item, amount, effectiveFrom.getD today, none⟩
        else if i ∈ (s.currentRate item).map Loaded.id then
          ((s.table .rateSchedule).get i).map fun r => { r with effectiveTo := some (effectiveFrom.getD today) }
        else (s.table .rateSchedule).get i := by
  refine .bind <| post_select ?_
  simp only
  cases s.currentRate item with
  | none => exact post_created.imp fun k t ⟨hk, honly, ht⟩ => ⟨hk, honly, fun i => by simp [ht]⟩
  | some current =>
    refine .seq (Q := fun _ u => u = s.modify .rateSchedule current.id
      fun r => { r with effectiveTo := some (effectiveFrom.getD today) }) ?_ ?_
    · exact post_close (fun _ _ => rfl) fun _ => trivial
    · rintro _ u rfl
      refine post_created.imp fun k t ⟨hk, honly, ht⟩ => ?_
      rw [modify_table, Table.get_modify] at hk
      refine ⟨?_, IsTrans.trans _ _ _ (only_modify <| .head _) honly, fun i => ?_⟩
      · split at hk
        case isTrue he => rwa [he, ← Option.map_eq_none_iff]
        case isFalse => exact hk
      · simp only [ht, modify_table, Table.get_modify, Option.map_some, Option.mem_def, Option.some.injEq,
          @eq_comm _ current.id]
        split
        · rfl
        · split
          case isTrue he => rw [he]
          case isFalse => rfl

theorem homed_of_valid (h : s.valid) {r : RateSchedule} (hr : (s.table .rateSchedule).get k = some r) :
    ∃ i, (s.table .item).get r.item = some i :=
  valid_ref h hr (List.mem_singleton_self _)

theorem tiersPlaced_of_valid (h : s.valid) : TiersPlaced s := fun _ _ hr =>
  valid_ref h hr (List.mem_singleton_self _)

theorem storedBands_of_only {ts : List Name} (h : Database.Only ts s t) (hband : .rateBand ∉ ts)
    (htier : .rateTier ∉ ts) : storedBands t item = storedBands s item := by
  unfold storedBands storedBand openBands tiersOf
  rw [h .rateBand hband, h .rateTier htier]

-- Nothing is said about bands.
theorem Versioned.of_only {ts : List Name} (hs : Versioned s) (h : Database.Only ts s t) (hv : t.valid)
    (hband : .rateBand ∉ ts)
    (hrated : ∀ {item i}, (t.table .item).get item = some i → ∃ closed current, Rated t item closed current) :
    Versioned t where
  rated      := hrated
  homed      := homed_of_valid hv
  placed     := tiersPlaced_of_valid hv
  opened item := by
    have ⟨l, hl⟩ := hs.opened item
    exact ⟨l, hl.congr fun k r _ => by rw [h .rateBand hband]⟩

theorem post_serve_createItem (hs : Versioned s) {council : ℕ} {code : String} {amount : Rate} :
    Prog.Post ((RateRequest.createItem council code amount).serve today) s <| Prog.OnReturn fun _ (t : Db) => t.valid →
      Versioned t ∧ FiguresKept s t ∧ Database.Only [Name.item, Name.rateSchedule] s t := by
  refine .seq post_createRevenueItem fun new t ⟨hnew, hitems, honly, k, hk, ht⟩ => .ret fun hv => ?_
  have hband : t.table .rateBand = s.table .rateBand := honly .rateBand (by decide)
  have htier : t.table .rateTier = s.table .rateTier := honly .rateTier (by decide)
  refine ⟨hs.of_only honly hv (by decide) fun {item i} hi => ?_, ⟨fun {i r} hr => ?_, fun hr => ?_, fun hr => ?_⟩, honly⟩
  · by_cases he : item = new
    case pos =>
      refine ⟨[], ⟨k, new, amount, today, none⟩, ⟨?_, by simp, .singleton _, rfl⟩⟩
      rintro ⟨j, r⟩
      rw [List.nil_append, List.mem_singleton, Loaded.mk.injEq, ht]
      split
      case isTrue hj =>
        rw [Option.some.injEq]
        exact ⟨fun ⟨_, hr⟩ => ⟨hr.symm, hr ▸ he.symm⟩, fun ⟨hr, _⟩ => ⟨hj, hr.symm⟩⟩
      case isFalse hj =>
        refine ⟨fun ⟨hjk, _⟩ => absurd hjk hj, fun ⟨hr, hitem⟩ => ?_⟩
        have ⟨i, hi⟩ := hs.homed hr
        rw [show r.item = new from hitem.trans he, hnew] at hi
        exact nomatch hi
    case neg =>
      have ⟨closed, current, hrated⟩ := hs.rated <| hitems item he ▸ hi
      refine ⟨closed, current, hrated.congr fun j r hr => ?_⟩
      rw [ht]
      split
      case isTrue hj =>
        rw [hj, hk, Option.some.injEq]
        exact ⟨fun hnew => absurd (hr.symm.trans <| hnew ▸ rfl) he, nofun⟩
      case isFalse => rfl
  · refine ⟨r.effectiveTo, ?_, fun _ => rfl⟩
    have hi : i ≠ k := fun he => by simp [he, hk] at hr
    rw [ht, if_neg hi, hr]
  · exact ⟨_, hband ▸ hr, fun _ => rfl⟩
  · exact htier ▸ hr

theorem post_serve_changeRate (hs : Versioned s) {amount : Rate} {effectiveFrom : Option Date} :
    Prog.Post ((RateRequest.changeRate item amount effectiveFrom).serve today) s <| Prog.OnReturn fun _ (t : Db) => t.valid →
      Versioned t ∧ FiguresKept s t ∧ Database.Only [Name.item, Name.rateSchedule] s t := by
  refine .seq post_changeRate fun k t ⟨hk, honly, ht⟩ => .ret fun hv => ?_
  have hitems : t.table .item = s.table .item := honly .item (by decide)
  have hband : t.table .rateBand = s.table .rateBand := honly .rateBand (by decide)
  have htier : t.table .rateTier = s.table .rateTier := honly .rateTier (by decide)
  obtain ⟨i, hi⟩ : ∃ i, (s.table .item).get item = some i := by
    have hnew : (t.table .rateSchedule).get k = some ⟨item, amount, effectiveFrom.getD today, none⟩ := by simp [ht]
    exact hitems ▸ homed_of_valid hv hnew
  have ⟨closed, current, hrated⟩ := hs.rated hi
  have ⟨hcurrent, hitem⟩ := hrated.get
  have ht : ∀ i, (t.table .rateSchedule).get i = if i = k then some ⟨item, amount, effectiveFrom.getD today, none⟩
      else if i = current.id then some { current.row with effectiveTo := some (effectiveFrom.getD today) }
      else (s.table .rateSchedule).get i := fun i => by
    rw [ht, hrated.currentRate]
    simp only [Option.map_some, Option.mem_def, Option.some.injEq, @eq_comm _ current.id]
    split
    · rfl
    · split
      case isTrue he => rw [he, hcurrent, Option.map_some]
      case isFalse => rfl
  refine ⟨hs.of_only honly hv (by decide) fun {item' i'} hi' => ?_, ⟨fun {i r} hr => ?_, fun hr => ?_, fun hr => ?_⟩,
    honly.mono <| by simp⟩
  · by_cases he : item' = item
    case pos => exact ⟨_, _, he ▸ hrated.change hk rfl rfl ht⟩
    case neg =>
      have ⟨closed', current', hrated'⟩ := hs.rated <| hitems ▸ hi'
      refine ⟨closed', current', hrated'.congr fun j r hr => ?_⟩
      rw [ht]
      split
      case isTrue hj =>
        rw [hj, hk, Option.some.injEq]
        exact ⟨fun hnew => absurd (hr.symm.trans <| hnew ▸ rfl) he, nofun⟩
      case isFalse =>
        split
        case isTrue hj =>
          rw [hj, hcurrent, Option.some.injEq, Option.some.injEq]
          exact ⟨fun h => absurd (hr.symm.trans <| h ▸ hitem) he, fun h => absurd (hr.symm.trans <| h ▸ hitem) he⟩
        case isFalse => rfl
  · have hik : i ≠ k := fun he => by simp [he, hk] at hr
    rw [ht, if_neg hik]
    split
    case isTrue hj =>
      rw [hj, hcurrent, Option.some.injEq] at hr
      refine ⟨some (effectiveFrom.getD today), by rw [hr], fun hne => absurd ?_ hne⟩
      rw [← hr, hrated.open_]
    case isFalse => exact ⟨_, hr, fun _ => rfl⟩
  · exact ⟨_, hband ▸ hr, fun _ => rfl⟩
  · exact htier ▸ hr

theorem post_serve_replaceBands (hs : Versioned s) {specs : List BandSpec} {effectiveFrom : Option Date} :
    Prog.Post ((RateRequest.replaceBands item specs effectiveFrom).serve today) s <| Prog.OnReturn fun _ (t : Db) => t.valid →
      Versioned t ∧ FiguresKept s t ∧ (∀ i ≠ item, storedBands t i = storedBands s i) ∧
        validateBands specs = .ok (storedBands t item) := by
  have ⟨l, hl⟩ := hs.opened item
  refine .seq (post_replaceRateBands hs.placed hl)
    fun _ t ⟨u, honly, hext, hu, bands, l', hv, hl', he⟩ => .ret fun hvalid => ?_
  have hmem : ∀ {k}, k ∈ l.map Loaded.id →
      ∃ r, (s.table .rateBand).get k = some r ∧ r.item = item ∧ r.effectiveTo = none := fun hk => by
    obtain ⟨b, hb, rfl⟩ := List.mem_map.mp hk
    exact ⟨b.row, (hl.mem b).mp hb⟩
  have hitems : t.table .item = s.table .item :=
    (hext.only .item (by decide)).trans <| honly .item (by decide)
  have hrates : t.table .rateSchedule = s.table .rateSchedule :=
    (hext.only .rateSchedule (by decide)).trans <| honly .rateSchedule (by decide)
  have hothers : ∀ k r, r.item ≠ item →
      ((t.table .rateBand).get k = some r ↔ (s.table .rateBand).get k = some r) := fun k r hr => by
    rw [hext.others k r hr, hu]
    split
    case isFalse => rfl
    case isTrue hk =>
      have ⟨r₀, hr₀, hitem, _⟩ := hmem hk
      rw [hr₀, Option.map_some, Option.some.injEq, Option.some.injEq]
      exact ⟨fun h => absurd (h ▸ hitem) hr, fun h => absurd (h ▸ hitem) hr⟩
  have hopened : ∀ {i lᵢ}, i ≠ item → Opened s i lᵢ → Opened t i lᵢ := fun hi hlᵢ =>
    hlᵢ.congr fun k r ⟨hr, _⟩ => hothers k r (hr ▸ hi)
  refine ⟨⟨fun hi => ?_, homed_of_valid hvalid, tiersPlaced_of_valid hvalid, fun i => ?_⟩,
    ⟨fun hr => ⟨_, hrates ▸ hr, fun _ => rfl⟩, fun {k r} hr => ?_, fun hr => ?_⟩, fun i hi => ?_, ?_⟩
  · have ⟨closed, current, hrated⟩ := hs.rated <| hitems ▸ hi
    exact ⟨closed, current, hrated.congr fun _ _ _ => by rw [hrates]⟩
  · by_cases hi : i = item
    case pos => exact ⟨l', hi ▸ hl'⟩
    case neg =>
      have ⟨lᵢ, hlᵢ⟩ := hs.opened i
      exact ⟨lᵢ, hopened hi hlᵢ⟩
  · by_cases hk : k ∈ l.map Loaded.id
    case pos =>
      have ⟨r₀, hr₀, _, hopen⟩ := hmem hk
      obtain rfl : r₀ = r := Option.some.inj <| hr₀.symm.trans hr
      refine ⟨some (effectiveFrom.getD today), hext.kept ?_, fun h => absurd hopen h⟩
      rw [hu, if_pos hk, hr, Option.map_some]
    case neg => exact ⟨r.effectiveTo, hext.kept <| by rw [hu, if_neg hk, hr], fun _ => rfl⟩
  · refine hext.tiers ?_
    rwa [honly .rateTier (by decide)]
  · have ⟨lᵢ, hlᵢ⟩ := hs.opened i
    rw [storedBands, storedBands, openBands_eq hlᵢ, openBands_eq (hopened hi hlᵢ)]
    refine List.map_congr_left fun b hb => ?_
    have ⟨hb, hbi, _⟩ := (hlᵢ.mem b).mp hb
    have hub : (u.table .rateBand).get b.id = some b.row := by
      rw [← hext.others _ _ (hbi ▸ hi), hothers _ _ (hbi ▸ hi)]
      exact hb
    rw [storedBand, storedBand, hext.same hub, tiersOf, tiersOf, honly .rateTier (by decide)]
  · rw [hv, ← he, storedBands, openBands_eq hl']

end Requests

section Runs

-- No item has been activated.
structure Unrated (s : Db) : Prop where
  item         : s.table .item = .empty
  rateSchedule : s.table .rateSchedule = .empty
  rateBand     : s.table .rateBand = .empty
  rateTier     : s.table .rateTier = .empty

abbrev RateHistory := List (Prog.Served relational.schema (Date × RateRequest))

-- The calls are executed one after another, each on its day.
abbrev RateSession (past : RateHistory) (s : Db) : Prop :=
  Prog.Session (S := relational.schema) Unrated (fun r => r.2.serve r.1) (fun _ _ _ => True) past s

-- The call has replaced the bands of the item.
def Accepted (item : ℕ) (bands : List Band) (x : Prog.Served relational.schema (Date × RateRequest)) : Prop :=
  ∃ specs effectiveFrom n m, x.request.2 = .replaceBands item specs effectiveFrom ∧
    validateBands specs = .ok bands ∧ (x.request.2.serve x.request.1).call x.before n = (.ok (), x.after, m)

-- The set of bands that was accepted last, the latest call being the first of the list.
inductive LastSet (item : ℕ) : RateHistory → List Band → Prop
  | unbanded : LastSet item [] []
  | accepted {x past bands} : Accepted item bands x → LastSet item (x :: past) bands
  | passed {x past bands} : (∀ bands', ¬Accepted item bands' x) → LastSet item past bands →
    LastSet item (x :: past) bands

theorem RateSession.versioned {past : RateHistory} (h : RateSession past s) :
    Versioned s ∧ ∀ x ∈ past, FiguresKept x.before x.after := by
  refine Prog.Session.preserves h (P := fun past s => Versioned s ∧ ∀ x ∈ past, FiguresKept x.before x.after)
    (fun {s} hi => ?start) (fun {past s r} ⟨hs, hp⟩ _ => ?serve) fun {past s r} ⟨hs, hp⟩ => ?fail
  case start =>
    refine ⟨⟨fun hr => ?_, fun hr => ?_, fun _ _ hr => ?_, fun item => ⟨[], .nil fun _ _ hr => ?_⟩⟩,
      List.forall_mem_nil _⟩
    · simp [hi.item] at hr
    · simp [hi.rateSchedule] at hr
    · simp [hi.rateTier] at hr
    · simp [hi.rateBand] at hr
  case serve =>
    have hcons : ∀ {t : Db}, Versioned t ∧ FiguresKept s t →
        Versioned t ∧ ∀ x ∈ ⟨r, s, t⟩ :: past, FiguresKept x.before x.after :=
      fun ⟨ht, hkept⟩ => ⟨ht, List.forall_mem_cons.mpr ⟨hkept, hp⟩⟩
    obtain ⟨today, r⟩ := r
    cases r with
    | createItem => exact (post_serve_createItem hs).imp fun _ t ht hv => hcons ⟨(ht hv).1, (ht hv).2.1⟩
    | changeRate => exact (post_serve_changeRate hs).imp fun _ t ht hv => hcons ⟨(ht hv).1, (ht hv).2.1⟩
    | replaceBands => exact (post_serve_replaceBands hs).imp fun _ t ht hv => hcons ⟨(ht hv).1, (ht hv).2.1⟩
  case fail => exact ⟨hs, List.forall_mem_cons.mpr ⟨.refl, hp⟩⟩

theorem RateSession.lastSet {past : RateHistory} (h : RateSession past s) : LastSet item past (storedBands s item) := by
  induction h with
  | @start s hi =>
    have hnone : Opened s item [] := .nil fun _ _ hr => by simp [hi.rateBand] at hr
    rw [storedBands, openBands_eq hnone]
    exact .unbanded
  | @serve past s t n m out r hs _ hc hlast =>
    have hversioned := (RateSession.versioned hs).1
    obtain ⟨today, r⟩ := r
    by_cases hacc : ∃ bands, Accepted item bands ⟨(today, r), s, t⟩
    case pos =>
      have ⟨bands, specs, effectiveFrom, n', m', hr, hv, hc'⟩ := hacc
      simp only at hr
      subst hr
      have ⟨ht, hvalid⟩ := Prog.call_ok (post_serve_replaceBands hversioned) hc'
      refine .accepted ⟨specs, effectiveFrom, n', m', rfl, (ht hvalid).2.2.2, hc'⟩
    case neg =>
      refine .passed (not_exists.mp hacc) ?_
      suffices he : storedBands t item = storedBands s item by rwa [he]
      cases out with
      | error => rw [Prog.call_error hc]
      | ok =>
        cases r with
        | createItem =>
          have ⟨ht, hvalid⟩ := Prog.call_ok (post_serve_createItem hversioned) hc
          exact storedBands_of_only (ht hvalid).2.2 (by decide) (by decide)
        | changeRate =>
          have ⟨ht, hvalid⟩ := Prog.call_ok (post_serve_changeRate hversioned) hc
          exact storedBands_of_only (ht hvalid).2.2 (by decide) (by decide)
        | replaceBands item' specs effectiveFrom =>
          have ⟨ht, hvalid⟩ := Prog.call_ok (post_serve_replaceBands hversioned) hc
          refine (ht hvalid).2.2.1 item fun he => hacc ?_
          subst he
          exact ⟨_, specs, effectiveFrom, n, m, rfl, (ht hvalid).2.2.2, hc⟩

namespace Sample

def unrated : Db :=
  ⟨fun _ => .empty, fun _ => []⟩

def amount : Rate :=
  ⟨⟨100, by decide⟩, by decide⟩

-- The state and the sequences after the call.
def administerRates (s : Db × (Name → ℕ)) (r : RateRequest) : Db × (Name → ℕ) :=
  ((r.serve day).call s.1 s.2).2

def banded : Db × (Name → ℕ) :=
  administerRates (administerRates (unrated, fun _ => 1) <| .createItem 1 "MKT" amount) <|
    .replaceBands 1 [⟨"Small", some .flat, some amount, none, none, []⟩] none

-- The set is refused since its labels are the same.
def regazetted : Db × (Name → ℕ) :=
  administerRates (administerRates banded <| .changeRate 1 amount none) <|
    .replaceBands 1 [⟨"Large", some .flat, some amount, none, none, []⟩, ⟨"Large ", some .flat, none, none, none, []⟩] none

theorem rateSession_administer {past : RateHistory} {s : Db × (Name → ℕ)} {r : RateRequest}
    (h : RateSession past s.1) : RateSession (⟨(day, r), s.1, (administerRates s r).1⟩ :: past) (administerRates s r).1 :=
  .serve (n := s.2) (day, r) h trivial rfl

end Sample

-- Rates and bands are only ever closed and followed by others.
theorem rates_versioned {past : RateHistory} (h : RateSession past s) :
    (∀ item i, (s.table .item).get item = some i → (∃ closed current, Rated s item closed current) ∧
      ∃! r : Loaded RateSchedule, (s.table .rateSchedule).get r.id = some r.row ∧ r.row.item = item ∧
        r.row.effectiveTo = none) ∧
    (∀ x ∈ past, FiguresKept x.before x.after) ∧
    (∀ item, LastSet item past (storedBands s item)) ∧
    ∀ (r : Date × RateRequest) n e t m, (r.2.serve r.1).call s n = (.error e, t, m) → t = s := by
  have ⟨hs, hkept⟩ := h.versioned
  refine ⟨fun item i hi => ?_, hkept, fun item => h.lastSet, fun r n e t m hc => Prog.call_error hc⟩
  have ⟨closed, current, hrated⟩ := hs.rated hi
  have ⟨hget, hitem⟩ := hrated.get
  exact ⟨⟨closed, current, hrated⟩, current, ⟨hget, hitem, hrated.open_⟩, fun r ⟨hr, hri, hopen⟩ =>
    hrated.unique hr hri hopen⟩

theorem sample_versioned : ∃ past : RateHistory, past.length = 4 ∧
    (∃! r : Loaded RateSchedule, (Sample.regazetted.1.table .rateSchedule).get r.id = some r.row ∧ r.row.item = 1 ∧
      r.row.effectiveTo = none) ∧
    storedBands Sample.regazetted.1 1 = [⟨"Small", .flat Sample.amount, []⟩] ∧
    LastSet 1 past [⟨"Small", .flat Sample.amount, []⟩] := by
  have hs : RateSession _ Sample.regazetted.1 := Sample.rateSession_administer <| Sample.rateSession_administer <|
    Sample.rateSession_administer <| Sample.rateSession_administer <| .start ⟨rfl, rfl, rfl, rfl⟩
  have ⟨hitem, _, hlast, _⟩ := rates_versioned hs
  have hget : ((Sample.regazetted.1.table .item).get 1).isSome := by decide +kernel
  have hbands : storedBands Sample.regazetted.1 1 = [⟨"Small", .flat Sample.amount, []⟩] := by decide +kernel
  have ⟨i, hi⟩ := Option.isSome_iff_exists.mp hget
  exact ⟨_, rfl, (hitem 1 i hi).2, hbands, hbands ▸ hlast 1⟩

end Runs

end ACRev360
