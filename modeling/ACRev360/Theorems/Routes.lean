import ACRev360.Theorems.Coverage
import ACRev360.Theorems.Issuing

namespace ACRev360

open Relational Relational.Database

-- A bill that is issued for several charges, and one that they are added to one after the other.

variable {s t u : Db} {b : ℕ} {e : LineEntry}

-- An item, band and tier.
abbrev ChargeKey := ℕ × Option ℕ × Option ℕ

section Costs

-- What an entry is charged, before it is stored.
structure Cost where
  key      : ChargeKey
  quantity : ℚ
  amount   : ℚ

-- What is stored.
structure Charge where
  key      : ChargeKey
  quantity : ℤ
  amount   : ℤ

def Cost.charge (c : Cost) : Charge :=
  ⟨c.key, cents c.quantity, cents c.amount⟩

-- The charges of a key are added up before they are stored.
def summing : Grouping Cost Cost ChargeKey where
  key         := Cost.key
  tag         := Cost.key
  start       := id
  add b c     := ⟨b.key, Decimal.round (b.quantity + c.quantity), Decimal.round (b.amount + c.amount)⟩
  tag_start _ := rfl
  tag_add _ _ := rfl

-- Each charge is stored before the next one of its key is added to it.
def storing : Grouping Cost Charge ChargeKey where
  key         := Cost.key
  tag         := Charge.key
  start       := Cost.charge
  add b c     := ⟨b.key, cents (Decimal.round (kobo b.quantity + c.quantity)),
    cents (Decimal.round (kobo b.amount + c.amount))⟩
  tag_start _ := rfl
  tag_add _ _ := rfl

def storedOnce : List ℚ → ℤ
  | []      => 0
  | q :: qs => cents <| qs.foldl (fun sum q => Decimal.round (sum + q)) q

def storedEach : List ℚ → ℤ
  | []      => 0
  | q :: qs => qs.foldl (fun z q => cents (Decimal.round (kobo z + q))) (cents q)

-- Storing after each addition gives what storing the sum gives.
def StoresAlike (qs : List ℚ) : Prop :=
  storedEach qs = storedOnce qs

variable {c : Cost} {l : List Cost}

theorem foldl_summing : l.foldl summing.add c = ⟨c.key,
    (l.map Cost.quantity).foldl (fun sum q => Decimal.round (sum + q)) c.quantity,
    (l.map Cost.amount).foldl (fun sum q => Decimal.round (sum + q)) c.amount⟩ := by
  induction l generalizing c with
  | nil => rfl
  | cons c' l hi =>
    rw [List.foldl_cons, hi]
    rfl

theorem foldl_storing {c : Charge} : l.foldl storing.add c = ⟨c.key,
    (l.map Cost.quantity).foldl (fun z q => cents (Decimal.round (kobo z + q))) c.quantity,
    (l.map Cost.amount).foldl (fun z q => cents (Decimal.round (kobo z + q))) c.amount⟩ := by
  induction l generalizing c with
  | nil => rfl
  | cons c' l hi =>
    rw [List.foldl_cons, hi]
    rfl

theorem summing_total (h : summing.total l = some c) :
    c.charge = ⟨c.key, storedOnce (l.map Cost.quantity), storedOnce (l.map Cost.amount)⟩ := by
  cases l with
  | nil => contradiction
  | cons c' l =>
    obtain rfl := Option.some.inj h
    rw [foldl_summing]
    rfl

theorem storing_total {k : ChargeKey} (hl : ∀ c ∈ l, c.key = k) (hne : l ≠ []) :
    storing.total l = some ⟨k, storedEach (l.map Cost.quantity), storedEach (l.map Cost.amount)⟩ := by
  cases l with
  | nil => contradiction
  | cons c l =>
    rw [Grouping.total, foldl_storing]
    exact congrArg (fun k => some (Charge.mk k _ _)) (hl c <| .head _)

instance {qs : List ℚ} : Decidable (StoresAlike qs) :=
  inferInstanceAs <| Decidable (_ = _)

-- The charges of the key.
def ofKey (k : ChargeKey) (l : List Cost) : List Cost :=
  l.filter (Cost.key · = k)

theorem ofKey_key {k : ChargeKey} : ∀ c ∈ ofKey k l, c.key = k :=
  fun _ hc => of_decide_eq_true (List.mem_filter.mp hc).2

def StoreAlike (l : List Cost) : Prop :=
  ∀ c ∈ l, StoresAlike ((ofKey c.key l).map Cost.quantity) ∧ StoresAlike ((ofKey c.key l).map Cost.amount)

instance : Decidable (StoreAlike l) :=
  inferInstanceAs <| Decidable (∀ c ∈ l, _)

theorem mem_summing {x : Charge} : x ∈ (summing.merge l).map Cost.charge ↔ x.key ∈ l.map Cost.key ∧
    x = ⟨x.key, storedOnce ((ofKey x.key l).map Cost.quantity), storedOnce ((ofKey x.key l).map Cost.amount)⟩ := by
  constructor
  · intro hx
    obtain ⟨c, hc, rfl⟩ := List.mem_map.mp hx
    exact ⟨Grouping.mem_tags.mp <| List.mem_map_of_mem hc, summing_total <| Grouping.mem_merge.mp hc⟩
  · rintro ⟨hkey, hx⟩
    have ⟨c, hc, hck⟩ := List.mem_map.mp <| (Grouping.mem_tags (g := summing)).mpr hkey
    have htotal := summing_total <| Grouping.mem_merge.mp hc
    refine List.mem_map.mpr ⟨c, hc, ?_⟩
    rw [hx, htotal, ← hck]
    rfl

theorem mem_storing {x : Charge} : x ∈ storing.merge l ↔ x.key ∈ l.map Cost.key ∧
    x = ⟨x.key, storedEach ((ofKey x.key l).map Cost.quantity), storedEach ((ofKey x.key l).map Cost.amount)⟩ := by
  rw [Grouping.mem_merge]
  constructor
  · intro hx
    have hkey : x.key ∈ l.map Cost.key := Grouping.mem_tags.mp <| List.mem_map_of_mem <| Grouping.mem_merge.mpr hx
    have ⟨c, hc, hck⟩ := List.mem_map.mp hkey
    have hne : ofKey x.key l ≠ [] := List.ne_nil_of_mem <| List.mem_filter.mpr ⟨hc, decide_eq_true hck⟩
    exact ⟨hkey, Option.some.inj <| hx.symm.trans <| storing_total ofKey_key hne⟩
  · rintro ⟨hkey, hx⟩
    have ⟨c, hc, hck⟩ := List.mem_map.mp hkey
    have hne : ofKey x.key l ≠ [] := List.ne_nil_of_mem <| List.mem_filter.mpr ⟨hc, decide_eq_true hck⟩
    exact (storing_total ofKey_key hne).trans <| congrArg some hx.symm

-- The two ways come to the same charges.
theorem mem_summing_iff_storing :
    (∀ x, x ∈ (summing.merge l).map Cost.charge ↔ x ∈ storing.merge l) ↔ StoreAlike l := by
  simp only [mem_summing, mem_storing]
  constructor
  · intro h c hc
    have hx := ((h ⟨c.key, storedOnce ((ofKey c.key l).map Cost.quantity),
      storedOnce ((ofKey c.key l).map Cost.amount)⟩).mp ⟨List.mem_map_of_mem hc, rfl⟩).2
    obtain ⟨_, hquantity, hamount⟩ := Charge.mk.inj hx
    exact ⟨hquantity.symm, hamount.symm⟩
  · intro h x
    refine and_congr_right fun hkey => ?_
    obtain ⟨c, hc, hck⟩ := List.mem_map.mp hkey
    obtain ⟨hquantity, hamount⟩ := h c hc
    rw [hck] at hquantity hamount
    rw [hquantity, hamount]

theorem nodup_summing : ((summing.merge l).map Cost.charge).Nodup := by
  refine .of_map Charge.key ?_
  rw [List.map_map]
  exact Grouping.nodup_tags (g := summing)

end Costs

section Keys

-- The item, band and tier that the caller names.
def LineEntry.named (e : LineEntry) : ChargeKey :=
  (e.item.id, e.rateBand.map (·.id), e.rateTier.map (·.id))

-- Those that the assessment of the entry cites.
def LineEntry.cited (s : Db) (e : LineEntry) : ChargeKey :=
  if s.hasActiveBands e.item.id then
    (e.item.id, e.rateBand.map (·.id), e.rateBand.bind fun band => (bandAmount e band).toOption.bind (·.2))
  else (e.item.id, none, none)

def LineEntry.cost (s : Db) (e : LineEntry) : Cost :=
  ⟨e.cited s, e.quantity, (priceOf s e).getD 0⟩

-- The entry can be charged, at a band that is the one in the database.
structure LineEntry.Chargeable (s : Db) (e : LineEntry) : Prop where
  fetched : ∀ band, e.rateBand = some band → (s.table .rateBand).get band.id = some band.row
  priced  : ∃ rateSchedule rateBand rateTier unitAmount, PricedFrom s e rateSchedule rateBand rateTier unitAmount

theorem PricedFrom.cited {rateSchedule rateBand rateTier : Option ℕ} {unitAmount : ℚ}
    (h : PricedFrom s e rateSchedule rateBand rateTier unitAmount) : e.cited s = (e.item.id, rateBand, rateTier) := by
  unfold LineEntry.cited
  cases h with
  | band active named _ _ mode => simp [active, named, mode, Except.toOption]
  | rate plain _ => simp [plain]

theorem bandAmount_range {band : Loaded RateBand} {unitAmount : ℚ} {tier : Option ℕ} {minAmount maxAmount : Rate}
    (hmode : band.row.rateMode = .range minAmount maxAmount) (h : bandAmount e band = .ok (unitAmount, tier)) :
    tier = none := by
  unfold bandAmount at h
  rw [hmode] at h
  simp only at h
  split at h
  case h_1 => contradiction
  case h_2 =>
    split at h
    case isTrue => exact (Prod.mk.inj <| Except.ok.inj h).2.symm
    case isFalse => contradiction

-- The tier that is cited is the one that is named, unless the band has a range.
theorem bandAmount_tier {band : Loaded RateBand} {unitAmount : ℚ} {tier : Option ℕ}
    (h : bandAmount e band = .ok (unitAmount, tier)) :
    tier = e.rateTier.map (·.id) ∨ ∃ minAmount maxAmount, band.row.rateMode = .range minAmount maxAmount := by
  unfold bandAmount at h
  split at h
  case h_1 => exact .inl (Prod.mk.inj <| Except.ok.inj h).2.symm
  case h_2 minAmount maxAmount hmode => exact .inr ⟨minAmount, maxAmount, hmode⟩
  case h_3 =>
    split at h
    case h_1 => contradiction
    case h_2 tier' htier =>
      split at h
      case isTrue => contradiction
      case isFalse =>
        rw [← (Prod.mk.inj <| Except.ok.inj h).2, htier]
        exact .inl rfl

-- What one entry names and another one cites is what the first one cites.
theorem LineEntry.Chargeable.cited_of_named {e' : LineEntry} (he : e.Chargeable s) (he' : e'.Chargeable s)
    (h : e.named = e'.cited s) : e.named = e.cited s := by
  have ⟨_, _, _, _, hpriced⟩ := he.priced
  have ⟨_, _, _, _, hpriced'⟩ := he'.priced
  have hcited := hpriced.cited
  rw [hpriced'.cited] at h
  have ⟨hitem, hrest⟩ := Prod.mk.inj h
  have ⟨hband, htier⟩ := Prod.mk.inj hrest
  rw [hcited]
  cases hpriced with
  | rate plain current =>
    cases hpriced' with
    | rate => rw [LineEntry.named, hband, htier]
    | band active => exact absurd (hitem ▸ active) plain
  | @band band tier unitAmount active named _ _ mode =>
    cases hpriced' with
    | rate plain => exact absurd (hitem ▸ active) plain
    | @band band' tier' unitAmount' _ named' _ _ mode' =>
      have hid : band.id = band'.id := by
        rw [named] at hband
        exact Option.some.inj hband
      rw [LineEntry.named, named]
      rcases bandAmount_tier mode with htier | ⟨minAmount, maxAmount, hrange⟩
      case inl => rw [htier]; rfl
      case inr =>
        -- Both bands are the row in the database, and its price has no tier.
        have hrow := he.fetched band named
        rw [hid, he'.fetched band' named', Option.some.injEq] at hrow
        rw [bandAmount_range hrange mode, htier, bandAmount_range (hrow ▸ hrange) mode']
        rfl

end Keys

section Adding

variable {past rest : List LineEntry} {cs cs' : List Charge}

-- The charges of a bill that the entry is added to.
inductive Adds (s : Db) (e : LineEntry) : List Charge → List Charge → Prop
  | start {l : List Charge} : e.named ∉ l.map Charge.key → Adds s e l (l ++ [(e.cost s).charge])
  | add {before after : List Charge} {c : Charge} : c.key = e.named →
    Adds s e (before ++ c :: after) (before ++ storing.add c (e.cost s) :: after)

-- An entry after another one that cites the same names what it cites.
def Unmixed (s : Db) (entries : List LineEntry) : Prop :=
  entries.Pairwise fun e e' => e.cited s = e'.cited s → e'.named = e'.cited s

instance : Decidable (Unmixed s past) :=
  inferInstanceAs <| Decidable (past.Pairwise fun _ _ => _)

theorem unmixed_concat : Unmixed s (past ++ [e]) ↔
    Unmixed s past ∧ ∀ e' ∈ past, e'.cited s = e.cited s → e.named = e.cited s := by
  simp [Unmixed, List.pairwise_append]

-- What the charges of a bill are once the entries have been added to it.
structure Reached (s : Db) (entries : List LineEntry) (cs : List Charge) : Prop where
  keys   : ∀ k, k ∈ cs.map Charge.key ↔ k ∈ entries.map (LineEntry.cited s)
  nodup  : (cs.map Charge.key).Nodup ↔ Unmixed s entries
  merged : Unmixed s entries → cs = storing.merge (entries.map (LineEntry.cost s))

theorem Reached.start : Reached s [e] [(e.cost s).charge] where
  keys _   := Iff.rfl
  nodup    := by simp [Unmixed]
  merged _ := rfl

theorem Reached.adds (h : Reached s past cs) (hall : ∀ e' ∈ past ++ [e], e'.Chargeable s) (ha : Adds s e cs cs') :
    Reached s (past ++ [e]) cs' := by
  have he : e.Chargeable s := hall e <| by simp
  have hnamed : e.named ∈ cs.map Charge.key → e.named = e.cited s := fun hmem => by
    have ⟨e', he', hcited⟩ := List.mem_map.mp <| (h.keys _).mp hmem
    exact he.cited_of_named (hall e' <| List.mem_append_left _ he') hcited.symm
  cases ha with
  | start hnot =>
    have hmixed : e.cited s ∉ cs.map Charge.key ↔ ∀ e' ∈ past, e'.cited s = e.cited s → e.named = e.cited s := by
      rw [h.keys]
      constructor
      · exact fun hcited e' he' heq => absurd (List.mem_map.mpr ⟨e', he', heq⟩) hcited
      · intro hall hcited
        have ⟨e', he', heq⟩ := List.mem_map.mp hcited
        exact hnot <| hall e' he' heq ▸ (h.keys _).mpr hcited
    constructor
    case keys =>
      intro k
      rw [List.map_append, List.map_append, List.mem_append, List.mem_append, h.keys]
      rfl
    case nodup =>
      rw [unmixed_concat, ← hmixed, ← h.nodup, List.map_append, List.nodup_append]
      refine and_congr_right fun _ => ⟨fun ⟨_, hne⟩ hmem => hne _ hmem _ (.head _) rfl, fun hnot => ⟨by simp, ?_⟩⟩
      intro x hx y hy heq
      rw [heq, List.mem_singleton.mp hy] at hx
      exact hnot hx
    case merged =>
      intro hu
      rw [unmixed_concat, ← hmixed] at hu
      rw [List.map_append, List.map_singleton, Grouping.merge_concat, ← h.merged hu.1,
        Grouping.step_of_not_mem hu.2]
      rfl
  | @add before after c hc =>
    have hmem : e.named ∈ (before ++ c :: after).map Charge.key :=
      hc ▸ List.mem_map_of_mem (List.mem_append_right _ <| .head _)
    have hcited : e.named = e.cited s := hnamed hmem
    have hkeys : (before ++ storing.add c (e.cost s) :: after).map Charge.key =
        (before ++ c :: after).map Charge.key := by
      rw [List.map_append, List.map_append]
      rfl
    have hu : Unmixed s (past ++ [e]) ↔ Unmixed s past := by
      rw [unmixed_concat]
      exact and_iff_left fun _ _ _ => hcited
    constructor
    case keys =>
      intro k
      rw [hkeys, h.keys, List.map_append, List.mem_append]
      refine (or_iff_left_of_imp fun hk => ?_).symm
      rw [List.mem_singleton.mp hk, ← h.keys, ← hcited]
      exact hmem
    case nodup => rw [hkeys, hu, h.nodup]
    case merged =>
      intro hmixed
      rw [hu] at hmixed
      have hnodup := h.nodup.mpr hmixed
      have hkey : (e.cost s).key = c.key := (hc.trans hcited).symm
      rw [List.map_append, List.map_cons, List.nodup_append, List.nodup_cons] at hnodup
      have hbefore : ∀ x ∈ before, x.key ≠ c.key := fun x hx =>
        hnodup.2.2 _ (List.mem_map_of_mem hx) _ (.head _)
      have hafter : ∀ x ∈ after, x.key ≠ c.key := fun x hx he => hnodup.2.1.1 <| he ▸ List.mem_map_of_mem hx
      have hsame {l : List Charge} (hl : ∀ x ∈ l, x.key ≠ c.key) :
          (l.map fun x => if x.key = c.key then storing.add x (e.cost s) else x) = l :=
        (List.map_congr_left fun x hx => if_neg (hl x hx)).trans (List.map_id _)
      rw [List.map_append, List.map_singleton, Grouping.merge_concat, ← h.merged hmixed, Grouping.step_of_mem]
      · change _ = (before ++ c :: after).map fun x => if x.key = (e.cost s).key then storing.add x (e.cost s) else x
        rw [hkey, List.map_append, List.map_cons, hsame hbefore, hsame hafter, if_pos rfl]
      · rw [hcited] at hmem
        exact hmem

end Adding

section Items

-- A line of a bill, its assessment and what they charge.
structure LineItem where
  line       : ℕ
  assessment : ℕ
  charge     : Charge

structure LineItem.Stored (x : LineItem) (b : ℕ) (t : Db) : Prop where
  line       : ∃ l, (t.table .line).get x.line = some l ∧ l.bill = b ∧ l.assessment = x.assessment ∧
    l.currentAmount.units = x.charge.amount ∧ l.lineAmount.units = x.charge.amount ∧ l.arrearsAmount.units = 0
  assessment : ∃ a, (t.table .assessment).get x.assessment = some a ∧
    (a.item, a.rateBand, a.rateTier) = x.charge.key ∧ a.quantity.units = x.charge.quantity ∧
    a.amount.units = x.charge.amount
  nonneg     : 0 ≤ x.charge.amount

-- The lines of the bill.
structure Itemised (b : ℕ) (items : List LineItem) (t : Db) : Prop where
  each        : ∀ x ∈ items, x.Stored b t
  lines       : (items.map LineItem.line).Nodup
  assessments : (items.map LineItem.assessment).Nodup
  all         : ∀ {k l}, (t.table .line).get k = some l → l.bill = b → k ∈ items.map LineItem.line

def AssessmentObject.cost (a : AssessmentObject) : Cost :=
  ⟨a.key, a.quantity, a.amount⟩

theorem summing_merge {l : List AssessmentObject} :
    summing.merge (l.map AssessmentObject.cost) = (folding.merge l).map AssessmentObject.cost :=
  Grouping.merge_map (fun _ => rfl) (fun _ => rfl) (fun _ => rfl) fun _ _ => rfl

theorem Costed.cost {payer : ℕ} {a : AssessmentObject} {row : Assessment} (h : Costed s payer e a row) :
    a.cost = e.cost s := by
  have ⟨_, hpriced, _⟩ := h.priced
  have ⟨hitem, hband, htier, hquantity⟩ := h.object
  rw [AssessmentObject.cost, LineEntry.cost, hpriced.cited, h.priceOf, AssessmentObject.key, hitem, hband, htier,
    hquantity]
  rfl

theorem AllCosted.costs {payer : ℕ} {entries : List LineEntry} {objs : List AssessmentObject}
    (h : AllCosted payer entries s t objs) : objs.map AssessmentObject.cost = entries.map (LineEntry.cost s) := by
  have heach := h.each
  clear h
  induction heach with
  | nil => rfl
  | cons h _ hi =>
    have ⟨_, hrow, _⟩ := h
    rw [List.map_cons, List.map_cons, hi, hrow.cost]

theorem Costed.nonneg {payer : ℕ} {a : AssessmentObject} {row : Assessment} (h : Costed s payer e a row) :
    0 ≤ a.amount :=
  priceOf_nonneg h.positive h.priceOf

-- The items that lines are made of for the assessments.
theorem exists_items {l : List AssessmentObject} {ks : List ℕ}
    (h : List.Forall₂ (fun a k => ∃ row, (t.table .line).get k = some row ∧ LineFor b a row) l ks) :
    ∃ items : List LineItem, items.map LineItem.line = ks ∧
      items.map LineItem.assessment = l.map AssessmentObject.id ∧
      items.map LineItem.charge = l.map (Cost.charge ∘ AssessmentObject.cost) ∧
      ∀ x ∈ items, ∃ a ∈ l, x.assessment = a.id ∧ x.charge = a.cost.charge ∧
        ∃ row, (t.table .line).get x.line = some row ∧ LineFor b a row := by
  induction h with
  | nil => exact ⟨[], rfl, rfl, rfl, List.forall_mem_nil _⟩
  | @cons a k l ks h _ hi =>
    have ⟨items, hlines, hassessments, hcharges, heach⟩ := hi
    refine ⟨⟨k, a.id, a.cost.charge⟩ :: items, by rw [List.map_cons, hlines], by rw [List.map_cons, hassessments]; rfl,
      by rw [List.map_cons, hcharges]; rfl, List.forall_mem_cons.mpr ⟨⟨a, .head _, rfl, rfl, h⟩, fun x hx => ?_⟩⟩
    have ⟨a', ha', hrest⟩ := heach x hx
    exact ⟨a', .tail _ ha', hrest⟩

theorem IssuedFrom.itemised {r : IssueRequest} {priced : List AssessmentObject} (h : IssuedFrom r b priced s u t)
    (hs : Tallied s) (hdrafts : r.billAllDrafts = false) (hroll : r.rollArrears = false) :
    ∃ items, Itemised b items t ∧
      items.map LineItem.charge = (summing.merge (r.lines.map (LineEntry.cost s))).map Cost.charge := by
  obtain ⟨ks, v, w, hv, hlined, hw⟩ := h.lined hroll
  have hnone : r.drafts s = [] := by
    rw [IssueRequest.drafts, hdrafts]
    rfl
  have hbilled := h.billed
  rw [hnone, List.append_nil] at hlined hbilled
  obtain ⟨items, hlines, hassessments, hcharges, heach⟩ := exists_items hlined.each
  -- What is kept is one of the assessments that have been made.
  have hfrom : ∀ a ∈ folding.merge priced, 0 ≤ a.amount ∧ ∃ a' ∈ priced, a.id = a'.id ∧ a.key = a'.key := by
    refine Grouping.forall_merge (fun a ha => ?_) fun a a' ha' hpost => ⟨?_, hpost.2⟩
    · obtain ⟨_, _, _, hcosted, _⟩ := h.costed.get a ha
      exact ⟨hcosted.nonneg, a, ha, rfl, rfl⟩
    · have hpos := hpost.1
      obtain ⟨_, _, _, hcosted, _⟩ := h.costed.get a' ha'
      exact Decimal.round_nonneg <| add_nonneg hpos hcosted.nonneg
  refine ⟨items, ?_, ?_⟩
  case refine_2 => rw [hcharges, ← h.costed.costs, summing_merge, List.map_map]
  constructor
  case each =>
    intro x hx
    obtain ⟨a, ha, hid, hcharge, row, hrow, hfor⟩ := heach x hx
    obtain ⟨hpos, a', ha', hid', hkey⟩ := hfrom a ha
    obtain ⟨e, _, row', hcosted, hu⟩ := h.costed.get a' ha'
    obtain ⟨row'', quantity, amount, hrow'', hquantity, hamount, hget⟩ := hbilled.kept a ha
    obtain rfl : row' = row'' := by
      rw [hid', hu] at hrow''
      exact Option.some.inj hrow''
    obtain ⟨hitem, hband, htier, _⟩ := hcosted.object
    refine ⟨?_, ?_, ?_⟩ <;> rw [hcharge]
    · exact ⟨row, hw ▸ hrow, hfor.bill, hfor.assessment.trans hid.symm, hfor.current, hfor.amount, hfor.arrears⟩
    · refine ⟨_, hid ▸ hget, ?_, hquantity, hamount⟩
      refine Eq.trans ?_ hkey.symm
      rw [AssessmentObject.key, hitem, hband, htier, hcosted.stored.2.1]
    · exact cents_nonneg hpos
  case lines => exact hlines ▸ hlined.nodup
  case assessments =>
    rw [hassessments]
    exact nodup_folding h.costed.nodup
  case all =>
    intro k l hl hbill
    rw [hlines]
    by_contra hk
    rw [hw, hlined.others k hk, hv] at hl
    obtain ⟨row, hrow⟩ := hs.line hl
    simp [hbill, h.absent] at hrow

namespace Itemised

variable {items before after : List LineItem} {x y : LineItem}

theorem congr (h : Itemised b items s) (hline : t.table .line = s.table .line)
    (hassessment : t.table .assessment = s.table .assessment) : Itemised b items t where
  each x hx   := by
    have ⟨hl, ha, hpos⟩ := h.each x hx
    exact ⟨hline ▸ hl, hassessment ▸ ha, hpos⟩
  lines       := h.lines
  assessments := h.assessments
  all hl      := h.all (hline ▸ hl)

-- The line and the assessment of an item are written.
theorem replace (h : Itemised b (before ++ x :: after) s)
    (hline : ∀ k ≠ x.line, (t.table .line).get k = (s.table .line).get k)
    (hassessment : ∀ k row, k ≠ x.assessment → (s.table .assessment).get k = some row →
      (t.table .assessment).get k = some row)
    (hy : y.Stored b t) (hyl : y.line = x.line) (hya : y.assessment = x.assessment) :
    Itemised b (before ++ y :: after) t := by
  have hlines : (before ++ y :: after).map LineItem.line = (before ++ x :: after).map LineItem.line := by
    rw [List.map_append, List.map_append, List.map_cons, List.map_cons, hyl]
  have hassessments : (before ++ y :: after).map LineItem.assessment =
      (before ++ x :: after).map LineItem.assessment := by
    rw [List.map_append, List.map_append, List.map_cons, List.map_cons, hya]
  have hold : ∀ z ∈ before ++ after, z.Stored b t := fun z hz => by
    have hmem : z ∈ before ++ x :: after := by
      rcases List.mem_append.mp hz with hz | hz
      · exact List.mem_append_left _ hz
      · exact List.mem_append_right _ <| .tail _ hz
    have ⟨⟨l, hl, hrest⟩, ⟨a, ha, hrest'⟩, hpos⟩ := h.each z hmem
    have hperm : (before ++ x :: after).Perm (x :: (before ++ after)) := List.perm_middle
    have hl' : z.line ≠ x.line := fun he => by
      have := (hperm.map LineItem.line).nodup_iff.mp h.lines
      exact (List.nodup_cons.mp this).1 <| he ▸ List.mem_map_of_mem hz
    have ha' : z.assessment ≠ x.assessment := fun he => by
      have := (hperm.map LineItem.assessment).nodup_iff.mp h.assessments
      exact (List.nodup_cons.mp this).1 <| he ▸ List.mem_map_of_mem hz
    exact ⟨⟨l, by rw [hline _ hl', hl], hrest⟩, ⟨a, hassessment _ a ha' ha, hrest'⟩, hpos⟩
  refine ⟨fun z hz => ?_, hlines ▸ h.lines, hassessments ▸ h.assessments, fun {k l} hl hbill => ?_⟩
  · rcases List.mem_cons.mp <| List.perm_middle.mem_iff.mp hz with rfl | hz
    · exact hy
    · exact hold z hz
  · rw [hlines]
    by_cases hk : k = x.line
    case pos => exact hk ▸ List.mem_map_of_mem (List.mem_append_right _ <| .head _)
    case neg => exact h.all (hline k hk ▸ hl) hbill

-- A line is added for a new assessment.
theorem push (h : Itemised b items s) (hline : ∀ k ≠ x.line, (t.table .line).get k = (s.table .line).get k)
    (hassessment : ∀ k row, (s.table .assessment).get k = some row → (t.table .assessment).get k = some row)
    (hx : x.Stored b t) (hl : (s.table .line).get x.line = none)
    (ha : (s.table .assessment).get x.assessment = none) : Itemised b (items ++ [x]) t := by
  have hfresh : ∀ y ∈ items, y.line ≠ x.line ∧ y.assessment ≠ x.assessment := fun y hy => by
    have ⟨⟨l, hyl, _⟩, ⟨a, hya, _⟩, _⟩ := h.each y hy
    exact ⟨fun he => by simp [he, hl] at hyl, fun he => by simp [he, ha] at hya⟩
  refine ⟨List.forall_mem_append.mpr ⟨fun y hy => ?_, List.forall_mem_singleton.mpr hx⟩, ?_, ?_, fun {k l} hk hbill => ?_⟩
  · have ⟨⟨l, hyl, hrest⟩, ⟨a, hya, hrest'⟩, hpos⟩ := h.each y hy
    exact ⟨⟨l, by rw [hline _ (hfresh y hy).1, hyl], hrest⟩, ⟨a, hassessment _ a hya, hrest'⟩, hpos⟩
  · rw [List.map_append, List.nodup_append]
    refine ⟨h.lines, by simp, fun k hk j hj he => ?_⟩
    have ⟨y, hy, hyk⟩ := List.mem_map.mp hk
    exact (hfresh y hy).1 <| (hyk.trans he).trans <| List.mem_singleton.mp hj
  · rw [List.map_append, List.nodup_append]
    refine ⟨h.assessments, by simp, fun k hk j hj he => ?_⟩
    have ⟨y, hy, hyk⟩ := List.mem_map.mp hk
    exact (hfresh y hy).2 <| (hyk.trans he).trans <| List.mem_singleton.mp hj
  · rw [List.map_append, List.mem_append]
    by_cases hk' : k = x.line
    case pos => exact .inr <| hk' ▸ .head _
    case neg => exact .inl <| h.all (hline k hk' ▸ hk) hbill

end Itemised

variable {items : List LineItem} {today : Date} {actor : ℕ}

theorem matchingLine_some {item : ℕ} {rateBand rateTier : Option ℕ} {line : Loaded BillLine}
    (h : matchingLine s b item rateBand rateTier = some line) : ∃ a,
      (s.table .assessment).get line.row.assessment = some a ∧ (a.item, a.rateBand, a.rateTier) = (item, rateBand, rateTier) := by
  have hany := List.find?_some h
  have ⟨a, ha, hkey⟩ := (Option.any_eq_true _ _).mp hany
  simp only [Bool.and_eq_true, decide_eq_true_eq] at hkey
  exact ⟨a, ha, by rw [hkey.1.1, hkey.1.2, hkey.2]⟩

theorem Itemised.unmatched (h : Itemised b items s)
    (hnone : matchingLine s b e.item.id (e.rateBand.map (·.id)) (e.rateTier.map (·.id)) = none) :
    e.named ∉ (items.map LineItem.charge).map Charge.key := by
  intro hmem
  rw [List.map_map] at hmem
  have ⟨x, hx, hkey⟩ := List.mem_map.mp hmem
  have ⟨⟨l, hl, hbill, hassessment, _⟩, ⟨a, ha, hkey', _⟩, _⟩ := h.each x hx
  have hfind := List.find?_eq_none.mp hnone ⟨x.line, l⟩ <| mem_linesOf.mpr ⟨hl, hbill⟩
  rw [hassessment, ha] at hfind
  rw [Function.comp_apply, ← hkey'] at hkey
  have ⟨hitem, hrest⟩ := Prod.mk.inj hkey
  have ⟨hband, htier⟩ := Prod.mk.inj hrest
  simp [hitem, hband, htier] at hfind

theorem Costed.adds {payer : ℕ} {a : AssessmentObject} {row : Assessment} (h : Costed s payer e a row) :
    e.cost s = ⟨(row.item, row.rateBand, row.rateTier), e.quantity, a.amount⟩ := by
  have ⟨hitem, hband, htier, hquantity⟩ := h.object
  rw [← h.cost, AssessmentObject.cost, AssessmentObject.key, hitem, hband, htier, hquantity, h.stored.2.1]

theorem post_addBillLine_itemised {bill : Loaded Bill} (h : Itemised bill.id items s) (hs : Assessed s) :
    Prog.Post (addBillLine today bill actor e) s <| Prog.OnReturn fun _ t => ∃ items', Itemised bill.id items' t ∧
      Adds s e (items.map LineItem.charge) (items'.map LineItem.charge) := by
  refine .bind <| post_load (fun _ _ => ?_) fun _ => trivial
  refine .seq post_createDraftAssessment_charged fun a u hpost => .bind <| post_select ?_
  obtain ⟨row, hrow, hu⟩ := hpost
  have hget : ∀ k, (u.table .assessment).get k = if k = a.id then some row else (s.table .assessment).get k := fun k => by
    rw [hu, insert_table hrow.retired, Table.get_insert, hrow.absent, Option.getD_none]
  have hlines : u.table .line = s.table .line := hu ▸ insert_table_ne (by decide)
  have hmatch {item : ℕ} {rateBand rateTier : Option ℕ} : matchingLine u bill.id item rateBand rateTier =
      matchingLine s bill.id item rateBand rateTier := by rw [hu, matchingLine_insert hs]
  have recompute {v : Db} {k : ℕ} {l : List LineItem} {q : ℚ} (hv : Itemised bill.id l v)
      (ha : Adds s e (items.map LineItem.charge) (l.map LineItem.charge)) :
      Prog.Post (do let _ ← recomputeBill today bill q; return k) v <| Prog.OnReturn fun _ t =>
        ∃ items', Itemised bill.id items' t ∧ Adds s e (items.map LineItem.charge) (items'.map LineItem.charge) := by
    refine .seq (Prog.Keeps.returns (P := Database.Only [Name.bill]) <| recomputeBill_keeps fun _ =>
      only_modify <| List.mem_singleton_self _) fun _ t ht => .ret ⟨l, hv.congr ?_ ?_, ha⟩
    · exact ht .line (by simp)
    · exact ht .assessment (by simp)
  simp only [hmatch]
  split
  case h_1 line hfound =>
    obtain ⟨hline, hbill⟩ := matchingLine_mem hfound
    obtain ⟨existing, hexisting, hnamed⟩ := matchingLine_some hfound
    -- The line is one of the items.
    obtain ⟨x, hx, hxl⟩ := List.mem_map.mp <| h.all hline hbill
    obtain ⟨⟨l, hl, _, hassessment, hcurrent, _, harrears⟩, ⟨existing', hexisting', hkey, hquantity, hamount⟩, hpos⟩ := h.each x hx
    rw [hxl, hline, Option.some.injEq] at hl
    rw [← hl] at hassessment hcurrent harrears
    rw [← hassessment, hexisting, Option.some.injEq] at hexisting'
    rw [← hexisting'] at hkey hquantity hamount
    have hne : line.row.assessment ≠ a.id := fun he => by simp [he, hrow.absent] at hexisting
    refine .bind <| post_load (fun loaded hloaded => .bind ?_) fun _ => trivial
    rw [hget, if_neg hne, hexisting, Option.some.injEq] at hloaded
    subst hloaded
    refine post_store (fun quantity hquantity' => .bind ?_) fun _ => trivial
    refine post_store (fun amount hamount' => .bind ?_) fun _ => trivial
    refine post_save (fun _ _ => .bind ?_) fun _ => trivial
    refine post_store (fun current hcurrent' => .bind ?_) fun _ => trivial
    refine post_store (fun lineAmount hlineAmount => .bind ?_) fun _ => trivial
    refine post_save (fun _ _ => .bind ?_) fun _ => trivial
    refine post_save (fun _ _ => ?_) fun _ => trivial
    obtain ⟨before, after, hitems⟩ := List.append_of_mem hx
    have hsum : 0 ≤ existing.amount.toRat + a.amount :=
      add_nonneg (Numeric.toRat_nonneg_iff.mpr <| hamount ▸ hpos) hrow.nonneg
    have hcost := hrow.adds
    have hstored : cents (Decimal.round (existing.amount.toRat + a.amount)) = (storing.add x.charge (e.cost s)).amount := by
      rw [hcost]
      change _ = cents (Decimal.round (kobo x.charge.amount + a.amount))
      rw [← hamount]
      rfl
    refine recompute (l := before ++ ⟨x.line, x.assessment, storing.add x.charge (e.cost s)⟩ :: after) ?_ ?_
    case refine_2 =>
      rw [hitems, List.map_append, List.map_cons, List.map_append, List.map_cons]
      exact .add <| hkey.symm.trans hnamed
    subst hitems
    refine h.replace (fun k hk => ?_) (fun k row' hk hrow' => ?_)
      ⟨⟨{ line.row with currentAmount := current, lineAmount }, ?line, hbill, hassessment, ?_, ?_, harrears⟩,
        ⟨{ existing with quantity, amount }, ?assessment, ?_, ?_, ?_⟩, ?_⟩ rfl rfl
    case line =>
      rw [modify_table_ne (by decide), modify_table, Table.get_modify, if_pos hxl, modify_table_ne (by decide), hlines,
        hline, Option.map_some]
    case assessment =>
      rw [modify_table, Table.get_modify, if_neg (hassessment ▸ hne), modify_table_ne (by decide), modify_table,
        Table.get_modify, if_pos hassessment.symm, hget, if_neg hne, hexisting, Option.map_some]
    · rw [hxl] at hk
      rw [modify_table_ne (by decide), modify_table, Table.get_modify, if_neg hk, modify_table_ne (by decide), hlines]
    · have hka : k ≠ a.id := fun he => by simp [he, hrow.absent] at hrow'
      rw [← hassessment] at hk
      rw [modify_table, Table.get_modify, if_neg hka, modify_table_ne (by decide), modify_table, Table.get_modify,
        if_neg hk, hget, if_neg hka, hrow']
    · exact hcurrent'.trans hstored
    · refine hlineAmount.trans <| Eq.trans ?_ hstored
      have hzero : line.row.arrearsAmount.toRat = 0 := by rw [Numeric.toRat, harrears, Int.cast_zero, zero_div]
      rw [hzero, add_zero, Decimal.round_round hsum]
      rfl
    · exact hkey
    · rw [hcost]
      change _ = cents (Decimal.round (kobo x.charge.quantity + e.quantity))
      rw [← hquantity, ← hrow.object.2.2.2]
      exact hquantity'
    · exact hamount'.trans hstored
    · exact hstored ▸ cents_nonneg (Decimal.round_nonneg hsum)
  case h_2 hnone =>
    refine .bind <| post_save (fun _ _ => .bind ?_) fun _ => trivial
    refine post_select <| .seq post_createLine_row fun k v hpost => ?_
    obtain ⟨lineAmount, current, arrears, hr, hk, hv, hlineAmount, hcurrent, harrears⟩ := hpost
    subst hv
    have hk' : (s.table .line).get k = none := by
      rwa [modify_table_ne (by decide), hlines] at hk
    refine recompute (l := items ++ [⟨k, a.id, (e.cost s).charge⟩]) ?_ ?_
    case refine_2 =>
      rw [List.map_append]
      exact .start <| h.unmatched hnone
    have hcost := hrow.adds
    have hwritten : ∀ i, (((u.modify .assessment a.id fun r => { r with status := .billed }).table .assessment).get i) =
        if i = a.id then some { row with status := .billed } else (s.table .assessment).get i := fun i => by
      rw [modify_table, Table.get_modify, hget, hget]
      split
      case isTrue => rw [if_pos rfl, Option.map_some]
      case isFalse => rfl
    have hnew {l : BillLine} : ((Database.insert (u.modify .assessment a.id fun r => { r with status := .billed })
        .line k l).table .line).get k = some l := by rw [insert_table hr, Table.get_insert_self hk]
    refine h.push (fun i hi => ?_) (fun i row' hrow' => ?_)
      ⟨⟨_, hnew, rfl, rfl, ?_, ?_, harrears.trans cents_zero⟩,
        ⟨{ row with status := .billed }, ?assessment, ?_, ?_, ?_⟩, ?_⟩ hk' hrow.absent
    case assessment => rw [insert_table_ne (by decide), hwritten, if_pos rfl]
    · rw [insert_table hr, Table.get_insert_ne hi, modify_table_ne (by decide), hlines]
    · have hi : i ≠ a.id := fun he => by simp [he, hrow.absent] at hrow'
      rw [insert_table_ne (by decide), hwritten, if_neg hi, hrow']
    all_goals rw [hcost]
    · exact hcurrent
    · exact hlineAmount
    · rfl
    · exact hrow.quantity
    · exact hrow.amount
    · exact cents_nonneg hrow.nonneg

end Items

section Routes

variable {items : List LineItem} {past rest : List LineEntry} {k : ℕ} {today : Date} {actor : ℕ}

-- The bill charges `c`.
def Db.Charges (s : Db) (b : ℕ) (c : Charge) : Prop :=
  ∃ k l a, (s.table .line).get k = some l ∧ l.bill = b ∧ (s.table .assessment).get l.assessment = some a ∧
    c = ⟨(a.item, a.rateBand, a.rateTier), a.quantity.units, l.currentAmount.units⟩

-- No two lines of the bill have the same item, band and tier.
def Db.LinesDiffer (s : Db) (b : ℕ) : Prop :=
  ∀ ⦃j k l l' a a'⦄, (s.table .line).get j = some l → l.bill = b → (s.table .assessment).get l.assessment = some a →
    (s.table .line).get k = some l' → l'.bill = b → (s.table .assessment).get l'.assessment = some a' →
    (a.item, a.rateBand, a.rateTier) = (a'.item, a'.rateBand, a'.rateTier) → j = k

-- The bills have the same charges and the same total, and neither has two lines for one item, band and
-- tier.
structure SameBill (t₁ : Db) (b₁ : ℕ) (t₂ : Db) (b₂ : ℕ) : Prop where
  charges : ∀ c, t₁.Charges b₁ c ↔ t₂.Charges b₂ c
  total   : ∃ r₁ r₂, (t₁.table .bill).get b₁ = some r₁ ∧ (t₂.table .bill).get b₂ = some r₂ ∧
    r₁.totalAmount = r₂.totalAmount
  differ₁ : t₁.LinesDiffer b₁
  differ₂ : t₂.LinesDiffer b₂

-- The entries are added to the bill one after the other, on any days and by anyone.
inductive AddedAll (b : ℕ) : List LineEntry → Db → Db → Prop
  | nil {s : Db} : AddedAll b [] s s
  | cons {e : LineEntry} {es : List LineEntry} {s t u : Db} {n m : Name → ℕ} {k : ℕ} (today : Date) (actor : ℕ) :
    (addLine today b actor e).call s n = (.ok k, t, m) → AddedAll b es t u → AddedAll b (e :: es) s u

namespace Itemised

theorem charges (h : Itemised b items t) {c : Charge} : t.Charges b c ↔ c ∈ items.map LineItem.charge := by
  constructor
  · rintro ⟨k, l, a, hl, hbill, ha, rfl⟩
    obtain ⟨x, hx, rfl⟩ := List.mem_map.mp <| h.all hl hbill
    have ⟨⟨l', hl', _, hassessment, hcurrent, _⟩, ⟨a', ha', hkey, hquantity, _⟩, _⟩ := h.each x hx
    obtain rfl := Option.some.inj <| hl.symm.trans hl'
    rw [← hassessment, ha, Option.some.injEq] at ha'
    subst ha'
    refine List.mem_map.mpr ⟨x, hx, ?_⟩
    rw [hkey, hquantity, hcurrent]
  · intro hc
    obtain ⟨x, hx, rfl⟩ := List.mem_map.mp hc
    have ⟨⟨l, hl, hbill, hassessment, hcurrent, _⟩, ⟨a, ha, hkey, hquantity, _⟩, _⟩ := h.each x hx
    exact ⟨x.line, l, a, hl, hbill, hassessment ▸ ha, by rw [hkey, hquantity, hcurrent]⟩

theorem linesDiffer (h : Itemised b items t) :
    t.LinesDiffer b ↔ ((items.map LineItem.charge).map Charge.key).Nodup := by
  rw [List.map_map]
  have key : ∀ x ∈ items, ∃ l a, (t.table .line).get x.line = some l ∧ l.bill = b ∧
      (t.table .assessment).get l.assessment = some a ∧ (a.item, a.rateBand, a.rateTier) = x.charge.key := fun x hx => by
    have ⟨⟨l, hl, hbill, hassessment, _⟩, ⟨a, ha, hkey, _⟩, _⟩ := h.each x hx
    exact ⟨l, a, hl, hbill, hassessment ▸ ha, hkey⟩
  constructor
  · intro hd
    refine List.Nodup.map_on (fun x hx y hy he => ?_) (.of_map _ h.lines)
    have ⟨l, a, hl, hbill, ha, hkey⟩ := key x hx
    have ⟨l', a', hl', hbill', ha', hkey'⟩ := key y hy
    have hline := hd hl hbill ha hl' hbill' ha' <| hkey.trans <| he.trans hkey'.symm
    exact List.inj_on_of_nodup_map h.lines hx hy hline
  · intro hnodup j k l l' a a' hl hbill ha hl' hbill' ha' he
    obtain ⟨x, hx, rfl⟩ := List.mem_map.mp <| h.all hl hbill
    obtain ⟨y, hy, rfl⟩ := List.mem_map.mp <| h.all hl' hbill'
    have ⟨m, c, hm, _, hc, hkey⟩ := key x hx
    have ⟨m', c', hm', _, hc', hkey'⟩ := key y hy
    obtain rfl := Option.some.inj <| hl.symm.trans hm
    obtain rfl := Option.some.inj <| hl'.symm.trans hm'
    obtain rfl := Option.some.inj <| ha.symm.trans hc
    obtain rfl := Option.some.inj <| ha'.symm.trans hc'
    rw [List.inj_on_of_nodup_map hnodup hx hy <| hkey.symm.trans <| he.trans hkey']

theorem lineTotal (h : Itemised b items t) :
    t.lineTotal b = ((items.map LineItem.charge).map Charge.amount).sum := by
  have hperm : (((t.table .line).filter fun _ l => l.bill = b).map (·.1)).Perm (items.map LineItem.line) := by
    refine (List.perm_ext_iff_of_nodup Table.keys_nodup h.lines).mpr fun k => ?_
    constructor
    · intro hk
      obtain ⟨⟨k, l⟩, hl, rfl⟩ := List.mem_map.mp hk
      have ⟨hget, hbill⟩ := Table.mem_filter_iff.mp hl
      exact h.all hget (of_decide_eq_true hbill)
    · intro hk
      obtain ⟨x, hx, rfl⟩ := List.mem_map.mp hk
      have ⟨⟨l, hl, hbill, _⟩, _, _⟩ := h.each x hx
      exact List.mem_map.mpr ⟨(x.line, l), Table.mem_filter_iff.mpr ⟨hl, decide_eq_true hbill⟩, rfl⟩
  let amountOf (k : ℕ) : ℤ := ((t.table .line).get k).elim 0 (·.lineAmount.units)
  have hrows : ((t.table .line).filter fun _ l => l.bill = b).map (fun l => l.2.lineAmount.units) =
      (((t.table .line).filter fun _ l => l.bill = b).map (·.1)).map amountOf := by
    rw [List.map_map]
    refine List.map_congr_left fun l hl => ?_
    simp only [Function.comp_apply, amountOf, (Table.mem_filter_iff.mp hl).1, Option.elim_some]
  have hitems : (items.map LineItem.charge).map Charge.amount = (items.map LineItem.line).map amountOf := by
    rw [List.map_map, List.map_map]
    refine List.map_congr_left fun x hx => ?_
    have ⟨⟨l, hl, _, _, _, hamount, _⟩, _, _⟩ := h.each x hx
    simp only [Function.comp_apply, amountOf, hl, Option.elim_some, hamount]
  have hsum := (hperm.map amountOf).sum_eq
  rw [← hrows, ← hitems] at hsum
  refine Eq.trans ?_ hsum
  have hfilter := Table.sum_filter (t := t.table .line) (f := fun _ l => l.lineAmount.units)
    (p := fun _ l => decide (l.bill = b))
  refine Eq.trans (Table.sum_congr fun k l _ => ?_) hfilter.symm
  simp only [decide_eq_true_eq]

end Itemised

theorem RatesKept.cost (h : RatesKept s t) : e.cost t = e.cost s := by
  have hprice : priceOf t e = priceOf s e := by
    unfold priceOf
    rw [h.hasActiveBands, h.currentRate]
  rw [LineEntry.cost, LineEntry.cost, hprice, LineEntry.cited, LineEntry.cited, h.hasActiveBands]

theorem RatesKept.adds {cs cs' : List Charge} (h : RatesKept s t) (ha : Adds t e cs cs') : Adds s e cs cs' := by
  cases ha with
  | start hnot => exact h.cost ▸ .start hnot
  | add hc => exact h.cost ▸ .add hc

theorem post_addLine_rates : Prog.Post (addLine today b actor e) s <| Prog.OnReturn fun _ t => RatesKept s t := by
  have hkeeps : (addLine today b actor e).Keeps (Database.Only [Name.assessment, Name.bill, Name.line]) := by
    refine .bind getObject_keeps fun bill => addBillLine_keeps (fun h => h.mono <| by simp) ?_ ?_ ?_
    · exact fun _ => only_modify <| by simp
    · exact fun _ => only_insert <| by simp
    · exact fun _ => only_modify <| by simp
  exact hkeeps.returns.imp fun _ t ht => .of_only ht (by simp)

theorem RatesKept.trans (h₁ : RatesKept s t) (h₂ : RatesKept t u) : RatesKept s u where
  rateSchedule := h₂.rateSchedule.trans h₁.rateSchedule
  rateBand     := h₂.rateBand.trans h₁.rateBand

theorem AddedAll.reached (h : AddedAll b rest t u) (ht : t.Reachable fun _ _ => True) (hi : Itemised b items t)
    (hr : Reached s past (items.map LineItem.charge)) (hrates : RatesKept s t)
    (hall : ∀ e ∈ past ++ rest, e.Chargeable s) : (u.Reachable fun _ _ => True) ∧
      ∃ items', Itemised b items' u ∧ Reached s (past ++ rest) (items'.map LineItem.charge) := by
  induction h generalizing items past with
  | nil => exact ⟨ht, items, hi, by rwa [List.append_nil]⟩
  | @cons e es t v u n m k today actor hc _ hrest =>
    rw [List.append_cons] at hall ⊢
    have hpost : Prog.Post (addLine today b actor e) t <| Prog.OnReturn fun _ v => ∃ items', Itemised b items' v ∧
        Adds t e (items.map LineItem.charge) (items'.map LineItem.charge) := by
      refine .bind <| post_getObject (fun bill _ _ => ?_) fun _ => trivial
      exact post_addBillLine_itemised hi ht.tallied.assessed
    have ⟨⟨items', hi', ha⟩, _⟩ := Prog.call_ok hpost hc
    have ⟨hkept, _⟩ := Prog.call_ok post_addLine_rates hc
    refine hrest (.serve today (.addLine b actor e) ht trivial <| Prog.call_discard hc) hi' ?_ (hrates.trans hkept) hall
    exact hr.adds (fun e' he' => hall e' <| List.mem_append_left _ he') <| hrates.adds ha

-- An entry that names a band or a tier its assessment does not cite is the first of its item, band and
-- tier, and what is rounded is the same in both ways.
structure Mergeable (s : Db) (entries : List LineEntry) : Prop where
  unmixed : Unmixed s entries
  stored  : StoreAlike (entries.map (LineEntry.cost s))

theorem sameBill_iff {t₁ t₂ : Db} {b₁ b₂ : ℕ} {items₁ items₂ : List LineItem} {entries : List LineEntry}
    (h₁ : t₁.Reachable fun _ _ => True) (h₂ : t₂.Reachable fun _ _ => True) (hi₁ : Itemised b₁ items₁ t₁)
    (hi₂ : Itemised b₂ items₂ t₂) (hentries : entries ≠ [])
    (hc₁ : items₁.map LineItem.charge = (summing.merge (entries.map (LineEntry.cost s))).map Cost.charge)
    (hr₂ : Reached s entries (items₂.map LineItem.charge)) : SameBill t₁ b₁ t₂ b₂ ↔ Mergeable s entries := by
  have hcharges (hu : Unmixed s entries) : (∀ c, t₁.Charges b₁ c ↔ t₂.Charges b₂ c) ↔
      StoreAlike (entries.map (LineEntry.cost s)) := by
    simp only [hi₁.charges, hi₂.charges, hc₁, hr₂.merged hu]
    exact mem_summing_iff_storing
  constructor
  case mp =>
    intro h
    have hu := hr₂.nodup.mp <| hi₂.linesDiffer.mp h.differ₂
    exact ⟨hu, (hcharges hu).mp h.charges⟩
  case mpr =>
    rintro ⟨hu, hstored⟩
    have hc := (hcharges hu).mpr hstored
    have hnodup₁ : ((items₁.map LineItem.charge).map Charge.key).Nodup := by
      rw [hc₁, List.map_map]
      exact Grouping.nodup_tags (g := summing)
    have hnodup₂ := hr₂.nodup.mpr hu
    refine ⟨hc, ?_, hi₁.linesDiffer.mpr hnodup₁, hi₂.linesDiffer.mpr hnodup₂⟩
    have hperm : (items₁.map LineItem.charge).Perm (items₂.map LineItem.charge) :=
      (List.perm_ext_iff_of_nodup (.of_map _ hnodup₁) (.of_map _ hnodup₂)).mpr fun c =>
        hi₁.charges.symm.trans <| (hc c).trans hi₂.charges
    have hbill {t : Db} {b : ℕ} {items : List LineItem} (h : t.Reachable fun _ _ => True) (hi : Itemised b items t)
        (hne : items.map LineItem.charge ≠ []) : ∃ r, (t.table .bill).get b = some r ∧
          r.totalAmount.units = ((items.map LineItem.charge).map Charge.amount).sum := by
      obtain ⟨c, hc⟩ := List.exists_mem_of_ne_nil _ hne
      obtain ⟨x, hx, _⟩ := List.mem_map.mp hc
      obtain ⟨⟨l, hl, hbill, _⟩, _, _⟩ := hi.each x hx
      obtain ⟨r, hr⟩ := h.tallied.line hl
      rw [hbill] at hr
      exact ⟨r, hr, (h.tallied.totals hr).1.trans hi.lineTotal⟩
    have hne₂ : items₂.map LineItem.charge ≠ [] := by
      obtain ⟨e, he⟩ := List.exists_mem_of_ne_nil _ hentries
      have hk := (hr₂.keys _).mpr <| List.mem_map_of_mem he
      exact List.ne_nil_of_mem <| (List.mem_map.mp hk).choose_spec.1
    have hne₁ : items₁.map LineItem.charge ≠ [] := fun hnil => hne₂ <| (hnil ▸ hperm).nil_eq.symm
    obtain ⟨r₁, hr₁, htotal₁⟩ := hbill h₁ hi₁ hne₁
    obtain ⟨r₂, hr₂', htotal₂⟩ := hbill h₂ hi₂ hne₂
    refine ⟨r₁, r₂, hr₁, hr₂', Numeric.ext ?_⟩
    rw [htotal₁, htotal₂, (hperm.map Charge.amount).sum_eq]

theorem AllCosted.chargeable {payer : ℕ} {entries : List LineEntry} {objs : List AssessmentObject}
    (h : AllCosted payer entries s t objs)
    (hf : ∀ e ∈ entries, ∀ band, e.rateBand = some band → (s.table .rateBand).get band.id = some band.row) :
    ∀ e ∈ entries, e.Chargeable s := by
  have heach := h.each
  clear h
  induction heach with
  | nil => exact List.forall_mem_nil _
  | cons h _ hi =>
    have ⟨hhead, htail⟩ := List.forall_mem_cons.mp hf
    have ⟨_, hrow, _⟩ := h
    have ⟨unitAmount, hpriced, _⟩ := hrow.priced
    exact List.forall_mem_cons.mpr ⟨⟨hhead, _, _, _, unitAmount, hpriced⟩, hi htail⟩

namespace Sample

-- The first item had a band once.
def formerBand : RateBand :=
  ⟨1, "Small", 0, .flat ⟨.naira 20, by decide⟩, 1, some 2⟩

def formerlyBanded : Db where
  table
    | .rateBand => Table.empty.insert 1 formerBand
    | t         => tables t
  retired _ := []

theorem formerlyBanded_initial : formerlyBanded.Initial where
  assessment := council_initial.assessment
  bill       := rfl
  line       := rfl
  payment    := rfl
  allocation := rfl
  credit     := council_initial.credit

-- The entry names the former band, though the item has a plain rate now.
def stray : LineEntry :=
  { entry 1 with rateBand := some ⟨1, formerBand⟩ }

def billing (lines : List LineEntry) : IssueRequest :=
  ⟨1, payer, none, lines, false, false, 1, false⟩

def firstBilled : Db × (Name → ℕ) :=
  ((issueBill day (billing [entry 1])).call formerlyBanded keys).2

def strayAdded : Db × (Name → ℕ) :=
  ((addLine day 1 1 stray).call firstBilled.1 firstBilled.2).2

end Sample

end Routes

-- A bill that is issued with all the lines and one that is issued with the first and added the others to
-- are the same exactly if the lines are mergeable.
theorem sameBill_iff_mergeable {r : IssueRequest} {es : List LineEntry} {today today' : Date}
    {n n' m m' : Name → ℕ} {t₁ s₁ t₂ : Db} {out₁ out₂} (hs : s.Reachable fun _ _ => True)
    (hr : r.lines = e :: es) (hdrafts : r.billAllDrafts = false) (hroll : r.rollArrears = false)
    (hf : ∀ e ∈ r.lines, ∀ band, e.rateBand = some band → (s.table .rateBand).get band.id = some band.row)
    (h₁ : (issueBill today r).call s n = (.ok out₁, t₁, m))
    (h₂ : (issueBill today' { r with lines := [e] }).call s n' = (.ok out₂, s₁, m'))
    (ha : AddedAll out₂.1 es s₁ t₂) : SameBill t₁ out₁.1 t₂ out₂.1 ↔ Mergeable s r.lines := by
  have ⟨⟨priced₁, u₁, hfrom₁⟩, _⟩ := Prog.call_ok post_issueBill_from h₁
  have ⟨⟨priced₂, u₂, hfrom₂⟩, _⟩ := Prog.call_ok post_issueBill_from h₂
  have ⟨hkept, _⟩ := Prog.call_ok post_issueBill_rates h₂
  have ⟨items₁, hi₁, hc₁⟩ := hfrom₁.itemised hs.tallied hdrafts hroll
  have ⟨items₂, hi₂, hc₂⟩ := hfrom₂.itemised hs.tallied hdrafts hroll
  have hall : ∀ e' ∈ [e] ++ es, e'.Chargeable s := by
    have := hfrom₁.costed.chargeable hf
    rwa [hr] at this
  have hstart : Reached s [e] (items₂.map LineItem.charge) := by
    rw [hc₂]
    exact .start
  have hreach₁ : t₁.Reachable fun _ _ => True := .serve today (.issueBill r) hs trivial <| Prog.call_discard h₁
  have hreach₂ : s₁.Reachable fun _ _ => True :=
    .serve today' (.issueBill { r with lines := [e] }) hs trivial <| Prog.call_discard h₂
  have ⟨hreach, items, hi, hreached⟩ := ha.reached hreach₂ hi₂ hstart hkept hall
  refine sameBill_iff hreach₁ hreach hi₁ hi (by simp [hr]) hc₁ ?_
  rw [hr]
  exact hreached

set_option maxRecDepth 20000 in
-- The entries are for one item at its plain rate.
theorem sample_sameBill : ∃ t₁ t₂ : Db, SameBill t₁ 1 t₂ 1 := by
  have h₁ := Sample.call_returns (p := issueBill Sample.day (Sample.billing [Sample.entry 1, Sample.entry 1]))
    (s := Sample.start) (a := (1, 0)) (by decide +kernel)
  have h₂ := Sample.call_returns (p := issueBill Sample.day (Sample.billing [Sample.entry 1])) (s := Sample.start)
    (a := (1, 0)) (by decide +kernel)
  have h₃ := Sample.call_returns (p := addLine Sample.day 1 1 (Sample.entry 1))
    (s := ((issueBill Sample.day (Sample.billing [Sample.entry 1])).call Sample.start.1 Sample.start.2).2) (a := 1)
    (by decide +kernel)
  refine ⟨_, _, (sameBill_iff_mergeable (.initial Sample.council_initial) rfl rfl rfl ?_ h₁ h₂
    (.cons Sample.day 1 h₃ .nil)).mpr ⟨?_, ?_⟩⟩
  · intro e he band hband
    simp only [Sample.billing, List.mem_cons, List.not_mem_nil, or_false, or_self] at he
    rw [he] at hband
    contradiction
  · decide +kernel
  · decide +kernel

set_option maxRecDepth 20000 in
-- The second entry names a band that the item has no longer, and its route leaves two lines for the item.
theorem not_sameBill : ∃ (s t₁ s₁ t₂ : Db) (n m m' : Name → ℕ), s.Reachable (fun _ _ => True) ∧
    (s.table .rateBand).get 1 = some Sample.formerBand ∧
    (issueBill Sample.day (Sample.billing [Sample.entry 1, Sample.stray])).call s n = (.ok (1, 0), t₁, m) ∧
    (issueBill Sample.day (Sample.billing [Sample.entry 1])).call s n = (.ok (1, 0), s₁, m') ∧
    AddedAll 1 [Sample.stray] s₁ t₂ ∧ ¬SameBill t₁ 1 t₂ 1 := by
  have h₁ := Sample.call_returns (p := issueBill Sample.day (Sample.billing [Sample.entry 1, Sample.stray]))
    (s := (Sample.formerlyBanded, Sample.keys)) (a := (1, 0)) (by decide +kernel)
  have h₂ : (issueBill Sample.day (Sample.billing [Sample.entry 1])).call Sample.formerlyBanded Sample.keys =
      (.ok (1, 0), Sample.firstBilled.1, Sample.firstBilled.2) :=
    Sample.call_returns (s := (Sample.formerlyBanded, Sample.keys)) (by decide +kernel)
  have h₃ : (addLine Sample.day 1 1 Sample.stray).call Sample.firstBilled.1 Sample.firstBilled.2 =
      (.ok 2, Sample.strayAdded.1, Sample.strayAdded.2) := Sample.call_returns (by decide +kernel)
  refine ⟨_, _, Sample.firstBilled.1, Sample.strayAdded.1, _, _, _, .initial Sample.formerlyBanded_initial, rfl, h₁, h₂,
    .cons Sample.day 1 h₃ .nil, fun h => ?_⟩
  have hlines : ((Sample.strayAdded.1.table .line).get 1).any (fun l => l.bill = 1 ∧ l.assessment = 1) ∧
      ((Sample.strayAdded.1.table .line).get 2).any fun l => l.bill = 1 ∧ l.assessment = 2 := by decide +kernel
  have hkeys : ((Sample.strayAdded.1.table .assessment).get 1).any
        (fun a => (a.item, a.rateBand, a.rateTier) = (1, none, none)) ∧
      ((Sample.strayAdded.1.table .assessment).get 2).any
        fun a => (a.item, a.rateBand, a.rateTier) = (1, none, none) := by decide +kernel
  simp only [Option.any_eq_true, decide_eq_true_eq] at hlines hkeys
  have ⟨⟨l, hl, hbill, hcites⟩, ⟨l', hl', hbill', hcites'⟩⟩ := hlines
  have ⟨⟨a, ha, hkey⟩, ⟨a', ha', hkey'⟩⟩ := hkeys
  have := h.differ₂ hl hbill (hcites ▸ ha) hl' hbill' (hcites' ▸ ha') <| hkey.trans hkey'.symm
  contradiction

end ACRev360
