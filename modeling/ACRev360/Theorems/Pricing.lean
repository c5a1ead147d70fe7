import ACRev360.Theorems.Reckoning

namespace ACRev360

open Relational Relational.Database

-- What an assessment is priced from when it is made.

variable {s t : Db} {payer council actor k : ℕ} {e : LineEntry}

-- The price comes from the open band that the entry names if the item has bands, and from its current
-- rate otherwise.
inductive PricedFrom (s : Db) (e : LineEntry) : Option ℕ → Option ℕ → Option ℕ → ℚ → Prop
  | band {band : Loaded RateBand} {tier : Option ℕ} {unitAmount : ℚ} (active : s.hasActiveBands e.item.id)
      (named : e.rateBand = some band) (item : band.row.item = e.item.id) (open_ : band.row.effectiveTo = none)
      (mode : bandAmount e band = .ok (unitAmount, tier)) :
    PricedFrom s e none (some band.id) tier unitAmount
  | rate {rate : Loaded RateSchedule} (plain : ¬s.hasActiveBands e.item.id)
      (current : s.currentRate e.item.id = some rate) :
    PricedFrom s e (some rate.id) none none rate.row.rateAmount.val.toRat

-- The rates are the same.
structure RatesKept (s t : Db) : Prop where
  rateSchedule : t.table .rateSchedule = s.table .rateSchedule
  rateBand     : t.table .rateBand = s.table .rateBand

theorem RatesKept.of_only {ts : List Name} (h : Database.Only ts s t)
    (hts : ∀ n ∈ [Name.rateSchedule, Name.rateBand], n ∉ ts) : RatesKept s t where
  rateSchedule := h .rateSchedule <| hts _ <| by simp
  rateBand     := h .rateBand <| hts _ <| by simp

theorem RatesKept.hasActiveBands (h : RatesKept s t) : t.hasActiveBands = s.hasActiveBands := by
  funext item
  rw [Db.hasActiveBands, Db.hasActiveBands, h.rateBand]

theorem RatesKept.currentRate (h : RatesKept s t) : t.currentRate = s.currentRate := by
  funext item
  rw [Db.currentRate, Db.currentRate, h.rateSchedule]

theorem PricedFrom.congr {rateSchedule rateBand rateTier : Option ℕ} {unitAmount : ℚ} (h : RatesKept s t) :
    PricedFrom t e rateSchedule rateBand rateTier unitAmount ↔
      PricedFrom s e rateSchedule rateBand rateTier unitAmount := by
  constructor
  · rintro (⟨active, named, item, open_, mode⟩ | ⟨plain, current⟩)
    · exact .band (h.hasActiveBands ▸ active) named item open_ mode
    · exact .rate (h.hasActiveBands ▸ plain) (h.currentRate ▸ current)
  · rintro (⟨active, named, item, open_, mode⟩ | ⟨plain, current⟩)
    · exact .band (h.hasActiveBands ▸ active) named item open_ mode
    · exact .rate (h.hasActiveBands ▸ plain) (h.currentRate ▸ current)

-- The object that the caller gets and the row that is stored for it.
structure Costed (s : Db) (payer : ℕ) (e : LineEntry) (a : AssessmentObject) (row : Assessment) : Prop where
  object   : a.item = e.item.id ∧ a.rateBand = row.rateBand ∧ a.rateTier = row.rateTier ∧ a.quantity = e.quantity
  positive : 0 < e.quantity
  stored   : row.payer = payer ∧ row.item = e.item.id ∧ row.status = .draft
  quantity : row.quantity.units = cents e.quantity
  amount   : row.amount.units = cents a.amount
  priced   : ∃ unitAmount, PricedFrom s e row.rateSchedule row.rateBand row.rateTier unitAmount ∧
    a.amount = Decimal.round (unitAmount * e.quantity)

structure Charged (s : Db) (payer : ℕ) (e : LineEntry) (a : AssessmentObject) (row : Assessment) : Prop
    extends Costed s payer e a row where
  absent  : (s.table .assessment).get a.id = none
  retired : a.id ∉ s.retired .assessment

theorem Costed.congr {a : AssessmentObject} {row : Assessment} (h : RatesKept s t) :
    Costed t payer e a row ↔ Costed s payer e a row := by
  constructor
  · rintro ⟨hobject, hpos, hstored, hquantity, hamount, unitAmount, hpriced, he⟩
    exact ⟨hobject, hpos, hstored, hquantity, hamount, unitAmount, (PricedFrom.congr h).mp hpriced, he⟩
  · rintro ⟨hobject, hpos, hstored, hquantity, hamount, unitAmount, hpriced, he⟩
    exact ⟨hobject, hpos, hstored, hquantity, hamount, unitAmount, (PricedFrom.congr h).mpr hpriced, he⟩

theorem post_createAssessment_charged {rateSchedule rateBand rateTier : Option ℕ} {unitAmount : ℚ}
    (hpos : 0 < e.quantity) (hpriced : PricedFrom s e rateSchedule rateBand rateTier unitAmount) :
    Prog.Post (createAssessment payer council actor e rateSchedule rateBand rateTier
        (Decimal.round (unitAmount * e.quantity))) s <|
      Prog.OnReturn fun a t => ∃ row, Charged s payer e a row ∧ t = s.insert .assessment a.id row := by
  refine .bind <| post_store (fun _ hquantity => .bind ?_) fun _ => trivial
  refine post_store (fun _ hamount => .bind ?_) fun _ => trivial
  refine post_create (fun k hk => .ret ?_) fun _ => trivial
  have ⟨hr, hnone, _⟩ := conflicts_false hk
  exact ⟨_, ⟨⟨⟨rfl, rfl, rfl, rfl⟩, hpos, ⟨rfl, rfl, rfl⟩, hquantity, hamount, _, hpriced, rfl⟩, hnone, hr⟩, rfl⟩

theorem post_createDraftAssessment_charged : Prog.Post (createDraftAssessment payer council actor e) s <|
    Prog.OnReturn fun a t => ∃ row, Charged s payer e a row ∧ t = s.insert .assessment a.id row := by
  refine post_guard (fun _ => trivial) fun hpos => .bind <| post_select ?_
  replace hpos := not_le.mp hpos
  simp only
  split
  case isTrue hactive =>
    cases hband : e.rateBand with
    | none => exact .raise trivial
    | some band =>
      refine post_guard (fun _ => trivial) fun hown => ?_
      simp only [not_or, not_not] at hown
      cases hamount : bandAmount e band with
      | error err => exact .raise trivial
      | ok out => exact post_createAssessment_charged hpos <| .band hactive hband hown.1 hown.2 hamount
  case isFalse hplain =>
    refine .bind <| post_select ?_
    cases hrate : s.currentRate e.item.id with
    | none => exact .raise trivial
    | some rate => exact post_createAssessment_charged hpos <| .rate hplain hrate

theorem PricedFrom.priceOf {rateSchedule rateBand rateTier : Option ℕ} {unitAmount : ℚ}
    (h : PricedFrom s e rateSchedule rateBand rateTier unitAmount) :
    priceOf s e = some (Decimal.round (unitAmount * e.quantity)) := by
  unfold ACRev360.priceOf
  cases h with
  | band active named _ _ mode => simp [active, named, mode]
  | rate plain current => simp [plain, current]

theorem Costed.priceOf {a : AssessmentObject} {row : Assessment} (h : Costed s payer e a row) :
    priceOf s e = some a.amount := by
  have ⟨_, hpriced, hamount⟩ := h.priced
  rw [hpriced.priceOf, hamount]

end ACRev360
