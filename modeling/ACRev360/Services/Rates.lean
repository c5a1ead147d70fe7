import ACRev360.Services.Banding

namespace ACRev360

open Relational

-- create_revenue_item
def createRevenueItem (today : Date) (council : ℕ) (harmonisedCode : String) (rateAmount : Rate) :
    Service ℕ := do
  let item ← create .item { council, harmonisedCode, isActive := true }
  let _ ← create .rateSchedule { item, rateAmount, effectiveFrom := today, effectiveTo := none }
  return item

-- change_rate: the open row is closed and a new one is opened.
def changeRate (today : Date) (item : ℕ) (newAmount : Rate) (effectiveFrom : Option Date) : Service ℕ := do
  let effectiveFrom := effectiveFrom.getD today
  if let some current ← query fun s => s.currentRate item then
    close .rateSchedule current.id (fun r => { r with effectiveTo := some effectiveFrom })
      ⟨fun _ => List.nil_subset _, fun _ => rfl⟩
  create .rateSchedule { item, rateAmount := newAmount, effectiveFrom, effectiveTo := none }

-- The calls that write the rates and the bands of items.
inductive RateRequest where
  | createItem (council : ℕ) (harmonisedCode : String) (rateAmount : Rate)
  | changeRate (item : ℕ) (newAmount : Rate) (effectiveFrom : Option Date)
  | replaceBands (item : ℕ) (specs : List BandSpec) (effectiveFrom : Option Date)

def RateRequest.serve (today : Date) : RateRequest → Service Unit
  | createItem council code amount  => do let _ ← createRevenueItem today council code amount
  | changeRate item amount date     => do let _ ← ACRev360.changeRate today item amount date
  | replaceBands item specs date    => do let _ ← replaceRateBands today item specs date

-- The tiers of a band, in the order of their table.
def tiersOf (s : Db) (band : ℕ) : List (Loaded RateTier) :=
  (s.table .rateTier).filter (fun _ t => t.band = band)
    |>.map (fun t => ⟨t.1, t.2⟩)
    |>.insertionSort fun x y => x.row.sortOrder < y.row.sortOrder ∨
        (x.row.sortOrder = y.row.sortOrder ∧ x.row.label ≤ y.row.label)

def storedTier (t : Loaded RateTier) : Tier :=
  ⟨t.row.label, t.row.amount⟩

-- A band and its tiers, without their keys and dates.
def storedBand (s : Db) (b : Loaded RateBand) : Band :=
  ⟨b.row.label, b.row.rateMode, (tiersOf s b.id).map storedTier⟩

-- The bands from which the item is priced.
def storedBands (s : Db) (item : ℕ) : List Band :=
  (openBands s item).map (storedBand s)

end ACRev360
