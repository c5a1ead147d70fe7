import ACRev360.Objects.Queries

namespace ACRev360

open Relational

inductive BandMode where
  | flat | range | tiered
deriving DecidableEq

structure TierSpec where
  label  : String
  amount : Option Rate

-- A band as RateBandEntrySerializer validates it, or another caller hands it over. The mode is `none`
-- if it is not one of the three.
structure BandSpec where
  label      : String
  rateMode   : Option BandMode
  flatAmount : Option Rate
  minAmount  : Option Rate
  maxAmount  : Option Rate
  tiers      : List TierSpec

structure Tier where
  label  : String
  amount : Rate
deriving DecidableEq

-- A band and its tiers as they are stored.
structure Band where
  label    : String
  rateMode : RateMode
  tiers    : List Tier
deriving DecidableEq

def Band.row (item : ℕ) (effectiveFrom : Date) (band : Band) (sortOrder : ℕ) : RateBand where
  item
  label         := band.label
  sortOrder
  rateMode      := band.rateMode
  effectiveFrom
  effectiveTo   := none

def Tier.row (band : ℕ) (tier : Tier) (sortOrder : ℕ) : RateTier where
  band
  label  := tier.label
  amount := tier.amount
  sortOrder

-- _validate_band_spec: the band that a specification which is accepted stands for.
def validateBandSpec (spec : BandSpec) : Except BandingError Band :=
  let label := strip spec.label
  match spec.rateMode with
  | none => .error <| .rateMode label
  | some .flat =>
    match spec.flatAmount with
    | none => .error <| .flatAmountMissing label
    | some flatAmount =>
      if spec.minAmount.isSome || spec.maxAmount.isSome || !spec.tiers.isEmpty then
        .error <| .flatAmountOnly label
      else .ok ⟨label, .flat flatAmount, []⟩
  | some .range =>
    match spec.minAmount, spec.maxAmount with
    | some minAmount, some maxAmount =>
      if maxAmount.val.units < minAmount.val.units then .error <| .minAboveMax label
      else if spec.flatAmount.isSome || !spec.tiers.isEmpty then .error <| .boundsOnly label
      else .ok ⟨label, .range minAmount maxAmount, []⟩
    | _, _ => .error <| .boundsMissing label
  | some .tiered =>
    if spec.tiers.length < 2 then .error <| .tooFewTiers label
    else if ¬(spec.tiers.map fun t => strip t.label).Nodup then .error <| .tierLabelsNotUnique label
    else
      match spec.tiers.mapM fun t => t.amount.map (⟨strip t.label, ·⟩) with
      | none => .error <| .tierAmountMissing label
      | some tiers =>
        if spec.flatAmount.isSome || spec.minAmount.isSome || spec.maxAmount.isSome then
          .error <| .tiersOnly label
        else .ok ⟨label, .tiered, tiers⟩

def validateBands (specs : List BandSpec) : Except BandingError (List Band) :=
  if ¬(specs.map fun spec => strip spec.label).Nodup then .error .labelsNotUnique
  else specs.mapM validateBandSpec

-- The open bands of the item, in the order of their table.
def openBands (s : Db) (item : ℕ) : List (Loaded RateBand) :=
  (s.table .rateBand).filter (fun _ b => b.item = item ∧ b.effectiveTo = none)
    |>.map (fun b => ⟨b.1, b.2⟩)
    |>.insertionSort fun x y => x.row.sortOrder < y.row.sortOrder ∨
        (x.row.sortOrder = y.row.sortOrder ∧ x.row.label ≤ y.row.label)

-- A number on its way into a SMALLINT column.
def storeSmall (n : ℕ) : Service ℕ :=
  if n ≤ 32767 then pure n else abort .dataError

def createTier (band : ℕ) (tier : Tier) (sortOrder : ℕ) : Service ℕ := do
  let sortOrder ← storeSmall sortOrder
  create .rateTier (tier.row band sortOrder)

def createBand (item : ℕ) (effectiveFrom : Date) (band : Band) (sortOrder : ℕ) : Service ℕ := do
  let sortOrder ← storeSmall sortOrder
  let k ← create .rateBand (band.row item effectiveFrom sortOrder)
  band.tiers.zipIdx.forM fun (tier, j) => do
    let _ ← createTier k tier j
  return k

def replaceRateBands (today : Date) (item : ℕ) (specs : List BandSpec) (effectiveFrom : Option Date) :
    Service (List ℕ) := do
  let effectiveFrom := effectiveFrom.getD today
  match validateBands specs with
  | .error e => refuse <| .banding e
  | .ok bands =>
    let bandsToClose ← select (fun s => openBands s item) []
    bandsToClose.forM fun band =>
      close .rateBand band.id (fun b => { b with effectiveTo := some effectiveFrom })
        ⟨fun _ => List.nil_subset _, fun _ => rfl⟩
    bands.zipIdx.foldlM (fun created (band, i) =>
      return created ++ [← createBand item effectiveFrom band i]) []

end ACRev360
