import ACRev360.Theorems.Coverage

namespace ACRev360

open Relational Relational.Database

variable {s t : Db} {b pk : ℕ} {today : Date} {e : LineEntry}

section Prices

-- What one of a charge costs: the amount of its band, or the rate in force.
def unitPrice (s : Db) (e : LineEntry) : Option ℚ :=
  if s.hasActiveBands e.item.id then
    match e.rateBand.map (bandAmount e) with
    | some (.ok (unitAmount, _)) => some unitAmount
    | _ => none
  else s.currentRate e.item.id |>.map (·.row.rateAmount.val.toRat)

theorem priceOf_eq_map :
    priceOf s e = (unitPrice s e).map fun unit => Decimal.round (unit * e.quantity) := by
  unfold priceOf unitPrice
  split
  case isTrue =>
    cases e.rateBand.map (bandAmount e) with
    | none => rfl
    | some out => cases out <;> rfl
  case isFalse =>
    rw [Option.map_map]
    rfl

-- What the fields of AddLineSerializer let through has two decimals.
structure LineEntry.Validated (e : LineEntry) : Prop where
  quantity : ∃ q : Quantity, e.quantity = q.toRat ∧ 0 < e.quantity
  override : ∀ amount ∈ e.amountOverride, ∃ m : Money, amount = m.toRat

theorem bandAmount_money (he : e.Validated) {band : Loaded RateBand} {amount : ℚ} {tier : Option ℕ}
    (h : bandAmount e band = .ok (amount, tier)) : ∃ m : Money, amount = m.toRat := by
  unfold bandAmount at h
  split at h
  case h_1 flatAmount _ =>
    cases h
    exact ⟨flatAmount, rfl⟩
  case h_2 =>
    split at h
    case h_1 => contradiction
    case h_2 amountOverride ho =>
      split at h
      case isTrue =>
        cases h
        exact he.override amount ho
      case isFalse => contradiction
  case h_3 =>
    split at h
    case h_1 => contradiction
    case h_2 rateTier _ =>
      split at h
      case isTrue => contradiction
      case isFalse =>
        cases h
        exact ⟨rateTier.row.amount, rfl⟩

theorem unitPrice_money (he : e.Validated) {unit : ℚ} (h : unitPrice s e = some unit) :
    0 ≤ unit ∧ ∃ m : Money, unit = m.toRat := by
  unfold unitPrice at h
  split at h
  case isTrue =>
    split at h
    case h_1 hband =>
      have ⟨_, _, hamount⟩ := Option.map_eq_some_iff.mp hband
      cases h
      exact ⟨bandAmount_nonneg hamount, bandAmount_money he hamount⟩
    case h_2 => contradiction
  case isFalse =>
    have ⟨rate, _, hunit⟩ := Option.map_eq_some_iff.mp h
    cases hunit
    exact ⟨Numeric.toRat_nonneg_iff.mpr rate.row.rateAmount.property, rate.row.rateAmount, rfl⟩

-- A price has so few digits that arithmetic keeps all of them, also when an amount is added.
theorem fits_kobo_add {m : Money} {q : Quantity} {z : ℤ} (hp : 0 ≤ m.toRat * q.toRat) (hz : 0 ≤ z)
    (hlt : z < 10 ^ 15) : Decimal.Fits (kobo z + m.toRat * q.toRat) := by
  have hm : |m.units| < 10 ^ 14 := by
    rw [Int.abs_eq_natAbs]
    exact_mod_cast m.bound
  have hq : |q.units| < 10 ^ 10 := by
    rw [Int.abs_eq_natAbs]
    exact_mod_cast q.bound
  have hmul : m.units * q.units < 10 ^ 24 := by
    calc m.units * q.units ≤ |m.units| * |q.units| := (le_abs_self _).trans_eq (abs_mul _ _)
      _ < 10 ^ 14 * 10 ^ 10 := mul_lt_mul'' hm hq (abs_nonneg _) (abs_nonneg _)
      _ = 10 ^ 24 := by norm_num
  have hsum : kobo z + m.toRat * q.toRat = (z * 100 + m.units * q.units : ℤ) / 10 ^ 4 := by
    rw [kobo, Numeric.toRat, Numeric.toRat]
    push_cast
    ring
  have hnonneg : 0 ≤ m.units * q.units := by
    have : m.toRat * q.toRat = (m.units * q.units : ℤ) / 10 ^ 4 := by
      rw [Numeric.toRat, Numeric.toRat]
      push_cast
      ring
    rw [this, le_div_iff₀ (by positivity), zero_mul] at hp
    exact_mod_cast hp
  obtain ⟨k, hk⟩ := Int.eq_ofNat_of_zero_le (show 0 ≤ z * 100 + m.units * q.units by omega)
  refine ⟨4, k, by norm_num, ?_, by rw [hsum, hk]; rfl⟩
  rw [Decimal.precision]
  omega

theorem LineEntry.Validated.fits (he : e.Validated) {unit : ℚ} (h : unitPrice s e = some unit) {z : ℤ}
    (hz : 0 ≤ z) (hlt : z < 10 ^ 15) : Decimal.Fits (kobo z + unit * e.quantity) := by
  have ⟨hunit, m, hm⟩ := unitPrice_money he h
  have ⟨q, hq, hpos⟩ := he.quantity
  have := mul_nonneg hunit hpos.le
  subst hm
  rw [hq] at this ⊢
  exact fits_kobo_add this hz hlt

theorem priceOf_exact (he : e.Validated) {p : ℚ} (h : priceOf s e = some p) :
    ∃ unit, unitPrice s e = some unit ∧ p = unit * e.quantity ∧ 0 ≤ p := by
  rw [priceOf_eq_map] at h
  have ⟨unit, hunit, hround⟩ := Option.map_eq_some_iff.mp h
  have hfits := he.fits hunit le_rfl (by norm_num)
  rw [kobo_zero, zero_add] at hfits
  rw [hfits.round_eq] at hround
  exact ⟨unit, hunit, hround.symm, hround ▸ hfits.nonneg⟩

-- The line comes to its assessment, the price and its arrears.
theorem Merged.amount_eq (hn : Nonneg s) (he : e.Validated) {line : Loaded BillLine} {amount : ℤ}
    (hl : (s.table .line).get line.id = some line.row) (h : Merged s b e line amount) :
    ∃ a unit, (s.table .assessment).get line.row.assessment = some a ∧ unitPrice s e = some unit ∧
      amount = a.amount.units + line.row.arrearsAmount.units + cents (unit * e.quantity) := by
  have ⟨a, p, ha, hp, hamount⟩ := h.comes
  have ⟨unit, hunit, hprice, hpos⟩ := priceOf_exact he hp
  have ha₀ := hn.assessment ha
  have hl₀ := (hn.line hl).2
  have ha₁ := a.amount.bound
  have hl₁ := line.row.arrearsAmount.bound
  refine ⟨a, unit, ha, hunit, ?_⟩
  have hcurrent := (he.fits hunit ha₀ (by omega)).round_eq
  have htotal := (he.fits hunit (add_nonneg ha₀ hl₀) (by omega)).round_eq
  rw [← hprice] at hcurrent htotal ⊢
  rw [hamount, Money.toRat_eq_kobo, Money.toRat_eq_kobo, hcurrent, add_right_comm, kobo_add, htotal,
    cents_kobo_add (add_nonneg ha₀ hl₀) hpos]

end Prices

-- What a charge does to its bill: the total grows by the price, rounded to two decimals, the arrears
-- stay, and so do the lines of the other bills.
structure Charges (e : LineEntry) (b : ℕ) (s t : Db) : Prop where
  bill  : ∃ unit r r', unitPrice s e = some unit ∧
    (s.table .bill).get b = some r ∧ (t.table .bill).get b = some r' ∧
    r'.totalAmount.units = r.totalAmount.units + cents (unit * e.quantity) ∧
    r'.arrearsAmount = r.arrearsAmount
  lines : LinesOff b s t

-- The line that a charge is merged into, if there is one, charges its assessment and its arrears.
def Backed (s : Db) (bill : ℕ) (e : LineEntry) : Prop :=
  ∀ ⦃line a⦄, matchingLine s bill e.item.id (e.rateBand.map (·.id)) (e.rateTier.map (·.id)) = some line →
    (s.table .assessment).get line.row.assessment = some a →
      line.row.lineAmount.units = a.amount.units + line.row.arrearsAmount.units

theorem Relined.totals_eq (h : Relined today b s t) (hs : Totals s) :
    ∃ r r', (s.table .bill).get b = some r ∧ (t.table .bill).get b = some r' ∧
      r.totalAmount.units = s.lineTotal b ∧ r'.totalAmount.units = t.lineTotal b ∧
      r.arrearsAmount.units = s.arrearsTotal b ∧ r'.arrearsAmount.units = t.arrearsTotal b := by
  have ⟨r, hr, hreckoned⟩ := h.bill
  have ⟨_, _, total, arrears, hr₀, _, htotal, harrears, hr'⟩ := hreckoned.row
  exact ⟨r, _, hr, hr', (hs hr).1, htotal, (hs hr).2, harrears⟩

theorem post_addBillLine_charges {bill : Loaded Bill} {actor : ℕ} (ht : Tallied s) (hn : Nonneg s)
    (he : e.Validated) (hr : (s.table .bill).get bill.id = some bill.row) :
    Prog.Post (addBillLine today bill actor e) s <| Prog.OnReturn fun _ t =>
      Charges e bill.id s t ↔ Backed s bill.id e := by
  refine .imp (post_addBillLine hr) fun _ t hpost => ?_
  obtain ⟨hrelined, hcases⟩ := hpost
  obtain ⟨r, r', hr, hr', hold, hnew, harrears, harrears'⟩ := hrelined.totals_eq ht.totals
  rcases hcases with ⟨line, current, amount, hline, hbill, hmerged, hlines⟩ | ⟨k, l, hk, hadded, hnone, hlines⟩
  case inl =>
    replace hmerged := hmerged ht.assessed
    obtain ⟨a, unit, ha, hunit, hamount⟩ := hmerged.amount_eq hn he hline
    have htotal : r'.totalAmount.units =
        r.totalAmount.units + (amount.units - line.row.lineAmount.units) := by
      rw [hnew, hold, Db.lineTotal, Db.lineTotal, hlines, Table.sum_modify hline, if_pos hbill, if_pos hbill]
    have hsame : r'.arrearsAmount = r.arrearsAmount := by
      refine Numeric.ext ?_
      rw [harrears, harrears', Db.arrearsTotal, Db.arrearsTotal, hlines]
      exact Table.sum_modify_same fun l _ => rfl
    constructor
    · rintro ⟨⟨unit', r₀, r₁, hunit', hr₀, hr₁, hgrows, _⟩, _⟩ line' a' hfound ha'
      rw [hunit, Option.some.injEq] at hunit'
      rw [hr, Option.some.injEq] at hr₀
      rw [hr', Option.some.injEq] at hr₁
      rw [hmerged.found, Option.some.injEq] at hfound
      subst hunit' hr₀ hr₁ hfound
      rw [ha, Option.some.injEq] at ha'
      subst ha'
      omega
    · intro hbacked
      have := hbacked hmerged.found ha
      exact ⟨⟨unit, r, r', hunit, hr, hr', by omega, hsame⟩, hrelined.lines⟩
  case inr =>
    obtain ⟨p, hp, hcents⟩ := hadded.comes
    obtain ⟨unit, hunit, hprice, _⟩ := priceOf_exact he hp
    refine iff_of_true ⟨⟨unit, r, r', hunit, hr, hr', ?_, ?_⟩, hrelined.lines⟩ fun line a hline => ?_
    · rw [hnew, Db.lineTotal, hlines, Table.sum_insert hk, if_pos hadded.bill, hcents, hprice, hold, Db.lineTotal]
      omega
    · refine Numeric.ext ?_
      rw [harrears', Db.arrearsTotal, hlines, Table.sum_insert hk, hadded.arrears, harrears, Db.arrearsTotal]
      simp
    · simp [hnone ht.assessed] at hline

theorem Sample.entry_validated (item : ℕ) : (Sample.entry item).Validated where
  quantity := ⟨⟨100, by norm_num⟩, by norm_num [Sample.entry, Numeric.toRat], by norm_num [Sample.entry]⟩
  override := by simp [Sample.entry]

-- A charge adds exactly its price to the bill if and only if the line it is merged into, where there
-- is one, charges its assessment and its arrears.
theorem addLine_charges_iff {ok : Db → Request → Prop} (hs : s.Reachable ok) (he : e.Validated)
    {actor line : ℕ} {n m : Name → ℕ} (hc : (addLine today pk actor e).call s n = (.ok line, t, m)) :
    Charges e pk s t ↔ Backed s pk e := by
  have hpost : Prog.Post (addLine today pk actor e) s <| Prog.OnReturn fun _ t =>
      Charges e pk s t ↔ Backed s pk e := by
    refine .bind <| post_getObject (fun bill hbill _ => ?_) fun _ => trivial
    exact post_addBillLine_charges hs.tallied hs.nonneg he hbill
  exact (Prog.call_ok hpost hc).1

set_option maxRecDepth 20000 in
theorem sample_charges : ∃ t : Db, Charges (Sample.entry 1) 1 Sample.issued.1 t := by
  have hc := Sample.call_returns (p := addLine Sample.day 1 1 (Sample.entry 1)) (s := Sample.issued)
    (a := 1) (by decide +kernel)
  have hs : Db.Reachable (fun _ _ => True) Sample.issued.1 := Sample.reachable_issued trivial
  refine ⟨_, (addLine_charges_iff hs (Sample.entry_validated 1) hc).mpr fun line a hline ha => ?_⟩
  have hall : (matchingLine Sample.issued.1 1 1 none none).all fun line =>
      ((Sample.issued.1.table .assessment).get line.row.assessment).all fun a =>
        line.row.lineAmount.units = a.amount.units + line.row.arrearsAmount.units := by decide +kernel
  have hline := (Option.all_eq_true _ _).mp hall line hline
  exact of_decide_eq_true <| (Option.all_eq_true _ _).mp hline a ha

set_option maxRecDepth 20000 in
-- The line of the consolidated bill is for arrears only, but the charge is added to all that the prior
-- bill charged: a charge of 20.00 makes the bill grow by 40.00.
theorem not_charges_of_consolidated : ∃ (s t : Db) (r : Bill) (pk line : ℕ) (n m : Name → ℕ),
    s.Reachable (fun _ _ => True) ∧ (s.table .bill).get pk = some r ∧ r.status.terminal = false ∧
      (Sample.entry 1).Validated ∧
      (addLine Sample.day pk 1 (Sample.entry 1)).call s n = (.ok line, t, m) ∧
      ¬Charges (Sample.entry 1) pk s t := by
  have hc := Sample.call_returns (p := addLine Sample.day 2 1 (Sample.entry 1)) (s := Sample.consolidated)
    (a := 2) (by decide +kernel)
  have hr : ((Sample.consolidated.1.table .bill).get 2).any fun r =>
      r.status.terminal = false ∧ r.totalAmount.units = 1000 := by decide +kernel
  have hr' : ((((addLine Sample.day 2 1 (Sample.entry 1)).call Sample.consolidated.1
      Sample.consolidated.2).2.1.table .bill).get 2).map (·.totalAmount.units) = some 5000 := by
    decide +kernel
  have hunit : unitPrice Sample.consolidated.1 (Sample.entry 1) = some 20 := by decide +kernel
  have ⟨r, hget, hany⟩ := Option.any_eq_true _ _ |>.mp hr
  have ⟨hlive, htotal⟩ := of_decide_eq_true hany
  refine ⟨Sample.consolidated.1, _, r, 2, _, _, _, ?_, hget, hlive, Sample.entry_validated 1, hc, fun h => ?_⟩
  · exact Sample.reachable_serve (Sample.reachable_serve (Sample.reachable_issued trivial) trivial) trivial
  · have ⟨unit, r₀, r₁, hunit', hr₀, hr₁, hgrows, _⟩ := h.bill
    rw [hunit, Option.some.injEq] at hunit'
    rw [hget, Option.some.injEq] at hr₀
    rw [hr₁, Option.map_some, Option.some.injEq] at hr'
    subst hunit' hr₀
    have hcents : cents (20 * (Sample.entry 1).quantity) = 2000 := by decide +kernel
    omega

end ACRev360
