import ACRev360.Library.Grouping
import ACRev360.Theorems.Settlements

namespace ACRev360

open Relational Relational.Database

section Commission

variable {x : ℤ} {rate : Percentage} {xs : List ℤ}

-- The commission in kobo on `x` kobo.
def shareOf (x : ℤ) (rate : Percentage) : ℤ :=
  roundHalfEven (x * rate.units / 10 ^ 4)

theorem sum_kobo : (xs.map kobo).sum = kobo xs.sum := by
  induction xs with
  | nil => simp
  | cons x xs hi => rw [List.map_cons, List.sum_cons, List.sum_cons, hi, kobo_add]

-- A commission is rounded once, where its amount has no more digits than a column.
theorem commissionOf_kobo (hx : x.natAbs < 10 ^ 14) : commissionOf (kobo x) rate = some (kobo (shareOf x rate)) := by
  have hdigits : (x * rate.units).natAbs < 10 ^ 19 := by
    rw [Int.natAbs_mul]
    calc x.natAbs * rate.units.natAbs < 10 ^ 14 * 10 ^ 5 := Nat.mul_lt_mul'' hx rate.bound
      _ = 10 ^ 19 := by norm_num
  have hfits : (x * rate.units).natAbs < 10 ^ Decimal.precision := hdigits.trans (by norm_num [Decimal.precision])
  have hproduct : Decimal.round (kobo x * rate.toRat) = (x * rate.units : ℤ) / 10 ^ 4 := by
    rw [← Decimal.round_of_digits (d := 4) (by norm_num) hfits, kobo, Numeric.toRat]
    push_cast
    congr 1
    ring
  have hquotient : Decimal.round (((x * rate.units : ℤ) : ℚ) / 10 ^ 4 / 100) = (x * rate.units : ℤ) / 10 ^ 6 := by
    rw [← Decimal.round_of_digits (d := 6) (by norm_num) hfits]
    congr 1
    ring
  have hround : ((x * rate.units : ℤ) : ℚ) / 10 ^ 6 * 10 ^ 2 = x * rate.units / 10 ^ 4 := by
    push_cast
    ring
  have hshare : (shareOf x rate).natAbs < 10 ^ Decimal.precision := by
    have hq : |(x * rate.units : ℚ)| < 10 ^ 19 := by
      have hcast : ((x * rate.units).natAbs : ℚ) < 10 ^ 19 := by exact_mod_cast hdigits
      rwa [Nat.cast_natAbs, Int.cast_abs, Int.cast_mul] at hcast
    have hz : |(shareOf x rate : ℚ)| < 10 ^ 28 := by
      have hround := abs_le.mp <| abs_roundHalfEven_sub_le (x * rate.units / 10 ^ 4)
      rw [abs_lt] at hq ⊢
      rw [shareOf]
      constructor <;> linarith
    have hcast : ((shareOf x rate).natAbs : ℚ) < 10 ^ 28 := by rwa [Nat.cast_natAbs, Int.cast_abs]
    exact_mod_cast hcast
  rw [commissionOf, hproduct, hquotient, Decimal.quantize, hround]
  exact if_pos hshare

theorem abs_shareOf_sub_le (x : ℤ) (rate : Percentage) :
    |kobo (shareOf x rate) - kobo x * rate.toRat / 100| ≤ 0.005 := by
  have hround := abs_roundHalfEven_sub_le (x * rate.units / 10 ^ 4)
  have hkobo : kobo (shareOf x rate) - kobo x * rate.toRat / 100 =
      (shareOf x rate - x * rate.units / 10 ^ 4) / 100 := by
    rw [kobo, kobo, Numeric.toRat]
    ring
  rw [hkobo, abs_div, abs_of_pos (by norm_num : (0 : ℚ) < 100)]
  rw [shareOf]
  linarith

-- The shares of several amounts and the share of their sum are roundings of what adds up.
theorem abs_sum_shares_sub_le (xs : List ℤ) (rate : Percentage) :
    |(xs.map fun x => kobo (shareOf x rate)).sum - kobo (shareOf xs.sum rate)| ≤ 0.005 * (xs.length + 1) := by
  have hsum : |(xs.map fun x => kobo (shareOf x rate)).sum - kobo xs.sum * rate.toRat / 100| ≤ 0.005 * xs.length := by
    induction xs with
    | nil => simp
    | cons x xs hi =>
      have hx := abs_shareOf_sub_le x rate
      rw [List.map_cons, List.sum_cons, List.sum_cons, ← kobo_add, List.length_cons]
      push_cast
      rw [abs_le] at hx hi ⊢
      constructor <;> linarith
  have hshare := abs_shareOf_sub_le xs.sum rate
  rw [abs_le] at hsum hshare ⊢
  constructor <;> linarith

end Commission

section Rows

variable {s t : Db} {council consultant actor : ℕ} {periodStart periodEnd : Date}
variable {settlement : CommissionSettlement}

-- The payments that a settlement counts, and the bills that its drill-down shows.
def countedPayments (s : Db) (settlement : CommissionSettlement) : List (ℕ × Payment) :=
  (s.table .payment).filter <|
    counts s settlement.council settlement.consultant settlement.periodStart (settlement.periodEnd + 1)

def shownBills (s : Db) (settlement : CommissionSettlement) : List ((ℕ × Bill) × Option Payer × ℤ) :=
  settlementBills s settlement settlement.periodStart (settlement.periodEnd + 1)

def collectedOf (s : Db) (settlement : CommissionSettlement) (bill : ℕ) : ℤ :=
  (((countedPayments s settlement).filter (·.2.bill = bill)).map (·.2.amount.units)).sum

-- Of a bill that belongs to the consultant, the settlement counts what the drill-down finds.
theorem paidInPeriod_eq {bill : ℕ} {b : Bill} (hb : (s.table .bill).get bill = some b)
    (hcouncil : b.council = settlement.council) (hconsultant : consultantOf s bill = some settlement.consultant) :
    paidInPeriod s settlement.council settlement.periodStart (settlement.periodEnd + 1) bill =
      (countedPayments s settlement).filter (·.2.bill = bill) := by
  rw [paidInPeriod, countedPayments, Table.filter, Table.filter, List.filter_filter]
  refine List.filter_congr fun r _ => ?_
  by_cases hbill : r.2.bill = bill
  case neg => simp [hbill]
  case pos => simp [counts, hbill, hb, hcouncil, hconsultant]

theorem mem_shownBills {b : (ℕ × Bill) × Option Payer × ℤ} (h : b ∈ shownBills s settlement) :
    (∃ p ∈ countedPayments s settlement, p.2.bill = b.1.1) ∧ b.2.2 = collectedOf s settlement b.1.1 := by
  obtain ⟨⟨k, bill⟩, hmem, rfl⟩ := List.mem_map.mp h
  obtain ⟨hbill, hshown⟩ := Table.mem_filter_iff.mp hmem
  simp only [Bool.and_eq_true, decide_eq_true_eq, Bool.not_eq_true', List.isEmpty_eq_false_iff] at hshown
  obtain ⟨⟨hcouncil, hconsultant⟩, hpaid⟩ := hshown
  rw [paidInPeriod_eq hbill hcouncil hconsultant] at hpaid
  obtain ⟨p, hp⟩ := List.exists_mem_of_ne_nil _ hpaid
  obtain ⟨hp, hpbill⟩ := List.mem_filter.mp hp
  refine ⟨⟨p, hp, of_decide_eq_true hpbill⟩, ?_⟩
  rw [collectedOf, ← paidInPeriod_eq hbill hcouncil hconsultant]

theorem shown_of_counted {p : ℕ × Payment} (h : p ∈ countedPayments s settlement) :
    p.2.bill ∈ (shownBills s settlement).map (·.1.1) := by
  have hcounts := (Table.mem_filter_iff.mp h).2
  simp only [counts, Bool.and_eq_true, decide_eq_true_eq] at hcounts
  obtain ⟨⟨⟨⟨⟨_, hbill⟩, hconsultant⟩, _⟩, _⟩, _⟩ := hcounts
  obtain ⟨bill, hbill, hcouncil⟩ := Option.any_eq_true _ _ |>.mp hbill
  have hcouncil := of_decide_eq_true hcouncil
  refine List.mem_map.mpr ⟨_, List.mem_map.mpr ⟨(p.2.bill, bill), Table.mem_filter_iff.mpr ⟨hbill, ?_⟩, rfl⟩, rfl⟩
  have hpaid : p ∈ paidInPeriod s settlement.council settlement.periodStart (settlement.periodEnd + 1) p.2.bill := by
    rw [paidInPeriod_eq hbill hcouncil hconsultant]
    exact List.mem_filter.mpr ⟨h, decide_eq_true rfl⟩
  simp [hcouncil, hconsultant, List.ne_nil_of_mem hpaid]

theorem shownBills_nodup : ((shownBills s settlement).map (·.1.1)).Nodup := by
  rw [shownBills, settlementBills, List.map_map]
  exact Table.keys_nodup

theorem sum_countedPayments : ((countedPayments s settlement).map (·.2.amount.units)).sum =
    grossCollections s settlement.council settlement.consultant settlement.periodStart (settlement.periodEnd + 1) :=
  Table.sum_filter (f := fun _ (p : Payment) => p.amount.units)

-- Each payment is found with its bill.
theorem sum_collected : ((shownBills s settlement).map (·.2.2)).sum =
    grossCollections s settlement.council settlement.consultant settlement.periodStart (settlement.periodEnd + 1) := by
  have hcollected : (shownBills s settlement).map (·.2.2) =
      ((shownBills s settlement).map (·.1.1)).map (collectedOf s settlement) := by
    rw [List.map_map]
    exact List.map_congr_left fun b hb => (mem_shownBills hb).2
  rw [hcollected, ← sum_countedPayments]
  exact sum_fibers shownBills_nodup fun p hp => shown_of_counted hp

theorem collectedOf_bounds {bill : ℕ} (hpos : ∀ {k p}, (s.table .payment).get k = some p → 0 ≤ p.amount.units) :
    0 ≤ collectedOf s settlement bill ∧ collectedOf s settlement bill ≤
      grossCollections s settlement.council settlement.consultant settlement.periodStart (settlement.periodEnd + 1) := by
  have hamount : ∀ p ∈ countedPayments s settlement, 0 ≤ p.2.amount.units :=
    fun p hp => hpos (Table.mem_filter_iff.mp hp).1
  constructor
  case left =>
    refine List.sum_nonneg <| List.forall_mem_map.mpr fun p hp => ?_
    exact hamount p (List.mem_filter.mp hp).1
  case right =>
    rw [← sum_countedPayments]
    refine List.Sublist.sum_le_sum (List.filter_sublist.map _) ?_
    exact List.forall_mem_map.mpr hamount

-- The rows agree with the settlement: its bills are those with a payment that it counts, each in one row,
-- and the roundings of their commissions come to at most half a kobo a row and one for the settlement.
structure Agrees (s : Db) (settlement : CommissionSettlement) (rows : List SettlementBillRow) : Prop where
  bills      : ∀ bill, bill ∈ rows.map (·.billId) ↔ ∃ p ∈ countedPayments s settlement, p.2.bill = bill
  once       : (rows.map (·.billId)).Nodup
  collected  : (rows.map (·.collected)).sum = settlement.grossCollections.toRat
  rounded    : ∀ row ∈ rows, row.commission =
    roundHalfEven (row.collected * settlement.commissionRate.toRat / 100 * 100) / 100
  commission : |(rows.map (·.commission)).sum - settlement.commissionAmount.toRat| ≤ 0.005 * (rows.length + 1)

def rowOf (settlement : CommissionSettlement) (b : (ℕ × Bill) × Option Payer × ℤ) : SettlementBillRow where
  billId     := b.1.1
  billRef    := b.1.2.billRef
  payerName  := b.2.1.elim "" (·.fullName)
  collected  := kobo b.2.2
  commission := kobo (shareOf b.2.2 settlement.commissionRate)
  status     := settlement.status

theorem mapM_some {α β : Type} {f : α → Option β} {g : α → β} {l : List α} (h : ∀ a ∈ l, f a = some (g a)) :
    l.mapM f = some (l.map g) := by
  induction l with
  | nil => rfl
  | cons a l hi =>
    rw [List.forall_mem_cons] at h
    rw [List.mapM_cons, h.1, hi h.2]
    rfl

theorem post_settlementBillRows (hpos : ∀ {k p}, (s.table .payment).get k = some p → 0 ≤ p.amount.units)
    (hgross : settlement.grossCollections.units = grossCollections s settlement.council settlement.consultant
      settlement.periodStart (settlement.periodEnd + 1))
    (hdated : settlement.periodStart < Date.max ∧ settlement.periodEnd < Date.max) :
    Prog.Post (settlementBillRows settlement) s fun out t =>
      out = .ok ((shownBills s settlement).map (rowOf settlement)) ∧ t = s := by
  have hspan {day : Date} (h : day < Date.max) : dateSpanBounds day = return (day, day + 1) := if_pos h
  have hrows : (shownBills s settlement).mapM (settlementBillRow settlement) =
      some ((shownBills s settlement).map (rowOf settlement)) := by
    refine mapM_some fun b hb => ?_
    have hbounds := @collectedOf_bounds _ settlement b.1.1 hpos
    have hsmall : b.2.2.natAbs < 10 ^ 14 := by
      have hbound := settlement.grossCollections.bound
      rw [(mem_shownBills hb).2]
      omega
    simp only [settlementBillRow, commissionOf_kobo hsmall]
    rfl
  rw [settlementBillRows, hspan hdated.1, hspan hdated.2]
  refine .bind <| .ret <| .bind <| .ret <| .bind <| post_select ?_
  simp only
  rw [← shownBills, hrows]
  exact .ret ⟨rfl, rfl⟩

theorem Computed.gross_eq (h : Computed s council periodStart periodEnd settlement)
    (ht : Database.Only [Name.settlement] s t) : settlement.grossCollections.units =
      grossCollections t settlement.council settlement.consultant settlement.periodStart (settlement.periodEnd + 1) := by
  rw [h.gross, h.isFor.council, h.isFor.periodStart, h.isFor.periodEnd, grossCollections_congr ht]

theorem agrees_of_share {commission : ℚ} (hgross : settlement.grossCollections.units =
      grossCollections s settlement.council settlement.consultant settlement.periodStart (settlement.periodEnd + 1))
    (hcommission : commissionOf (kobo settlement.grossCollections.units) settlement.commissionRate = some commission)
    (hshare : settlement.commissionAmount.units = cents commission) :
    Agrees s settlement ((shownBills s settlement).map (rowOf settlement)) := by
  have hids : ((shownBills s settlement).map (rowOf settlement)).map (·.billId) =
      (shownBills s settlement).map (·.1.1) := List.map_map
  have hamount : settlement.commissionAmount.toRat =
      kobo (shareOf settlement.grossCollections.units settlement.commissionRate) := by
    rw [commissionOf_kobo settlement.grossCollections.bound, Option.some.injEq] at hcommission
    rw [Numeric.toRat, hshare, ← hcommission, cents_kobo, kobo]
    norm_num
  have hsum : settlement.grossCollections.units = ((shownBills s settlement).map (·.2.2)).sum :=
    hgross.trans sum_collected.symm
  constructor
  case bills =>
    rw [hids]
    refine fun bill => ⟨fun h => ?_, fun h => ?_⟩
    · obtain ⟨b, hb, rfl⟩ := List.mem_map.mp h
      exact (mem_shownBills hb).1
    · obtain ⟨p, hp, hbill⟩ := h
      exact hbill ▸ shown_of_counted hp
  case once => exact hids ▸ shownBills_nodup
  case collected =>
    have hkobo : ((shownBills s settlement).map (rowOf settlement)).map (·.collected) =
        ((shownBills s settlement).map (·.2.2)).map kobo := by
      rw [List.map_map, List.map_map]
      rfl
    rw [hkobo, sum_kobo, ← hsum, Numeric.toRat, kobo]
    norm_num
  case rounded =>
    refine List.forall_mem_map.mpr fun b _ => ?_
    have hexact : kobo b.2.2 * settlement.commissionRate.toRat / 100 * 100 =
        b.2.2 * settlement.commissionRate.units / 10 ^ 4 := by
      rw [kobo, Numeric.toRat]
      ring
    simp only [rowOf, hexact]
    rfl
  case commission =>
    have hbound := abs_sum_shares_sub_le ((shownBills s settlement).map (·.2.2)) settlement.commissionRate
    rw [← hsum, List.map_map, List.length_map] at hbound
    rw [hamount, List.map_map, List.length_map]
    exact hbound

end Rows

-- Right after a computation, the drill-down into each settlement of it agrees with the settlement.
theorem drillDown_agrees {s t : Db} {n m : Name → ℕ} {council actor : ℕ} {periodStart periodEnd : Date}
    {results : List ℕ} (hpos : ∀ {k p}, (s.table .payment).get k = some p → 0 ≤ p.amount.units)
    (h : (computeSettlements council periodStart periodEnd actor).call s n = (.ok results, t, m)) :
    ∀ k ∈ results, ∃ settlement, (t.table .settlement).get k = some settlement ∧
      ∃ rows m', (settlementBillRows settlement).call t m = (.ok rows, t, m') ∧ Agrees t settlement rows := by
  obtain ⟨hsettled, hvalid⟩ := Prog.call_ok post_computeSettlements h
  have hsettled : Settled s council periodStart periodEnd results t := hsettled
  intro k hk
  obtain ⟨settlement, hget, hcomputed, -⟩ := hsettled.computed k hk
  have hpos : ∀ {k p}, (t.table .payment).get k = some p → 0 ≤ p.amount.units := by
    rwa [hsettled.only .payment (by simp)]
  have hgross := hcomputed.gross_eq hsettled.only
  obtain ⟨commission, hcommission, hshare⟩ := hcomputed.share
  have hdated : settlement.periodStart < Date.max ∧ settlement.periodEnd < Date.max := by
    rw [hcomputed.isFor.periodStart, hcomputed.isFor.periodEnd]
    exact hcomputed.dated
  obtain ⟨m', hcall⟩ := Prog.call_of_reads (n := m) (post_settlementBillRows hpos hgross hdated) hvalid
  exact ⟨settlement, hget, _, m', hcall, agrees_of_share hgross hcommission hshare⟩

namespace Sample

set_option maxRecDepth 20000 in
theorem computed_call : ((computeSettlements 1 day day 1).call collected.1 collected.2).1.toOption = some [1] := by
  decide +kernel

end Sample

set_option maxRecDepth 20000 in
theorem sample_agrees : ∃ settlement, (Sample.computed.1.table .settlement).get 1 = some settlement ∧
    ∃ rows m', (settlementBillRows settlement).call Sample.computed.1 Sample.computed.2 =
      (.ok rows, Sample.computed.1, m') ∧ Agrees Sample.computed.1 settlement rows := by
  have hpos : (Sample.collected.1.table .payment).rows.all fun r => 0 ≤ r.2.amount.units := by decide +kernel
  have hcall : (computeSettlements 1 Sample.day Sample.day 1).call Sample.collected.1 Sample.collected.2 =
      (.ok [1], Sample.computed.1, Sample.computed.2) := Sample.call_returns Sample.computed_call
  refine drillDown_agrees (fun {k p} hp => ?_) hcall 1 (.head _)
  exact of_decide_eq_true <| List.all_eq_true.mp hpos (k, p) <| Table.mem_rows_iff.mpr hp

end ACRev360
