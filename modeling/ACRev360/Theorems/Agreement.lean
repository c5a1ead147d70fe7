import ACRev360.Theorems.Consolidation

namespace ACRev360

open Relational Relational.Database

variable {s t : Db} {b k : ℕ} {today dueDate : Date} {status : BillStatus} {paid : ℚ} {total : ℤ}

section Rounding

def halfKobo : ℚ :=
  1 / 200

-- An amount rounds to so many kobo if it is not more than half a kobo below them.
theorem le_cents_iff {q : ℚ} {z : ℤ} (h : 0 ≤ q) : z ≤ cents q ↔ kobo z ≤ q + halfKobo := by
  rw [cents, roundHalfAway, if_pos (by positivity), Int.le_floor, kobo, halfKobo]
  constructor <;> intro hle <;> linarith

theorem kobo_le_iff {y z : ℤ} : kobo y ≤ kobo z ↔ y ≤ z := by
  rw [kobo, kobo, div_le_div_iff_of_pos_right (by norm_num)]
  exact_mod_cast Iff.rfl

theorem kobo_pos_iff {z : ℤ} : 0 < kobo z ↔ 0 < z := by
  rw [← not_le, ← not_le, ← kobo_zero, kobo_le_iff]

-- What has been paid counts for less than what is stored of it: it is at most half a kobo short of
-- the total, or it is less than half a kobo, and the bill is not overdue.
def RoundsOver (today dueDate : Date) (total : ℤ) (paid : ℚ) : Prop :=
  (0 < total ∧ kobo total ≤ paid + halfKobo ∧ paid < kobo total) ∨
    (today ≤ dueDate ∧ 0 < paid ∧ paid < halfKobo)

theorem statusOf_live {status' : BillStatus} (h : status.terminal = false)
    (h' : status'.terminal = false) {amountPaid totalAmount : ℚ} :
    statusOf today status amountPaid totalAmount dueDate =
      statusOf today status' amountPaid totalAmount dueDate := by
  simp [statusOf, h, h']

-- The status is that of the stored amounts unless the amount paid counts for less than them.
theorem statusOf_cents_iff (hstatus : status.terminal = false) (hpaid : 0 ≤ paid) :
    statusOf today status (kobo (cents paid)) (kobo total) dueDate =
        statusOf today status paid (kobo total) dueDate ↔
      ¬RoundsOver today dueDate total paid := by
  have hcovers : kobo total ≤ kobo (cents paid) ↔ kobo total ≤ paid + halfKobo :=
    kobo_le_iff.trans <| le_cents_iff hpaid
  have hsome : 0 < kobo (cents paid) ↔ halfKobo ≤ paid := by
    rw [kobo_pos_iff, ← Int.add_one_le_iff, le_cents_iff hpaid, kobo, halfKobo]
    constructor <;> intro hle <;> norm_num at * <;> linarith
  have hhalf : 0 < halfKobo := by norm_num [halfKobo]
  simp only [statusOf, hstatus, Bool.false_eq_true, if_false, hcovers, hsome, kobo_pos_iff, RoundsOver]
  by_cases hfull : kobo total ≤ paid ∧ 0 < total
  case pos =>
    have hlarge : halfKobo < kobo total := by
      have : ((1 : ℤ) : ℚ) ≤ total := by exact_mod_cast hfull.2
      rw [kobo, halfKobo]
      norm_num at this
      linarith
    have hle : kobo total ≤ paid + halfKobo := by linarith
    have hmore : halfKobo ≤ paid := by linarith
    simp [hfull, hle, not_lt.mpr hfull.1, not_lt.mpr hmore]
  case neg =>
    by_cases hover : kobo total ≤ paid + halfKobo ∧ 0 < total
    case pos =>
      have hlt : paid < kobo total := not_le.mp fun hle => hfull ⟨hle, hover.2⟩
      simp only [hover, hlt, not_le.mpr hlt, false_and, and_self, if_true, if_false, true_or,
        not_true_eq_false, iff_false]
      repeat' split
      all_goals simp
    case neg =>
      have hnot : ¬(0 < total ∧ kobo total ≤ paid + halfKobo ∧ paid < kobo total) :=
        fun h => hover ⟨h.2.1, h.1⟩
      simp only [hover, hfull, hnot, if_false, false_or]
      by_cases hdue : dueDate < today
      case pos => simp [hdue]
      case neg =>
        by_cases hmore : halfKobo ≤ paid
        case pos => simp [hdue, hmore, hhalf.trans_le hmore]
        case neg => by_cases hpos : 0 < paid <;> simp [hdue, hmore, hpos, not_lt.mp hdue, not_le.mp hmore]

-- Whole kobo are stored as they are.
theorem not_roundsOver_kobo {z : ℤ} : ¬RoundsOver today dueDate total (kobo z) := by
  have hint : ∀ {x y : ℤ}, kobo x ≤ kobo y + halfKobo → x ≤ y := fun {x y} h => by
    have : (x : ℚ) < (y + 1 : ℤ) := by
      rw [kobo, kobo, halfKobo] at h
      push_cast
      linarith
    exact Int.lt_add_one_iff.mp <| by exact_mod_cast this
  rintro (⟨_, hle, hlt⟩ | ⟨_, hpos, hlt⟩)
  · exact absurd (kobo_le_iff.mpr <| hint hle) (not_le.mpr hlt)
  · have := hint (x := z) (y := 0) <| by rw [kobo_zero, zero_add]; exact hlt.le
    exact absurd (kobo_pos_iff.mp hpos) (not_lt.mpr this)

end Rounding

-- The bill is paid according to its stored amounts.
def Bill.isPaid (r : Bill) : Prop :=
  r.totalAmount.units ≤ r.amountPaid.units ∧ 0 < r.totalAmount.units

-- The status of a bill is the one that its stored amounts and its due date call for.
structure Bill.Agrees (today : Date) (r : Bill) : Prop where
  paid     : r.status = .paid ↔ r.isPaid
  overdue  : r.status = .overdue ↔ ¬r.isPaid ∧ r.dueDate < today
  partPaid : r.status = .partPaid ↔ ¬r.isPaid ∧ today ≤ r.dueDate ∧ 0 < r.amountPaid.units
  issued   : r.status = .issued ↔ ¬r.isPaid ∧ today ≤ r.dueDate ∧ r.amountPaid.units ≤ 0

theorem Bill.agrees_iff {r : Bill} (h : r.status.terminal = false) : r.Agrees today ↔
    statusOf today r.status r.amountPaid.toRat r.totalAmount.toRat r.dueDate = r.status := by
  have hstatus : statusOf today r.status r.amountPaid.toRat r.totalAmount.toRat r.dueDate =
      if r.totalAmount.units ≤ r.amountPaid.units ∧ 0 < r.totalAmount.units then .paid
      else if r.dueDate < today then .overdue
      else if 0 < r.amountPaid.units then .partPaid else .issued := by
    simp only [statusOf, h, Money.toRat_eq_kobo, kobo_le_iff, kobo_pos_iff, Bool.false_eq_true, if_false]
  rw [hstatus]
  constructor
  · intro ha
    split
    case isTrue hp => exact (ha.paid.mpr hp).symm
    case isFalse hp =>
      split
      case isTrue hd => exact (ha.overdue.mpr ⟨hp, hd⟩).symm
      case isFalse hd =>
        split
        case isTrue hpos => exact (ha.partPaid.mpr ⟨hp, not_lt.mp hd, hpos⟩).symm
        case isFalse hpos => exact (ha.issued.mpr ⟨hp, not_lt.mp hd, not_lt.mp hpos⟩).symm
  · intro he
    constructor <;> (rw [← he, Bill.isPaid]; split_ifs <;> simp_all)

-- What is stored of a bill agrees, and recomputing it on the same day changes nothing.
structure StatusAgrees (today : Date) (b : ℕ) (t : Db) : Prop where
  status : ∀ {r}, (t.table .bill).get b = some r → r.status.terminal = false → r.Agrees today
  again  : ∀ {r}, (t.table .bill).get b = some r →
    Prog.Post (recomputeBill today ⟨b, r⟩ r.amountPaid.toRat) t fun out u => out = .ok r.status ∧ u = t

theorem store_toRat {p d : ℕ} (n : Numeric p d) : store n.toRat = pure n := by
  rw [store, Numeric.ofRat?_toRat]

-- A bill whose totals and status are those that it is recomputed to stays as it is.
theorem post_recomputeBill_again {r : Bill} (hr : (t.table .bill).get b = some r)
    (htotal : r.totalAmount.units = t.lineTotal b) (harrears : r.arrearsAmount.units = t.arrearsTotal b)
    (hstatus : statusOf today r.status r.amountPaid.toRat r.totalAmount.toRat r.dueDate = r.status) :
    Prog.Post (recomputeBill today ⟨b, r⟩ r.amountPaid.toRat) t fun out u =>
      out = .ok r.status ∧ u = t := by
  have hsum : kobo (t.lineTotal b) = r.totalAmount.toRat := by rw [Money.toRat_eq_kobo, htotal]
  have hsum' : kobo (t.arrearsTotal b) = r.arrearsAmount.toRat := by rw [Money.toRat_eq_kobo, harrears]
  refine .bind <| post_select ?_
  simp only [hsum, hsum', hstatus, store_toRat, pure_bind]
  refine .bind <| .bind <| post_update (fun _ _ => .ret <| .ret ⟨rfl, ?_⟩) fun hn => ?_
  · exact modify_of_fixed hr rfl
  · simp [hr] at hn

-- The amounts that a bill is recomputed with agree unless they are rounded over.
theorem Reckoned.agrees_iff (h : Reckoned today b paid s t) (hpaid : 0 ≤ paid) {r : Bill}
    (hr : (s.table .bill).get b = some r) : StatusAgrees today b t ↔
      r.status.terminal ∨ ¬RoundsOver today r.dueDate (t.lineTotal b) paid := by
  have ⟨r', x, total, arrears, hr', hx, htotal, harrears, hget⟩ := h.row
  rw [hr, Option.some.injEq] at hr'
  subst hr'
  have hrat : total.toRat = kobo (t.lineTotal b) ∧ x.toRat = kobo (cents paid) := by
    rw [Money.toRat_eq_kobo, Money.toRat_eq_kobo, htotal, hx]
    exact ⟨rfl, rfl⟩
  cases hterminal : r.status.terminal with
  | true =>
    have hstatus : statusOf today r.status paid (kobo (t.lineTotal b)) r.dueDate = r.status := by
      simp [statusOf, hterminal]
    simp only [true_or, iff_true]
    refine ⟨fun hr' hlive => ?_, fun hr' => ?_⟩
    all_goals
      rw [hget, Option.some.injEq] at hr'
      subst hr'
    · simp [hstatus, hterminal] at hlive
    · exact post_recomputeBill_again hget htotal harrears (by simp [statusOf, hterminal])
  | false =>
    have hlive : (statusOf today r.status paid (kobo (t.lineTotal b)) r.dueDate).terminal = false :=
      statusOf_terminal.trans hterminal
    let r' : Bill := { r with
      amountPaid := x, totalAmount := total, arrearsAmount := arrears,
      status := statusOf today r.status paid (kobo (t.lineTotal b)) r.dueDate }
    have hagrees : r'.Agrees today ↔ _ := Bill.agrees_iff hlive
    simp only [r', statusOf_live hlive hterminal, hrat, statusOf_cents_iff hterminal hpaid] at hagrees
    simp only [Bool.false_eq_true, false_or, ← hagrees]
    refine ⟨fun ha => ha.status hget hlive, fun ha => ⟨fun hr' _ => ?_, fun hr' => ?_⟩⟩
    all_goals
      rw [hget, Option.some.injEq] at hr'
      subst hr'
    · exact ha
    · exact post_recomputeBill_again hget htotal harrears <| (Bill.agrees_iff hlive).mp ha

-- No bill has been paid less than nothing.
def PaidNonneg (s : Db) : Prop :=
  ∀ ⦃b r⦄, (s.table .bill).get b = some r → 0 ≤ r.amountPaid.units

theorem fifo_nonneg {l : List ℤ} {remaining applied : ℚ} (h : 0 ≤ applied) :
    0 ≤ (fifo l remaining applied).1 := by
  induction l generalizing remaining applied with
  | nil => exact h
  | cons outstanding l hi =>
    unfold fifo
    split
    case isTrue => exact h
    case isFalse hpos =>
      split
      case isTrue => exact hi h
      case isFalse hdebt =>
        have := le_min (not_le.mp hpos).le (kobo_pos <| not_le.mp hdebt).le
        exact hi <| Decimal.round_nonneg <| add_nonneg h this

theorem fifo_of_nonpos {l : List ℤ} {remaining applied : ℚ} (h : remaining ≤ 0) :
    fifo l remaining applied = (applied, remaining) := by
  cases l with
  | nil => rfl
  | cons outstanding l => rw [fifo, if_pos h]

-- Within the digits of `Decimal`, what is applied is the amount or all that is owed.
theorem fifo_eq {l : List ℤ} {amount remaining : ℚ} {z : ℤ} (hfit : Decimal.Fits amount) (hz : 0 ≤ z)
    (hsum : kobo z + remaining = amount) (h : 0 ≤ remaining) :
    (fifo l remaining (kobo z)).1 = min amount (kobo (z + (l.map (max · 0)).sum)) := by
  have hdebts : ∀ l : List ℤ, 0 ≤ (l.map (max · 0)).sum := fun l => List.sum_nonneg fun x hx => by
    obtain ⟨y, _, hy⟩ := List.mem_map.mp hx
    exact hy ▸ le_max_right y 0
  induction l generalizing remaining z with
  | nil => rw [fifo, min_eq_right] <;> simp [← hsum, h]
  | cons outstanding l hi =>
    rw [fifo, List.map_cons, List.sum_cons]
    split
    case isTrue hle =>
      have hle' : kobo z ≤ kobo (z + (max outstanding 0 + (l.map (max · 0)).sum)) :=
        kobo_le_iff.mpr <| by have := hdebts l; omega
      rw [min_eq_left] <;> linarith
    case isFalse hpos =>
      split
      case isTrue hdebt => rw [max_eq_right hdebt, zero_add, hi hz hsum h]
      case isFalse hdebt =>
        have hdebt := not_le.mp hdebt
        obtain ⟨_, hle, hround, hround', hwhole⟩ := take_cases hfit hsum (not_le.mp hpos) hz rfl hdebt
        simp only
        rw [hround, hround', max_eq_left hdebt.le, ← add_assoc]
        rcases lt_or_eq_of_le hle with hlt | heq
        case inl =>
          have hleft := sub_pos.mpr hlt
          rw [hwhole hleft]
          exact hi (by omega) (by rw [← hwhole hleft]; linarith) hleft.le
        case inr =>
          have hmin := min_le_right remaining (kobo outstanding)
          have hle' : kobo (z + outstanding) ≤ kobo (z + outstanding + (l.map (max · 0)).sum) :=
            kobo_le_iff.mpr <| by have := hdebts l; omega
          rw [← kobo_add] at hle'
          rw [heq, fifo_of_nonpos (by linarith), hsum, min_eq_left]
          linarith

theorem Db.applied_eq {amount : ℚ} (hfit : Decimal.Fits amount) :
    s.applied b amount = min amount (kobo (s.outstandingOn b)) := by
  have hsum := sum_linesOf (s := s) (f := s.outstanding) (b := b)
  have := fifo_eq (l := s.outstandings b) (z := 0) hfit le_rfl (by rw [kobo_zero, zero_add]) hfit.nonneg
  rw [kobo_zero, zero_add, outstandings, List.map_map] at this
  rw [applied, outstandings, this, outstandingOn, ← hsum]
  rfl

namespace Request

theorem paidOn_nonneg {r : Request} {bill : Bill} (h : 0 ≤ bill.amountPaid.units) :
    0 ≤ r.paidOn s bill := by
  have hrat := Numeric.toRat_nonneg_iff.mpr h
  cases r with
  | postPayment pk r => exact Decimal.round_nonneg <| add_nonneg hrat <| fifo_nonneg le_rfl
  | reverse pk => exact le_max_right _ _
  | _ => exact hrat

-- The amount that a payment brings its bill to is not rounded over, if the bill is live.
def Settles (today : Date) (s : Db) : Request → Prop
  | postPayment pk r => ∀ ⦃bill⦄, (s.table .bill).get pk = some bill → bill.status.terminal ∨
      ¬RoundsOver today bill.dueDate bill.totalAmount.units
        (Decimal.round (bill.amountPaid.toRat + s.applied pk r.amount))
  | _ => True

-- Only payments bring in less than whole kobo.
theorem paidOn_cases (r : Request) (bill : Bill) :
    (∃ pk q, r = .postPayment pk q) ∨ ∃ z, r.paidOn s bill = kobo z := by
  have hpaid := Money.toRat_eq_kobo bill.amountPaid
  cases r with
  | postPayment pk q => exact .inl ⟨pk, q, rfl⟩
  | reverse pk =>
    refine .inr ⟨max (bill.amountPaid.units - s.appliedBy pk) 0, ?_⟩
    rw [paidOn, hpaid, kobo_sub, kobo_max, kobo_zero]
  | _ => exact .inr ⟨_, hpaid⟩

end Request

theorem PaidNonneg.serve {r : Request} (h : PaidNonneg s) (hs : Sourced s) :
    Prog.Post (r.serve today) s <| Prog.OnReturn fun _ t => PaidNonneg t := by
  refine post_serve_cases hs (fun {q b t} _ ht => ?issue) fun {b bill t} _ _ hbill ht => ?recompute
  case issue =>
    intro k r hr
    by_cases hk : k = b
    case pos =>
      have ⟨row, hrow, _, _, hpaid, _⟩ := ht.row
      rw [hk, hrow, Option.some.injEq] at hr
      rw [← hr, hpaid]
    case neg =>
      rw [ht.others k hk] at hr
      have ⟨r', hr', he⟩ := Option.map_eq_some_iff.mp hr
      have := h hr'
      rw [← he]
      split <;> exact this
  case recompute =>
    intro k r hr
    by_cases hk : k = b
    case pos =>
      have ⟨_, x, _, _, _, hx, _, _, hget⟩ := ht.row
      rw [hk, hget, Option.some.injEq] at hr
      rw [← hr]
      exact hx ▸ cents_nonneg (Request.paidOn_nonneg <| h hbill)
    case neg => exact h <| ht.others k hk ▸ hr

theorem Db.Reachable.paidNonneg {ok : Db → Request → Prop} (h : s.Reachable ok) : PaidNonneg s := by
  have ⟨_, hpaid⟩ := h.preserves (P := fun s => Tallied s ∧ PaidNonneg s)
    (fun hi => ⟨hi.tallied, fun _ _ hr => by simp [hi.bill] at hr⟩)
    fun ⟨hs, hp⟩ _ => .imp (.both hs.serve (hp.serve hs.sourced)) fun _ _ ht hv => ⟨ht.1 hv, ht.2⟩
  exact hpaid

-- After a request, status and money agree in storage exactly if the request is no payment that is
-- rounded over.
theorem statusAgrees_iff {ok : Db → Request → Prop} (hs : s.Reachable ok) {r : Request}
    (hb : r.billOf s = some b) {n m : Name → ℕ} (hc : (r.serve today).call s n = (.ok (), t, m)) :
    StatusAgrees today b t ↔ r.Settles today s := by
  have ⟨⟨_, bill, hbill, ht⟩, _⟩ := Prog.call_ok (post_serve hs.tallied.sourced hb) hc
  rw [ht.agrees_iff (r.paidOn_nonneg <| hs.paidNonneg hbill) hbill]
  rcases r.paidOn_cases (s := s) bill with ⟨pk, q, rfl⟩ | ⟨z, hz⟩
  case inl =>
    cases hb
    have hline : t.table .line = s.table .line := by
      have hpost : Prog.Post (Request.serve today (.postPayment b q)) s
          (Prog.OnReturn fun _ t => Paid today b q.amount s t) := by
        refine .seq (.bind <| post_getObject (fun _ _ _ => ?_) fun _ => trivial) fun _ _ ht => .ret ht
        exact post_postPayment_reckoned hs.tallied.sourced
      have ⟨hpaid, _⟩ := Prog.call_ok hpost hc
      exact hpaid.only .line (by simp)
    rw [Db.lineTotal_congr hline, ← (hs.tallied.totals hbill).1]
    constructor
    · intro h bill' hbill'
      rw [hbill, Option.some.injEq] at hbill'
      exact hbill' ▸ h
    · exact fun h => h hbill
  case inr =>
    have hsettles : r.Settles today s := by
      cases r with
      | postPayment pk q =>
        cases hb
        intro bill' hbill'
        rw [hbill, Option.some.injEq] at hbill'
        subst hbill'
        rw [Request.paidOn] at hz
        exact .inr <| hz ▸ not_roundsOver_kobo
      | _ => trivial
    simp only [hz, not_roundsOver_kobo, not_false_eq_true, or_true, hsettles]

set_option maxRecDepth 20000 in
theorem sample_statusAgrees : StatusAgrees Sample.day 1 Sample.partPaid.1 := by
  have hs : Sample.issued.1.Reachable fun _ _ => True := Sample.reachable_issued trivial
  have hc := Sample.call_returns (p := (Sample.pay 1 10).serve Sample.day) (s := Sample.issued) (a := ())
    (by decide +kernel)
  refine (statusAgrees_iff hs rfl hc).mpr fun bill hbill => .inr ?_
  have hpaid : ((Sample.issued.1.table .bill).get 1).map (fun bill =>
      Decimal.round (bill.amountPaid.toRat + Sample.issued.1.applied 1 10)) = some (kobo 1000) := by
    decide +kernel
  rw [hbill, Option.map_some, Option.some.injEq] at hpaid
  exact hpaid ▸ not_roundsOver_kobo

namespace Sample

-- Half a kobo less than the bill is paid.
def shortPaid : Db × (Name → ℕ) :=
  serve issued <| pay 1 (19995 / 1000)

end Sample

set_option maxRecDepth 20000 in
-- The amount paid is stored as 20.00, but the status was computed from 19.995.
theorem not_statusAgrees_of_short : ∃ (s t : Db) (r : Request) (b : ℕ) (n m : Name → ℕ),
    s.Reachable (fun _ r => r.Positive) ∧ r.Positive ∧ r.billOf s = some b ∧
      (r.serve Sample.day).call s n = (.ok (), t, m) ∧ ¬StatusAgrees Sample.day b t := by
  have hc := Sample.call_returns (p := (Sample.pay 1 (19995 / 1000)).serve Sample.day)
    (s := Sample.issued) (a := ()) (by decide +kernel)
  refine ⟨Sample.issued.1, _, Sample.pay 1 (19995 / 1000), 1, _, _, Sample.reachable_issued trivial, ?_,
    rfl, hc, fun h => ?_⟩
  · norm_num [Request.Positive, Sample.pay]
  · have hr : ((Sample.shortPaid.1.table .bill).get 1).map (fun r =>
        (r.status, r.amountPaid.units, r.totalAmount.units)) = some (.partPaid, 2000, 2000) := by
      decide +kernel
    obtain ⟨r, hr, hrow⟩ := Option.map_eq_some_iff.mp hr
    simp only [Prod.mk.injEq] at hrow
    have := (h.status hr (by rw [hrow.1]; rfl)).partPaid.mp hrow.1
    exact this.1 ⟨by omega, by omega⟩

end ACRev360
