import ACRev360.Theorems.Ledger
import ACRev360.Theorems.Reckoning

namespace ACRev360

open Relational Relational.Database

-- Every bill's totals are those of its lines.
def Totals (s : Db) : Prop :=
  ∀ ⦃b r⦄, (s.table .bill).get b = some r →
    r.totalAmount.units = s.lineTotal b ∧ r.arrearsAmount.units = s.arrearsTotal b

-- The totals of the bills between the requests, and the references that the services follow.
structure Tallied (s : Db) : Prop where
  totals    : Totals s
  successor : ∀ {b r k}, (s.table .bill).get b = some r → r.supersededBy = some k →
    ∃ r', (s.table .bill).get k = some r'
  line      : ∀ {k l}, (s.table .line).get k = some l → ∃ r, (s.table .bill).get l.bill = some r
  assessed  : Assessed s
  sourced   : Sourced s

variable {s t : Db} {b k payer : ℕ} {today : Date} {paid : ℚ}

theorem Totals.tallied (h : Totals s) (hv : Database.valid s) : Tallied s where
  totals := h
  successor {b r k} hr hk := by
    have : (Name.bill, k) ∈ relational.refs Name.bill r := by simp [hk]
    exact valid_ref hv hr this
  line hl          := valid_ref hv hl (.head _)
  assessed _ _ hl  := valid_ref hv hl (.tail _ <| .head _)
  sourced          := sourced_of_valid hv

theorem Db.Initial.tallied (h : s.Initial) : Tallied s where
  totals _ _ hr   := by simp [h.bill] at hr
  successor hr    := by simp [h.bill] at hr
  line hl         := by simp [h.line] at hl
  assessed _ _ hl := by simp [h.line] at hl
  sourced _ _ ha  := by simp [h.allocation] at ha

namespace LinesOff

theorem lineTotal (h : LinesOff b s t) (hk : k ≠ b) : t.lineTotal k = s.lineTotal k := by
  refine Table.sum_eq_of_iff fun i l hl => h i l ?_
  split at hl
  case isTrue hlk => exact hlk ▸ hk
  case isFalse => contradiction

theorem arrearsTotal (h : LinesOff b s t) (hk : k ≠ b) : t.arrearsTotal k = s.arrearsTotal k := by
  refine Table.sum_eq_of_iff fun i l hl => h i l ?_
  split at hl
  case isTrue hlk => exact hlk ▸ hk
  case isFalse => contradiction

theorem of_eq (h : t.table .line = s.table .line) : LinesOff b s t := fun _ _ _ => by
  rw [h]

end LinesOff

theorem Reckoned.totals (h : Reckoned today b paid s t) (hl : LinesOff b s t) (hs : Totals s) :
    Totals t := by
  intro k r hr
  by_cases hk : k = b
  case pos =>
    subst hk
    have ⟨_, _, _, _, _, _, htotal, harrears, hr'⟩ := h.row
    rw [hr, Option.some.injEq] at hr'
    subst hr'
    exact ⟨htotal, harrears⟩
  case neg =>
    rw [h.others k hk] at hr
    rw [hl.lineTotal hk, hl.arrearsTotal hk]
    exact hs hr

theorem Issued.totals {r : IssueRequest} {rolled : List ℕ} (h : Issued r b rolled s t) (hs : Totals s) :
    Totals t := by
  intro k r' hr'
  by_cases hk : k = b
  case pos =>
    subst hk
    have ⟨row, hrow, _, _, _, htotal, harrears, _⟩ := h.row
    rw [hr', Option.some.injEq] at hrow
    subst hrow
    exact ⟨htotal, harrears⟩
  case neg =>
    rw [h.others k hk] at hr'
    have ⟨row, hrow, he⟩ := Option.map_eq_some_iff.mp hr'
    have hrow := hs hrow
    rw [h.lines.lineTotal hk, h.lines.arrearsTotal hk, ← he]
    split <;> exact hrow

theorem Tallied.serve {r : Request} (h : Tallied s) : Prog.Post (r.serve today) s <|
    Prog.OnReturn fun _ t => Database.valid t → Tallied t := by
  refine Prog.Post.imp (Q := fun _ t => Totals t) ?_ fun _ t ht hv => ht.tallied hv
  exact post_serve_cases h.sourced (fun _ ht => ht.totals h.totals)
    fun _ hl _ ht => ht.totals hl h.totals

theorem Db.Reachable.tallied {ok : Db → Request → Prop} (h : s.Reachable ok) : Tallied s :=
  h.preserves Db.Initial.tallied fun hs _ => hs.serve

-- Bill.balance
def Bill.balance (b : Bill) : ℤ :=
  b.totalAmount.units - b.amountPaid.units

namespace Db

variable (s : Db)

-- A sum over the bills of a payer that consolidation picks up.
def sumOpen (payer : ℕ) (f : ℕ → Bill → ℤ) : ℤ :=
  (s.table .bill).sum fun k b => if b.payer = payer ∧ b.status.isOpen then f k b else 0

-- The balances of a payer's live bills.
def liveBalance (payer : ℕ) : ℤ :=
  (s.table .bill).sum fun _ b => if b.payer = payer ∧ b.status.terminal = false then b.balance else 0

-- The balances of the bills that `bill` supersedes.
def supersededBalance (bill : ℕ) : ℤ :=
  (s.table .bill).sum fun _ b => if b.supersededBy = some bill then b.balance else 0

-- What the lines of a bill charge, apart from the arrears on them.
def charges (bill : ℕ) : ℤ :=
  (s.table .line).sum fun _ l => if l.bill = bill then l.lineAmount.units - l.arrearsAmount.units else 0

-- What the lines of a bill have been paid above their amounts.
def overpaidOn (bill : ℕ) : ℤ :=
  (s.table .line).sum fun k l =>
    if l.bill = bill then max (s.paidAmount k - l.lineAmount.units) 0 else 0

theorem charges_eq (bill : ℕ) : s.charges bill = s.lineTotal bill - s.arrearsTotal bill := by
  rw [charges, lineTotal, arrearsTotal, ← Table.sum_sub]
  refine Table.sum_congr fun k l _ => ?_
  split <;> simp

-- What a bill has collected is what its lines have been paid.
theorem collectedOn_eq (bill : ℕ) : s.collectedOn bill =
    (s.table .line).sum fun k l => if l.bill = bill then s.paidAmount k else 0 := by
  have hpaid : ∀ k (l : BillLine), (if l.bill = bill then s.paidAmount k else 0) =
      (s.table .allocation).sum fun _ a =>
        if k = a.line then (if l.bill = bill ∧ s.confirmed a.payment then a.amount.units else 0) else 0 := by
    intro k l
    rw [paidAmount]
    split
    case isTrue hb =>
      refine Table.sum_congr fun i a _ => ?_
      by_cases hk : a.line = k
      · simp [hk, hb]
      · simp [hk, Ne.symm hk]
    case isFalse hb => simp [hb, Table.sum_eq_zero]
  simp only [hpaid]
  rw [Table.sum_comm, collectedOn]
  refine Table.sum_congr fun i a _ => ?_
  rw [Table.sum_single, collects, onBill]
  cases (s.table .line).get a.line <;> simp

theorem outstandingOn_eq (bill : ℕ) :
    s.outstandingOn bill = s.lineTotal bill - s.collectedOn bill + s.overpaidOn bill := by
  rw [collectedOn_eq, lineTotal, ← Table.sum_sub, overpaidOn, ← Table.sum_add, outstandingOn]
  refine Table.sum_congr fun k l _ => ?_
  rw [outstanding]
  split <;> omega

end Db

namespace Issued

variable {r : IssueRequest} {rolled : List ℕ}

-- The bills are those of before, of which some have been superseded, and the new one.
theorem sum_bills (h : Issued r b rolled s t) {row : Bill} (hrow : (t.table .bill).get b = some row)
    (f : ℕ → Bill → ℤ) : (t.table .bill).sum f = f b row +
      (s.table .bill).sum fun k x => f k (if k ∈ rolled then supersede b x else x) := by
  rw [Table.sum_eq_erase hrow]
  congr 1
  refine Table.sum_eq_of_map fun k => ?_
  rw [Table.get_erase]
  split
  case isTrue hk => rw [hk, h.absent]; rfl
  case isFalse hk => rw [h.others k hk, Option.map_map]; rfl

theorem mem_openBills {x : Bill} (hx : (s.table .bill).get k = some x)
    (hb : (s.table .bill).get b = none) :
    k ∈ openBills s payer b ↔ x.payer = payer ∧ x.status.isOpen := by
  have hne : k ≠ b := fun h => by simp [h, hb] at hx
  simp only [openBills, List.mem_map, Prod.exists, exists_and_right, exists_eq_right,
    Table.mem_filter_iff, hx, Option.some.injEq]
  simp [hne]

-- No line refers to the bill before it is issued.
theorem arrearsTotal_absent (hs : Tallied s) (hb : (s.table .bill).get b = none) :
    s.arrearsTotal b = 0 :=
  Table.sum_eq_zero fun k l hl => if_neg fun he => by
    have ⟨r, hr⟩ := hs.line hl
    simp [he, hb] at hr

theorem sum_openBills (hb : (s.table .bill).get b = none) (f : ℕ → ℤ) :
    ((openBills s payer b).map f).sum = s.sumOpen payer fun k _ => f k := by
  rw [openBills, List.map_map]
  refine (Table.sum_filter (f := fun k _ => f k)).trans <| Table.sum_congr fun k x hx => ?_
  have hne : k ≠ b := fun h => by simp [h, hb] at hx
  simp [hne]

end Issued

-- What the claim of a consolidation says: the arrears of the new bill are the balances of the bills it
-- supersedes, its total is that and its charges, and the payer owes the charges more.
structure Consolidates (payer bill : ℕ) (s t : Db) : Prop where
  arrears : ∀ {b}, (t.table .bill).get bill = some b →
    b.arrearsAmount.units = t.supersededBalance bill
  total   : ∀ {b}, (t.table .bill).get bill = some b →
    b.totalAmount.units = t.supersededBalance bill + t.charges bill
  live    : t.liveBalance payer = s.liveBalance payer + t.charges bill

namespace Issued

variable {r : IssueRequest}

theorem supersededBalance (h : Issued r b (openBills s r.payer.id b) s t) (hs : Tallied s) :
    t.supersededBalance b = s.sumOpen r.payer.id fun _ x => x.balance := by
  have ⟨row, hrow, _, _, _, _, _, _, hnone⟩ := h.row
  rw [Db.supersededBalance, h.sum_bills hrow, hnone, if_neg (by simp), zero_add]
  refine Table.sum_congr fun k x hx => ?_
  have hx' : x.supersededBy ≠ some b := fun he => by
    have ⟨_, hb⟩ := hs.successor hx he
    simp [h.absent] at hb
  simp only [mem_openBills hx h.absent]
  by_cases hk : x.payer = r.payer.id ∧ x.status.isOpen
  case pos => simp [hk, supersede, Bill.balance]
  case neg => simp [hk, hx']

theorem liveBalance (h : Issued r b (openBills s r.payer.id b) s t) :
    t.liveBalance r.payer.id = s.liveBalance r.payer.id + t.lineTotal b -
      s.sumOpen r.payer.id fun _ x => x.balance := by
  have ⟨row, hrow, _, hpayer, hpaid, htotal, _, hlive, _⟩ := h.row
  rw [Db.liveBalance, h.sum_bills hrow, if_pos ⟨hpayer, hlive⟩, Bill.balance, htotal, hpaid, sub_zero]
  have : (s.table .bill).sum (fun k x =>
      let y := if k ∈ openBills s r.payer.id b then supersede b x else x
      if y.payer = r.payer.id ∧ y.status.terminal = false then y.balance else 0) =
      s.liveBalance r.payer.id - s.sumOpen r.payer.id fun _ x => x.balance := by
    rw [Db.liveBalance, Db.sumOpen, ← Table.sum_sub]
    refine Table.sum_congr fun k x hx => ?_
    simp only [mem_openBills hx h.absent]
    by_cases hk : x.payer = r.payer.id ∧ x.status.isOpen
    case pos =>
      have := BillStatus.not_terminal_of_isOpen hk.2
      have hterminal : BillStatus.superseded.terminal = true := rfl
      simp [hk, this, supersede, hterminal]
    case neg => simp [hk]
  rw [this]
  omega

-- The arrears differ from the balances where lines are overpaid or the amounts paid are off.
theorem arrears_eq (h : Issued r b (openBills s r.payer.id b) s t) (hs : Tallied s) :
    t.arrearsTotal b = s.sumOpen r.payer.id (fun _ x => x.balance) +
      s.sumOpen r.payer.id (fun k x => s.overpaidOn k - (s.collectedOn k - x.amountPaid.units)) := by
  rw [h.arrears, arrearsTotal_absent hs h.absent, zero_add, sum_openBills h.absent, Db.sumOpen,
    Db.sumOpen, Db.sumOpen, ← Table.sum_add]
  refine Table.sum_congr fun k x hx => ?_
  split
  · rw [Db.outstandingOn_eq, Bill.balance, (hs.totals hx).1]
    omega
  · rfl

theorem consolidates_iff (h : Issued r b (openBills s r.payer.id b) s t) (hs : Tallied s) :
    Consolidates r.payer.id b s t ↔
      s.sumOpen r.payer.id (fun k _ => s.overpaidOn k) =
        s.sumOpen r.payer.id fun k x => s.collectedOn k - x.amountPaid.units := by
  have ⟨row, hrow, _, _, _, htotal, harrears, _⟩ := h.row
  have hsum := h.arrears_eq hs
  have hsplit : s.sumOpen r.payer.id (fun k x => s.overpaidOn k - (s.collectedOn k - x.amountPaid.units)) =
      s.sumOpen r.payer.id (fun k _ => s.overpaidOn k) -
        s.sumOpen r.payer.id fun k x => s.collectedOn k - x.amountPaid.units := by
    rw [Db.sumOpen, Db.sumOpen, Db.sumOpen, ← Table.sum_sub]
    refine Table.sum_congr fun k x _ => ?_
    split <;> simp
  rw [hsplit] at hsum
  constructor
  · intro hc
    have := hc.arrears hrow
    rw [harrears, h.supersededBalance hs] at this
    omega
  · intro he
    refine ⟨fun hb => ?_, fun hb => ?_, ?_⟩
    · rw [hrow, Option.some.injEq] at hb
      rw [← hb, harrears, h.supersededBalance hs]
      omega
    · rw [hrow, Option.some.injEq] at hb
      rw [← hb, htotal, h.supersededBalance hs, Db.charges_eq]
      omega
    · rw [h.liveBalance, Db.charges_eq]
      omega

end Issued

namespace Sample

-- A consolidation that charges nothing.
def roll : IssueRequest :=
  ⟨1, Sample.payer, none, [], false, true, 1, false⟩

-- The state that a consolidation leads to.
def rolled (s : Db × (Name → ℕ)) : Db :=
  ((issueBill day roll).call s.1 s.2).2.1

-- A bill of two lines of 20.00, of which the first is paid and then lowered to 10.00.
def lowered : Db × (Name → ℕ) :=
  serve (serve (serve start <| issue [1, 2] false) <| pay 1 20) <| .putLine 1 1 10

def consolidated : Db × (Name → ℕ) :=
  serve partPaid <| .issueBill roll

def paidUp : Db × (Name → ℕ) :=
  serve issued <| pay 1 20

end Sample

-- The amounts of DashboardSummaryView for a council.
structure DashboardSummary where
  billed      : ℤ
  collected   : ℤ
  outstanding : ℤ
deriving DecidableEq

-- What a bill adds to the billed amount of a council.
def Bill.billed (council : ℕ) (b : Bill) : ℤ :=
  if b.council = council ∧ b.status.terminal = false then b.totalAmount.units - b.arrearsAmount.units else 0

def Db.dashboardSummary (s : Db) (council : ℕ) : DashboardSummary :=
  let billed := (s.table .bill).sum fun _ b => b.billed council
  let collected := (s.table .payment).sum fun _ q =>
    if q.council = council ∧ q.txnStatus = .confirmed then q.amount.units else 0
  { billed, collected, outstanding := billed - collected }

namespace Issued

variable {r : IssueRequest}

-- The bills that drop out take their own charges with them.
theorem dashboardSummary (h : Issued r b (openBills s r.payer.id b) s t) :
    (t.dashboardSummary r.council).outstanding =
      (s.dashboardSummary r.council).outstanding + t.charges b -
        s.sumOpen r.payer.id fun _ x => x.billed r.council := by
  have ⟨row, hrow, hcouncil, _, _, htotal, harrears, hlive, _⟩ := h.row
  have hnew : row.billed r.council = t.charges b := by
    rw [Bill.billed, if_pos ⟨hcouncil, hlive⟩, htotal, harrears, ← Db.charges_eq]
  have hold : (s.table .bill).sum (fun k x =>
      (if k ∈ openBills s r.payer.id b then supersede b x else x).billed r.council) =
      (s.dashboardSummary r.council).billed - s.sumOpen r.payer.id fun _ x => x.billed r.council := by
    rw [Db.dashboardSummary, Db.sumOpen, ← Table.sum_sub]
    refine Table.sum_congr fun k x hx => ?_
    simp only [mem_openBills hx h.absent]
    split
    · have hterminal : BillStatus.superseded.terminal = true := rfl
      simp [Bill.billed, supersede, hterminal]
    · simp
  have hbilled : (t.dashboardSummary r.council).billed = t.charges b + _ :=
    hnew ▸ hold ▸ h.sum_bills hrow fun _ x => x.billed r.council
  have hcollected : (t.dashboardSummary r.council).collected = (s.dashboardSummary r.council).collected := by
    simp only [Db.dashboardSummary, h.only .payment (by simp)]
  have hout : ∀ s : Db, (s.dashboardSummary r.council).outstanding =
      (s.dashboardSummary r.council).billed - (s.dashboardSummary r.council).collected := fun _ => rfl
  rw [hout, hout, hbilled, hcollected]
  omega

end Issued

-- A bill that is recomputed changes what its payer owes by what its amount paid changes, if it is live.
theorem Reckoned.liveBalance (h : Reckoned today b paid s t) (hl : t.table .line = s.table .line)
    (hs : Totals s) {r : Bill} (hr : (s.table .bill).get b = some r) :
    t.liveBalance r.payer = s.liveBalance r.payer +
      if r.status.terminal then 0 else r.amountPaid.units - cents paid := by
  have ⟨r', x, total, arrears, hr', hx, htotal, _, hget⟩ := h.row
  rw [hr, Option.some.injEq] at hr'
  subst hr'
  have herase : (t.table .bill).erase b = (s.table .bill).erase b := Table.ext_get fun k => by
    rw [Table.get_erase, Table.get_erase]
    split
    · rfl
    · exact h.others k ‹_›
  have hold := (hs hr).1
  rw [Db.liveBalance, Db.liveBalance, Table.sum_eq_erase hget, Table.sum_eq_erase hr, herase]
  simp only [statusOf_terminal, Bill.balance, true_and]
  rw [htotal, hx, hold, Db.lineTotal_congr hl]
  cases r.status.terminal
  · simp
    omega
  · simp

-- A reversal restores the debt exactly if the bill of the payment is still live and has been paid what
-- the payment applied, or is not and the payment applied nothing.
theorem reverse_restores_iff {ok : Db → Request → Prop} (hs : s.Reachable ok) {q : Payment} {r : Bill}
    (hq : (s.table .payment).get k = some q) (hr : (s.table .bill).get q.bill = some r)
    {n m : Name → ℕ} (hc : (reverse today k).call s n = (.ok (), t, m)) :
    t.liveBalance r.payer = s.liveBalance r.payer + s.appliedBy k ↔
      if r.status.terminal then s.appliedBy k = 0 else s.appliedBy k ≤ r.amountPaid.units := by
  have hpost : Prog.Post (reverse today k) s (Prog.OnReturn fun _ t => Reverted today k q s t) := by
    refine .bind <| post_getObject (fun q' hq' _ => ?_) fun _ => trivial
    rw [hq, Option.some.injEq] at hq'
    exact hq' ▸ post_reversePayment_reckoned hq
  have h : Reverted today k q s t := (Prog.call_ok hpost hc).1
  have ⟨r', hr', hreckoned⟩ := h.bill
  rw [hr, Option.some.injEq] at hr'
  subst hr'
  rw [hreckoned.liveBalance (h.only .line (by simp)) hs.tallied.totals hr]
  have hpaid : cents (max (r.amountPaid.toRat - kobo (s.appliedBy k)) 0) =
      max (r.amountPaid.units - s.appliedBy k) 0 := by
    have : (0 : ℚ) = kobo 0 := by simp [kobo]
    rw [Money.toRat_eq_kobo, kobo_sub, this, ← kobo_max, cents_kobo]
  rw [hpaid]
  split <;> omega

set_option maxRecDepth 20000 in
theorem sample_restores : Db.liveBalance (Sample.serve Sample.partPaid <| .reverse 1).1 1 =
    Sample.partPaid.1.liveBalance 1 + Sample.partPaid.1.appliedBy 1 := by
  have hs : Sample.partPaid.1.Reachable fun _ _ => True :=
    Sample.reachable_serve (Sample.reachable_issued trivial) trivial
  have hq : ((Sample.partPaid.1.table .payment).get 1).map (·.bill) = some 1 := by decide +kernel
  have ⟨q, hq, hbill⟩ := Option.map_eq_some_iff.mp hq
  have hr : ((Sample.partPaid.1.table .bill).get 1).map (fun r =>
      (r.payer, r.status.terminal, decide (Sample.partPaid.1.appliedBy 1 ≤ r.amountPaid.units))) =
      some (1, false, true) := by decide +kernel
  have ⟨r, hr, hrow⟩ := Option.map_eq_some_iff.mp hr
  simp only [Prod.mk.injEq, decide_eq_true_eq] at hrow
  have hc := Sample.call_returns (p := reverse Sample.day 1) (s := Sample.partPaid) (a := ())
    (by decide +kernel)
  have := (reverse_restores_iff hs hq (hbill.symm ▸ hr) hc).mpr (by simp [hrow])
  rwa [hrow.1] at this

set_option maxRecDepth 20000 in
-- The bill has been consolidated since, and the arrears do not follow.
theorem not_restores_of_consolidated : ∃ (s t : Db) (k : ℕ) (q : Payment) (r : Bill) (n m : Name → ℕ),
    s.Reachable (fun _ r => r.Positive) ∧ (s.table .payment).get k = some q ∧
      q.txnStatus = .confirmed ∧ (s.table .bill).get q.bill = some r ∧
      (reverse Sample.day k).call s n = (.ok (), t, m) ∧
      t.liveBalance r.payer ≠ s.liveBalance r.payer + s.appliedBy k := by
  have hq : ((Sample.consolidated.1.table .payment).get 1).map (fun q => (q.bill, q.txnStatus)) =
      some (1, .confirmed) := by decide +kernel
  have ⟨q, hq, hpayment⟩ := Option.map_eq_some_iff.mp hq
  have hr : ((Sample.consolidated.1.table .bill).get 1).map (·.payer) = some 1 := by decide +kernel
  have ⟨r, hr, hpayer⟩ := Option.map_eq_some_iff.mp hr
  simp only [Prod.mk.injEq] at hpayment
  have hc := Sample.call_returns (p := reverse Sample.day 1) (s := Sample.consolidated) (a := ())
    (by decide +kernel)
  refine ⟨Sample.consolidated.1, _, 1, q, r, _, _, ?_, hq, hpayment.2, hpayment.1 ▸ hr, hc, ?_⟩
  · refine Sample.reachable_serve (Sample.reachable_serve (Sample.reachable_issued trivial) ?_) trivial
    norm_num [Request.Positive, Sample.pay]
  · rw [hpayer]
    decide +kernel

end ACRev360
