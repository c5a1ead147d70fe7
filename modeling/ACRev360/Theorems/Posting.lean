import ACRev360.Services.Channels
import ACRev360.Theorems.Reckoning

namespace ACRev360

open Relational Relational.Database

variable {today : Date} {s t : Db} {b k : ℕ}

section Amounts

theorem maxAmount_eq : maxAmount = kobo 99999999999999 := by
  rw [maxAmount, kobo]
  norm_num

theorem maxAmount_fits : Decimal.Fits maxAmount :=
  ⟨2, 99999999999999, le_rfl, by norm_num [Decimal.precision], by rw [maxAmount]; norm_num⟩

-- What is not negative and not too large has its place in a column.
theorem ofRat?_money {q : ℚ} (h : 0 ≤ q) (hle : q ≤ maxAmount) : ∃ m : Money, Numeric.ofRat? q = some m := by
  have hbound : (roundHalfAway (q * 10 ^ 2)).natAbs < 10 ^ 14 := by
    have h₀ := cents_nonneg h
    have h₁ := cents_le h hle
    rw [maxAmount_eq, cents_kobo] at h₁
    rw [cents] at h₀ h₁
    omega
  exact ⟨_, dif_pos hbound⟩

theorem round_le_max {q : ℚ} (h : 0 ≤ q) (hle : q ≤ maxAmount) : Decimal.round q ≤ maxAmount :=
  (Decimal.round_mono h hle).trans_eq maxAmount_fits.round_eq

end Amounts

-- A payment of the channel has recorded the reference.
def Db.Recorded (s : Db) (channel : ℕ) (bankTxnRef : String) : Prop :=
  ∃ k p, (s.table .payment).get k = some p ∧ p.channel = channel ∧ p.bankTxnRef = bankTxnRef

theorem recorded_iff {channel : ℕ} {bankTxnRef : String} (h : bankTxnRef ≠ "") :
    (∃ t i, Holds (R := relational) s (.bankTxnRef channel bankTxnRef) t i) ↔
      s.Recorded channel bankTxnRef := by
  refine ⟨fun ⟨t, i, row, hrow, hu⟩ => ?_, fun ⟨k, p, hp, hchannel, href⟩ => ⟨.payment, k, p, hp, ?_⟩⟩
  · cases t with
    | payment =>
      simp only [uniqueKeys] at hu
      split at hu
      · simp at hu
      · have ⟨hchannel, href⟩ := UniqueKey.bankTxnRef.inj <| List.mem_singleton.mp hu
        exact ⟨i, row, hrow, hchannel.symm, href.symm⟩
    | _ => simp at hu
  · simp [hchannel, href, h]

-- What of an amount the lines of a bill leave over.
def Db.leftover (s : Db) (bill : ℕ) (amount : ℚ) : ℚ :=
  (fifo (s.outstandings bill) amount 0).2

-- The amount has its place in a money column.
def Storable (q : ℚ) : Prop :=
  (Numeric.ofRat? q : Option Money).isSome

instance {q : ℚ} : Decidable (Storable q) :=
  inferInstanceAs (Decidable (_ = true))

-- What it takes that a payment is posted to a live bill.
structure Payable (s : Db) (channel : ℕ) (bill : Loaded Bill) (amount : ℚ) (bankTxnRef : String) : Prop where
  ref     : bankTxnRef ≠ "" → ¬s.Recorded channel bankTxnRef
  paid    : Storable (Decimal.round (bill.row.amountPaid.toRat + s.applied bill.id amount))
  total   : Storable (kobo (s.lineTotal bill.id))
  arrears : Storable (kobo (s.arrearsTotal bill.id))
  credit  : 0 < s.leftover bill.id amount → ∀ p, (s.table .payer).get bill.row.payer = some p →
    Storable (p.creditBalance.toRat + s.leftover bill.id amount)

theorem Payable.congr {channel : ℕ} {bill : Loaded Bill} {amount : ℚ} {ref : String}
    (h : Payable s channel bill amount ref) (hp : t.table .payment = s.table .payment)
    (hl : t.table .line = s.table .line) (ha : t.table .allocation = s.table .allocation)
    (hr : t.table .payer = s.table .payer) : Payable t channel bill amount ref := by
  have hout : t.outstandings bill.id = s.outstandings bill.id := by
    rw [Db.outstandings, Db.outstandings, Db.paidAmount_congr ha hp, Db.linesOf_congr hl]
  constructor
  case ref => simpa only [Db.Recorded, hp] using h.ref
  case paid => simpa only [Db.applied, hout] using h.paid
  case total => simpa only [Db.lineTotal_congr hl] using h.total
  case arrears => simpa only [Db.arrearsTotal_congr hl] using h.arrears
  case credit => simpa only [Db.leftover, hout, hr] using h.credit

section Runs

variable {r : PaymentRequest}

-- Nothing but a recorded reference keeps a payment from being recorded.
theorem runs_createPayment {geo : Option Coordinate × Option Coordinate} {ref : String}
    (hgeo : r.geo = .ok geo) (hamount : 0 ≤ r.amount ∧ r.amount ≤ maxAmount)
    (href : fitText 64 r.bankTxnRef = some ref)
    (hrefs : ∀ row : Payment, row.bill = b → row.channel = r.channel → row.terminal = r.terminal →
      row.postedBy = r.postedBy → ∀ ref ∈ foreignKeys .payment row, Database.Has s ref) :
    Runs (createPayment today b r) s fun out t => match out with
      | .ok k    => (ref ≠ "" → ¬s.Recorded r.channel ref) ∧
        (s.table .payment).get k = none ∧
        (∀ i ≠ k, (t.table .payment).get i = (s.table .payment).get i) ∧
        (∃ p, (t.table .payment).get k = some p) ∧ Only [Name.payment] s t
      | .error e => ref ≠ "" ∧ s.Recorded r.channel ref ∧ e.error = .integrityError := by
  obtain ⟨amount, ha⟩ := ofRat?_money hamount.1 hamount.2
  simp only [createPayment, hgeo]
  refine .bind <| .ret <| .bind <| runs_store (fun _ _ => .bind ?_) fun hn => by simp [ha] at hn
  refine runs_storeText (fun v hv => .bind ?_) fun hn => by simp [href] at hn
  have hv : ref = v.val := Option.some.inj <| href.symm.trans hv
  refine runs_create (hrefs _ rfl rfl rfl rfl) (fun hfree k hr hk => .bind ?_) fun u hu t' i hheld => ?_
  case refine_1 =>
    refine runs_save (by rw [insert_table hr]; exact Table.get_insert_self hk) (fun _ => .inl) <|
      .ret ⟨fun hne hrec => ?fresh, hk, fun i hi => ?_, ?_, ?_⟩
    case fresh =>
      obtain ⟨t', i, hi⟩ := (recorded_iff hne).mpr hrec
      exact hfree _ (by simp [← hv, hne]) t' i hi
    · rw [modify_table, Table.get_modify, if_neg hi, insert_table hr, Table.get_insert_ne hi]
    · exact ⟨_, by rw [modify_table, Table.get_modify, if_pos rfl, insert_table hr,
        Table.get_insert_self hk]; rfl⟩
    · exact IsTrans.trans _ _ _ (only_insert <| .head _) (only_modify <| .head _)
  case refine_2 =>
    simp only [uniqueKeys] at hu
    split at hu
    · simp at hu
    case isFalse hne =>
      rw [← hv] at hne hu
      obtain rfl := List.mem_singleton.mp hu
      exact ⟨hne, (recorded_iff hne).mp ⟨t', i, hheld⟩, rfl⟩

theorem runs_allocate {payment : ℕ} {due : ℕ → ℤ} {lines : List (Loaded BillLine)} {remaining applied : ℚ}
    (hle : remaining ≤ maxAmount) (hpayment : Database.Has s (.payment, payment))
    (hlines : ∀ l ∈ lines, Database.Has s (.line, l.id)) :
    Runs (allocate payment due lines remaining applied) s fun out t =>
      out = .ok (fifo (lines.map fun l => l.row.lineAmount.units - due l.id) remaining applied) ∧
      Only [Name.allocation] s t := by
  induction lines generalizing s remaining applied with
  | nil => exact .ret ⟨rfl, Std.Refl.refl _⟩
  | cons line lines hi =>
    unfold allocate
    rw [List.map_cons, fifo]
    split
    case isTrue => exact .ret ⟨rfl, Std.Refl.refl _⟩
    case isFalse hpos =>
      have hrest : ∀ l ∈ lines, Database.Has s (.line, l.id) := fun l hl => hlines l <| .tail _ hl
      simp only
      split
      case isTrue => exact hi hle hpayment hrest
      case isFalse hdebt =>
        have htake : 0 < min remaining (kobo (line.row.lineAmount.units - due line.id)) :=
          lt_min (not_le.mp hpos) (kobo_pos <| not_le.mp hdebt)
        obtain ⟨x, hx⟩ := ofRat?_money htake.le ((min_le_left _ _).trans hle)
        refine .bind <| runs_store (fun _ _ => .bind ?_) fun hn => by simp [hx] at hn
        refine runs_create ?_ (fun _ k hr hk => ?_) fun u hu => by simp at hu
        · simpa using ⟨hpayment, hlines line <| .head _⟩
        have hsub : Decimal.round (remaining - min remaining (kobo (line.row.lineAmount.units - due line.id)))
            ≤ maxAmount := by
          have hmin := min_le_left remaining (kobo (line.row.lineAmount.units - due line.id))
          exact round_le_max (by linarith) (by linarith)
        refine (hi hsub hpayment.insert fun l hl => (hrest l hl).insert).mono fun out t hpost => ?_
        obtain ⟨hout, ho⟩ := hpost
        exact ⟨hout, IsTrans.trans _ _ _ (only_insert <| .head _) ho⟩

theorem runs_lockFound {found acc : List (Loaded BillLine)} (hfound : ∀ l ∈ found, l ∈ s.linesOf b) :
    Runs ((found.map Loaded.id).foldlM (lockLine b) acc) s fun out t =>
      out = .ok (acc ++ found) ∧ t = s := by
  induction found generalizing acc with
  | nil => exact .ret ⟨by rw [List.append_nil], rfl⟩
  | cons l found hi =>
    have ⟨hget, hbill⟩ := mem_linesOf.mp <| hfound l <| .head _
    refine .bind <| .bind <| runs_selectForUpdate ?_
    rw [hget]
    refine .ret ?_
    rw [if_pos hbill]
    refine (hi fun l hl => hfound l <| .tail _ hl).mono fun out t ⟨hout, ht⟩ => ⟨?_, ht⟩
    rw [hout, List.append_assoc]
    rfl

theorem runs_allocateFifo {payment : ℕ} {amount : ℚ} (hle : amount ≤ maxAmount)
    (hpayment : Database.Has s (.payment, payment)) :
    Runs (allocateFifo payment amount b) s fun out t =>
      out = .ok (fifo (s.outstandings b) amount 0) ∧ Only [Name.allocation] s t := by
  refine .bind <| runs_select <| .bind <| (runs_lockFound fun _ => id).mono fun out t ⟨hout, ht⟩ => ?_
  subst hout ht
  refine .bind <| runs_select ?_
  exact runs_allocate hle hpayment fun l hl => ⟨l.row, (mem_linesOf.mp hl).1⟩

theorem runs_recomputeBill {row : Bill} {paid : ℚ} (hb : Database.Has s (.bill, b)) :
    Runs (recomputeBill today ⟨b, row⟩ paid) s fun out t => match out with
      | .ok _    => (Storable (kobo (s.lineTotal b)) ∧ Storable (kobo (s.arrearsTotal b))) ∧ Only [Name.bill] s t
      | .error e => ¬(Storable (kobo (s.lineTotal b)) ∧ Storable (kobo (s.arrearsTotal b))) ∧
        e.error = .dataError := by
  obtain ⟨r, hr⟩ := hb
  refine .bind <| runs_select <| .bind <| runs_store (fun total htotal => .bind ?_) fun hn => ?_
  · refine runs_store (fun arrears harrears => .bind ?_) fun hn => ?_
    · refine runs_save hr (fun _ => .inl) <| .ret ⟨?_, only_modify <| .head _⟩
      simp [Storable, htotal, harrears]
    · simp [Storable, hn]
  · simp [Storable, hn]

theorem runs_addCredit {payer : ℕ} {amount : ℚ} {p : Payer} (hp : (s.table .payer).get payer = some p) :
    Runs (addCredit payer amount) s fun out t => match out with
      | .ok _    => Storable (p.creditBalance.toRat + amount) ∧ Only [Name.payer] s t
      | .error e => ¬Storable (p.creditBalance.toRat + amount) ∧ e.error = .dataError := by
  refine .bind <| runs_update hp (fun _ => .inl) ?_
  simp only
  split
  case isTrue h => exact .raise ⟨by simpa [Storable] using h, rfl⟩
  case isFalse h => exact .ret ⟨by simpa [Storable, ← Option.isSome_iff_ne_none] using h, only_modify <| .head _⟩

theorem runs_createReceipt {council payment : ℕ} (hpayment : Database.Has s (.payment, payment))
    (hnew : ∀ k r, (s.table .receipt).get k = some r → r.payment ≠ payment) :
    Runs (createReceipt council payment) s fun out t => out = .ok () ∧ Only [Name.receipt] s t := by
  refine .bind <| runs_create (by simpa using hpayment) (fun _ k hr hk => ?_) fun u hu t' i hheld => ?_
  · refine runs_save (by rw [insert_table hr]; exact Table.get_insert_self hk) (fun _ => .inl) ⟨rfl, ?_⟩
    exact IsTrans.trans _ _ _ (only_insert <| .head _) (only_modify <| .head _)
  · obtain rfl := List.mem_singleton.mp hu
    obtain ⟨row, hrow, hu⟩ := hheld
    cases t' with
    | receipt => exact absurd (by simpa [eq_comm] using hu) <| hnew i row hrow
    | payment =>
      simp only [uniqueKeys] at hu
      split at hu <;> simp at hu
    | _ => simp at hu

theorem runs_closeDebtCaseForBill :
    Runs (closeDebtCaseForBill today b) s fun out t => out = .ok () ∧ Only [Name.debtCase] s t := by
  refine .bind <| runs_select ?_
  simp only
  split
  case h_2 => exact .ret ⟨rfl, Std.Refl.refl _⟩
  case h_1 case hcase =>
    obtain ⟨⟨k, row⟩, hfirst, rfl⟩ := Option.map_eq_some_iff.mp hcase
    split
    · exact runs_save (Table.first_some hfirst).1 (fun _ => .inl) ⟨rfl, only_modify <| .head _⟩
    · exact .ret ⟨rfl, Std.Refl.refl _⟩

-- A payment to a live bill is posted just if it can be, and is never rejected.
theorem runs_postPayment {bill : Loaded Bill} {geo : Option Coordinate × Option Coordinate} {ref : String}
    (hbill : (s.table .bill).get bill.id = some bill.row) (hlive : bill.row.status.terminal = false)
    (hgeo : r.geo = .ok geo) (hamount : 0 ≤ r.amount ∧ r.amount ≤ maxAmount)
    (href : fitText 64 r.bankTxnRef = some ref) (hchannel : Database.Has s (.channel, r.channel))
    (hterminal : ∀ k, r.terminal = some k → Database.Has s (.terminal, k))
    (huser : ∀ k, r.postedBy = some k → Database.Has s (.user, k)) :
    Runs (postPayment today bill r) s fun out t => match out with
      | .ok k    => Payable s r.channel bill r.amount ref ∧ Database.Has t (.payment, k) ∧
        Only [Name.payment, Name.allocation, Name.bill, Name.payer, Name.receipt, Name.debtCase] s t
      | .error e => ¬Payable s r.channel bill r.amount ref ∧ e.error.isPaymentRejected = false := by
  refine .of_refs fun hrefs => ?_
  unfold postPayment
  refine runs_when (fun h => ?_) fun _ => runs_when (fun h => ?_) fun _ => ?_
  · simp [h, BillStatus.terminal] at hlive
  · simp [h, BillStatus.terminal] at hlive
  obtain ⟨p, hp⟩ := hrefs .bill _ _ hbill (.payer, bill.row.payer) <| by simp
  refine .bind <| runs_getForUpdate hbill <| .bind <| (runs_createPayment hgeo hamount href ?refs).mono
    fun out s₁ hcreate => ?_
  case refs =>
    intro row hb hc ht hu ref hmem
    simp only [List.mem_append, List.mem_cons, List.not_mem_nil, or_false, List.mem_map,
      Option.mem_toList] at hmem
    rcases hmem with ((rfl | rfl) | ⟨k, hk, rfl⟩) | ⟨k, hk, rfl⟩
    · exact ⟨_, hb ▸ hbill⟩
    · exact hc ▸ hchannel
    · exact hterminal k <| ht ▸ hk
    · exact huser k <| hu ▸ hk
  cases out with
  | error e =>
    obtain ⟨hne, hrec, he⟩ := hcreate
    exact ⟨fun h => h.ref hne hrec, by rw [he]; rfl⟩
  | ok payment =>
    obtain ⟨hfree, hnew, hold, hpayment, ho₁⟩ := hcreate
    have hout : Db.outstandings s₁ bill.id = s.outstandings bill.id := by
      have hsourced : Sourced s := fun _ a ha => hrefs .allocation _ _ ha (.payment, a.payment) <| by simp
      rw [Db.outstandings, Db.outstandings, paidAmount_of_new hsourced ho₁ hnew hold,
        Db.linesOf_congr (ho₁ .line <| by simp)]
    refine .bind <| (runs_allocateFifo hamount.2 hpayment).mono fun out s₂ hpost => ?_
    obtain ⟨he, ho₂⟩ := hpost
    rw [he, hout, show fifo (s.outstandings bill.id) r.amount 0 =
      (s.applied bill.id r.amount, s.leftover bill.id r.amount) from rfl]
    simp only
    refine .bind <| runs_store (fun paid hpaid => .bind ?_) fun hn => ⟨fun h => ?_, rfl⟩
    case refine_2 => simpa [Storable, hn] using h.paid
    have hbill₂ : (s₂.table .bill).get bill.id = some bill.row := by
      rw [ho₂ .bill (by simp), ho₁ .bill (by simp), hbill]
    refine runs_save hbill₂ (fun _ => .inl) ?_
    generalize hs₃ : Database.modify s₂ .bill bill.id (fun b => { b with amountPaid := paid }) = s₃
    have hbill₃ : Database.Has s₃ (.bill, bill.id) := hs₃ ▸ Has.modify ⟨_, hbill₂⟩
    have ho₃ : Only [Name.allocation, Name.bill] s₁ s₃ :=
      IsTrans.trans _ _ _ (ho₂.mono <| by simp) (hs₃ ▸ only_modify <| by simp)
    have hline : s₃.table .line = s.table .line := (ho₃ .line <| by simp).trans (ho₁ .line <| by simp)
    refine .bind <| (runs_recomputeBill hbill₃).mono fun out s₄ hrecompute => ?_
    rw [Db.lineTotal_congr hline, Db.arrearsTotal_congr hline] at hrecompute
    cases out with
    | error e =>
      exact ⟨fun h => hrecompute.1 ⟨h.total, h.arrears⟩, by rw [hrecompute.2]; rfl⟩
    | ok status =>
      obtain ⟨htotals, ho₄⟩ := hrecompute
      have ho₄ : Only [Name.allocation, Name.bill] s₁ s₄ :=
        IsTrans.trans _ _ _ ho₃ (ho₄.mono <| by simp)
      have hpaid : Storable (Decimal.round (bill.row.amountPaid.toRat + s.applied bill.id r.amount)) := by
        rw [Storable, hpaid, Option.isSome_some]
      have finish : ∀ {s₅}, Only [Name.allocation, Name.bill, Name.payer] s₁ s₅ → Runs (do
            createReceipt r.council payment
            if status = .paid then closeDebtCaseForBill today bill.id
            return payment) s₅ fun out t => out = .ok payment ∧ Database.Has t (.payment, payment) ∧
              Only [Name.payment, Name.allocation, Name.bill, Name.payer, Name.receipt, Name.debtCase] s t := by
        intro s₅ ho₅
        have hreceipt : ∀ k row, (s₅.table .receipt).get k = some row → row.payment ≠ payment := by
          intro k row hrow he
          rw [ho₅ .receipt (by simp), ho₁ .receipt (by simp)] at hrow
          obtain ⟨q, hq⟩ := hrefs .receipt k row hrow (.payment, row.payment) (by simp)
          simp [he, hnew] at hq
        have ho₅' : Only [Name.payment, Name.allocation, Name.bill, Name.payer, Name.receipt,
            Name.debtCase] s s₅ := IsTrans.trans _ _ _ (ho₁.mono <| by simp) (ho₅.mono <| by simp)
        have hpayment₅ : Database.Has s₅ (.payment, payment) := Has.of_only hpayment ho₅ <| by simp
        refine .bind <| (runs_createReceipt hpayment₅ hreceipt).mono fun out s₆ hpost => ?_
        obtain ⟨hout, ho₆⟩ := hpost
        have ho₆' := IsTrans.trans _ _ _ ho₅' (ho₆.mono <| by simp)
        have hpayment₆ := hpayment₅.of_only ho₆ <| by simp
        subst hout
        refine runs_when (fun _ => .bind ?_) fun _ => .ret ⟨rfl, hpayment₆, ho₆'⟩
        refine runs_closeDebtCaseForBill.mono fun out s₇ hpost => ?_
        obtain ⟨hout, ho₇⟩ := hpost
        subst hout
        exact .ret ⟨rfl, hpayment₆.of_only ho₇ <| by simp, IsTrans.trans _ _ _ ho₆' (ho₇.mono <| by simp)⟩
      refine runs_when (fun hleft => .bind ?credited) fun hleft => ?settled
      case credited =>
        have hp₄ : (s₄.table .payer).get bill.row.payer = some p := by
          rw [ho₄ .payer (by simp), ho₁ .payer (by simp), hp]
        refine (runs_addCredit hp₄).mono fun out s₅ hcredit => ?_
        cases out with
        | error e => exact ⟨fun h => hcredit.1 <| h.credit hleft p hp, by rw [hcredit.2]; rfl⟩
        | ok _ =>
          refine (finish (IsTrans.trans _ _ _ (ho₄.mono <| by simp) (hcredit.2.mono <| by simp))).mono
            fun out t hpost => ?_
          obtain ⟨hout, ho⟩ := hpost
          refine hout ▸ ⟨⟨hfree, hpaid, htotals.1, htotals.2, fun _ p' hp' => ?_⟩, ho⟩
          · rw [Option.some.inj <| hp'.symm.trans hp]
            exact hcredit.1
      case settled =>
        refine (finish (ho₄.mono <| by simp)).mono fun out t hpost => ?_
        obtain ⟨hout, ho⟩ := hpost
        exact hout ▸ ⟨⟨hfree, hpaid, htotals.1, htotals.2, fun h => absurd h hleft⟩, ho⟩

end Runs

end ACRev360
