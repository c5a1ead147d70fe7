import ACRev360.Services.Effects

namespace ACRev360

open Relational Relational.Database

namespace Db

variable (s : Db)

def onBill (line bill : ℕ) : Bool :=
  (s.table .line).get line |>.any (·.bill = bill)

def billedTo (bill payer : ℕ) : Bool :=
  (s.table .bill).get bill |>.any (·.payer = payer)

-- What an allocation collects on a bill.
def collects (bill : ℕ) (a : PaymentAllocation) : ℤ :=
  if s.onBill a.line bill ∧ s.confirmed a.payment then a.amount.units else 0

-- The allocations of confirmed payments on the lines of a bill.
def collectedOn (bill : ℕ) : ℤ :=
  (s.table .allocation).sum fun _ => s.collects bill

-- What a payment credits to a payer.
def credits (payer k : ℕ) (p : Payment) : ℤ :=
  if s.billedTo p.bill payer ∧ p.txnStatus = .confirmed then p.amount.units - s.appliedBy k else 0

-- What the confirmed payments on a payer's bills leave over.
def creditOf (payer : ℕ) : ℤ :=
  (s.table .payment).sum (s.credits payer)

section Congr

variable {s} {t : Db}

theorem onBill_congr (h : t.table .line = s.table .line) : t.onBill = s.onBill := by
  funext l b
  rw [onBill, onBill, h]

theorem billedTo_congr (h : t.table .bill = s.table .bill) : t.billedTo = s.billedTo := by
  funext b p
  rw [billedTo, billedTo, h]

end Congr

-- The columns that are kept next to the payments say what the payments say.
structure Conserved : Prop where
  bills   : ∀ {b r}, (s.table .bill).get b = some r → r.amountPaid.units = s.collectedOn b
  credits : ∀ {p r}, (s.table .payer).get p = some r → r.creditBalance.units = s.creditOf p

end Db

-- The entries of the ledger refer to each other.
structure Entries (s : Db) : Prop where
  line    : ∀ {k l}, (s.table .line).get k = some l → ∃ r, (s.table .bill).get l.bill = some r
  payment : ∀ {k q}, (s.table .payment).get k = some q → ∃ r, (s.table .bill).get q.bill = some r
  -- An allocation is on a line of the bill that its payment is on.
  alloc   : ∀ {k a}, (s.table .allocation).get k = some a → 0 ≤ a.amount.units ∧
    ∃ l q, (s.table .line).get a.line = some l ∧ (s.table .payment).get a.payment = some q ∧
      l.bill = q.bill
  bounded : ∀ {k q}, (s.table .payment).get k = some q → s.appliedBy k ≤ q.amount.units

-- The books while a payment is on its way: the amount paid of bill `b` is `n` behind the payments, and
-- the credit of payer `p` is `m` behind them.
structure Books (b : ℕ) (n : ℤ) (p : ℕ) (m : ℤ) (s : Db) : Prop extends Entries s where
  bills   : ∀ {k r}, (s.table .bill).get k = some r →
    r.amountPaid.units + (if k = b then n else 0) = s.collectedOn k
  credits : ∀ {k r}, (s.table .payer).get k = some r →
    r.creditBalance.units + (if k = p then m else 0) = s.creditOf k

-- The books between the calls.
abbrev Ledger (s : Db) : Prop :=
  Books 0 0 0 0 s

variable {s t u : Db} {b p k : ℕ} {n m z w : ℤ}

-- What the services read of a payment.
def Payment.flow (q : Payment) : ℕ × Money × TxnStatus :=
  (q.bill, q.amount, q.txnStatus)

-- The payments, and what they are on, are the same.
structure Flow (s t : Db) : Prop where
  line       : ∀ k, ((t.table .line).get k).map (·.bill) = ((s.table .line).get k).map (·.bill)
  bill       : ∀ k, ((t.table .bill).get k).map (·.payer) = ((s.table .bill).get k).map (·.payer)
  payment    : ∀ k, ((t.table .payment).get k).map Payment.flow =
    ((s.table .payment).get k).map Payment.flow
  allocation : t.table .allocation = s.table .allocation

namespace Flow

instance : Std.Refl Flow where
  refl _ := ⟨fun _ => rfl, fun _ => rfl, fun _ => rfl, rfl⟩

instance : IsTrans Db Flow where
  trans _ _ _ h₁ h₂ := ⟨fun k => (h₂.line k).trans (h₁.line k), fun k => (h₂.bill k).trans (h₁.bill k),
    fun k => (h₂.payment k).trans (h₁.payment k), h₂.allocation.trans h₁.allocation⟩

theorem of_only {ts : List Name} (h : Database.Only ts s t)
    (hts : ∀ t ∈ [Name.line, .bill, .payment, .allocation], t ∉ ts) : Flow s t where
  line _     := by rw [h .line (hts _ (by simp))]
  bill _     := by rw [h .bill (hts _ (by simp))]
  payment _  := by rw [h .payment (hts _ (by simp))]
  allocation := h .allocation (hts _ (by simp))

theorem modify_bill {g : Bill → Bill} (hg : ∀ r, (g r).payer = r.payer) :
    Flow s (s.modify .bill k g) where
  line _     := rfl
  bill i     := by
    rw [modify_table, Table.get_modify]
    split
    · cases h : (s.table .bill).get k <;> simp_all
    · rfl
  payment _  := rfl
  allocation := rfl

theorem onBill (h : Flow s t) : t.onBill = s.onBill := by
  funext l b
  have := congrArg (Option.any (· = b)) (h.line l)
  simpa [Db.onBill, Option.any_map, Function.comp_def] using this

theorem billedTo (h : Flow s t) : t.billedTo = s.billedTo := by
  funext b p
  have := congrArg (Option.any (· = p)) (h.bill b)
  simpa [Db.billedTo, Option.any_map, Function.comp_def] using this

theorem confirmed (h : Flow s t) : t.confirmed = s.confirmed := by
  funext q
  have := congrArg (Option.any (·.2.2 = .confirmed)) (h.payment q)
  rw [Option.any_map, Option.any_map] at this
  exact this

theorem appliedBy (h : Flow s t) : t.appliedBy = s.appliedBy :=
  Db.appliedBy_congr h.allocation

theorem collectedOn (h : Flow s t) : t.collectedOn = s.collectedOn := by
  funext b
  rw [Db.collectedOn, Db.collectedOn, h.allocation]
  congr 1
  funext _ a
  rw [Db.collects, Db.collects, h.onBill, h.confirmed]

theorem creditOf (h : Flow s t) : t.creditOf = s.creditOf := by
  funext p
  have hcredits : t.credits p = s.credits p := by
    funext k q
    rw [Db.credits, Db.credits, h.billedTo, h.appliedBy]
  refine Table.sum_eq_of_map fun k => ?_
  have := congrArg (Option.map fun q : ℕ × Money × TxnStatus =>
    if s.billedTo q.1 p ∧ q.2.2 = .confirmed then q.2.1.units - s.appliedBy k else 0) (h.payment k)
  rw [Option.map_map, Option.map_map] at this
  rw [hcredits]
  exact this

theorem line_some (h : Flow s t) {l : BillLine} (hl : (t.table .line).get k = some l) :
    ∃ l', (s.table .line).get k = some l' ∧ l'.bill = l.bill := by
  simpa [hl, eq_comm] using h.line k

theorem bill_some (h : Flow s t) {r : Bill} (hr : (t.table .bill).get k = some r) :
    ∃ r', (s.table .bill).get k = some r' ∧ r'.payer = r.payer := by
  simpa [hr, eq_comm] using h.bill k

theorem payment_some (h : Flow s t) {q : Payment} (hq : (t.table .payment).get k = some q) :
    ∃ q', (s.table .payment).get k = some q' ∧ q'.flow = q.flow := by
  simpa [hq, eq_comm] using h.payment k

theorem symm (h : Flow s t) : Flow t s :=
  ⟨fun k => (h.line k).symm, fun k => (h.bill k).symm, fun k => (h.payment k).symm, h.allocation.symm⟩

theorem entries (h : Flow s t) (he : Entries s) : Entries t where
  line hl := by
    have ⟨l', hl', hb⟩ := h.line_some hl
    have ⟨r, hr⟩ := he.line hl'
    have ⟨r', hr', _⟩ := h.symm.bill_some hr
    exact ⟨r', hb ▸ hr'⟩
  payment hq := by
    have ⟨q', hq', hf⟩ := h.payment_some hq
    have ⟨r, hr⟩ := he.payment hq'
    have ⟨r', hr', _⟩ := h.symm.bill_some hr
    simp only [Payment.flow, Prod.mk.injEq] at hf
    exact ⟨r', hf.1 ▸ hr'⟩
  alloc ha := by
    have ⟨ha₀, l, q, hl, hq, hlq⟩ := he.alloc (h.allocation ▸ ha)
    have ⟨l', hl', hb⟩ := h.symm.line_some hl
    have ⟨q', hq', hf⟩ := h.symm.payment_some hq
    simp only [Payment.flow, Prod.mk.injEq] at hf
    exact ⟨ha₀, l', q', hl', hq', by rw [hb, hlq, hf.1]⟩
  bounded hq := by
    have ⟨q', hq', hf⟩ := h.payment_some hq
    simp only [Payment.flow, Prod.mk.injEq] at hf
    rw [h.appliedBy, ← hf.2.1]
    exact he.bounded hq'

end Flow

namespace Entries

variable {s : Db} {k : ℕ}

theorem applied_nonneg (h : Entries s) : 0 ≤ s.appliedBy k := by
  refine Table.sum_nonneg fun i a ha => ?_
  split
  · exact (h.alloc ha).1
  · exact le_refl _

-- No allocation is of a payment that is not there.
theorem applied_eq_zero (h : Entries s) (hk : (s.table .payment).get k = none) :
    s.appliedBy k = 0 := by
  refine Table.sum_eq_zero fun i a ha => if_neg ?_
  rintro rfl
  have ⟨_, _, _, _, hq, _⟩ := h.alloc ha
  simp [hk] at hq

theorem collects_nonneg (h : Entries s) {a : PaymentAllocation}
    (ha : (s.table .allocation).get k = some a) : 0 ≤ s.collects b a := by
  rw [Db.collects]
  split
  · exact (h.alloc ha).1
  · exact le_refl _

-- A confirmed payment has not applied more than its bill has collected.
theorem applied_le (h : Entries s) {q : Payment} (hq : (s.table .payment).get k = some q)
    (hc : q.txnStatus = .confirmed) : s.appliedBy k ≤ s.collectedOn q.bill := by
  refine Table.sum_le_sum fun i a ha => ?_
  split
  case isTrue hk =>
    have ⟨_, l, q', hl, hq', hlq⟩ := h.alloc ha
    rw [hk, hq] at hq'
    cases hq'
    simp [Db.collects, Db.onBill, hl, hlq, Db.confirmed, hk, hq, hc]
  case isFalse => exact h.collects_nonneg ha

theorem collectedOn_nonneg (h : Entries s) : 0 ≤ s.collectedOn b :=
  Table.sum_nonneg fun _ _ => h.collects_nonneg

theorem credits_nonneg (h : Entries s) {q : Payment} (hq : (s.table .payment).get k = some q) :
    0 ≤ s.credits p k q := by
  rw [Db.credits]
  split
  · have := h.bounded hq
    omega
  · exact le_refl _

theorem creditOf_nonneg (h : Entries s) : 0 ≤ s.creditOf p :=
  Table.sum_nonneg fun _ _ => h.credits_nonneg

end Entries

namespace Books

theorem settle (h : Books b 0 p 0 s) : Ledger s where
  toEntries  := h.toEntries
  bills hr   := by simpa using h.bills hr
  credits hr := by simpa using h.credits hr

theorem opened (h : Ledger s) : Books b 0 p 0 s where
  toEntries  := h.toEntries
  bills hr   := by simpa using h.bills hr
  credits hr := by simpa using h.credits hr

theorem conserved (h : Ledger s) : s.Conserved where
  bills hr   := by simpa using h.bills hr
  credits hr := by simpa using h.credits hr

-- Changes of the amount paid of the bill and of the credit of the payer.
theorem flow (h : Books b n p m s) (hf : Flow s t)
    (hb : ∀ {k r'}, (t.table .bill).get k = some r' → ∃ r, (s.table .bill).get k = some r ∧
      r'.amountPaid.units = r.amountPaid.units + if k = b then z else 0)
    (hp : ∀ {k r'}, (t.table .payer).get k = some r' → ∃ r, (s.table .payer).get k = some r ∧
      r'.creditBalance.units = r.creditBalance.units + if k = p then w else 0) :
    Books b (n - z) p (m - w) t where
  toEntries  := hf.entries h.toEntries
  bills hr' := by
    have ⟨r, hr, ha⟩ := hb hr'
    rw [hf.collectedOn, ← h.bills hr, ha]
    split <;> omega
  credits hr' := by
    have ⟨r, hr, ha⟩ := hp hr'
    rw [hf.creditOf, ← h.credits hr, ha]
    split <;> omega

theorem modify_bill (h : Books b n p m s) {g : Bill → Bill} (hg : ∀ r, (g r).payer = r.payer)
    (hz : ∀ r, (s.table .bill).get b = some r →
      (g r).amountPaid.units = r.amountPaid.units + z) : Books b (n - z) p m (s.modify .bill b g) := by
  have := h.flow (z := z) (w := 0) (.modify_bill (k := b) hg) (fun {k r'} hr' => ?bill) fun hr' => ⟨_, hr', by simp⟩
  case bill =>
    rw [modify_table, Table.get_modify] at hr'
    split at hr'
    case isTrue hk =>
      have ⟨r, hr, hg⟩ := Option.map_eq_some_iff.mp hr'
      exact ⟨r, hk ▸ hr, by rw [← hg, hz r hr, if_pos hk]⟩
    case isFalse hk => exact ⟨r', hr', by simp [hk]⟩
  simpa using this

theorem modify_payer (h : Books b n p m s) (ho : Database.Only [Name.payer] s t) {g : Payer → Payer}
    (ht : t.table .payer = (s.table .payer).modify p g)
    (hw : ∀ r, (s.table .payer).get p = some r →
      (g r).creditBalance.units = r.creditBalance.units + w) : Books b n p (m - w) t := by
  have := h.flow (z := 0) (w := w) (.of_only ho (by simp)) (fun hr' => ⟨_, ho .bill (by simp) ▸ hr', by simp⟩)
    fun {k r'} hr' => ?payer
  case payer =>
    rw [ht, Table.get_modify] at hr'
    split at hr'
    case isTrue hk =>
      have ⟨r, hr, hg⟩ := Option.map_eq_some_iff.mp hr'
      exact ⟨r, hk ▸ hr, by rw [← hg, hw r hr, if_pos hk]⟩
    case isFalse hk => exact ⟨r', hr', by simp [hk]⟩
  simpa using this

theorem insert_payment (h : Books b n p m s) (ho : Database.Only [Name.payment] s t) {q : Payment}
    (ht : t.table .payment = (s.table .payment).insert k q)
    (hk : (s.table .payment).get k = none) {r : Bill} (hb : (s.table .bill).get b = some r)
    (hp : r.payer = p) (hq : q.bill = b) (hc : q.txnStatus = .confirmed) (ha : 0 ≤ q.amount.units) :
    Books b n p (m + q.amount.units) t := by
  have hget : ∀ {i q'}, (t.table .payment).get i = some q' →
      (i = k ∧ q' = q) ∨ (s.table .payment).get i = some q' := fun {i q'} hi => by
    rw [ht, Table.get_insert, hk] at hi
    split at hi <;> simp_all
  have hold : ∀ {i q'}, (s.table .payment).get i = some q' →
      (t.table .payment).get i = some q' := fun {i q'} hi => by
    have : i ≠ k := by rintro rfl; simp [hk] at hi
    rw [ht, Table.get_insert_ne this, hi]
  have hbill : t.table .bill = s.table .bill := ho .bill (by decide)
  have hline : t.table .line = s.table .line := ho .line (by decide)
  have halloc : t.table .allocation = s.table .allocation := ho .allocation (by decide)
  have happlied := Db.appliedBy_congr halloc
  refine ⟨⟨fun hl => ?line, fun hq' => ?paid, fun ha' => ?alloc, fun hq' => ?bounded⟩,
    fun {k' r'} hr' => ?bills, fun {k' r'} hr' => ?credits⟩
  case line => exact hbill ▸ h.line (hline ▸ hl)
  case paid =>
    rw [hbill]
    rcases hget hq' with ⟨rfl, rfl⟩ | hq'
    · exact ⟨r, hq ▸ hb⟩
    · exact h.payment hq'
  case alloc =>
    have ⟨ha₀, l, q', hl, hq', hlq⟩ := h.alloc (halloc ▸ ha')
    exact ⟨ha₀, l, q', hline ▸ hl, hold hq', hlq⟩
  case bounded =>
    rw [happlied]
    rcases hget hq' with ⟨rfl, rfl⟩ | hq'
    · rwa [h.applied_eq_zero hk]
    · exact h.bounded hq'
  case bills =>
    rw [hbill] at hr'
    rw [h.bills hr', Db.collectedOn, Db.collectedOn, halloc]
    refine Table.sum_congr fun i a ha' => ?_
    have ⟨_, _, _, _, hq', _⟩ := h.alloc ha'
    simp [Db.collects, Db.onBill_congr hline, Db.confirmed, hold hq', hq']
  case credits =>
    have hsum : (s.table .payment).sum (t.credits k') = s.creditOf k' :=
      Table.sum_congr fun _ _ _ => by
        rw [Db.credits, Db.credits, Db.billedTo_congr hbill, happlied]
    have hnew : t.credits k' k q = if k' = p then q.amount.units else 0 := by
      simp [Db.credits, Db.billedTo, hbill, hq, hb, hp, hc, happlied, h.applied_eq_zero hk, eq_comm]
    have := h.credits (ho .payer (by decide) ▸ hr')
    rw [Db.creditOf, ht, Table.sum_insert hk, hsum, hnew, ← this]
    split <;> omega

theorem insert_allocation (h : Books b n p m s) (ho : Database.Only [Name.allocation] s t)
    {a : PaymentAllocation} (ht : t.table .allocation = (s.table .allocation).insert k a)
    (hk : (s.table .allocation).get k = none) {r : Bill} (hb : (s.table .bill).get b = some r)
    (hp : r.payer = p) {l : BillLine} (hl : (s.table .line).get a.line = some l) (hlb : l.bill = b)
    {q : Payment} (hq : (s.table .payment).get a.payment = some q) (hqb : q.bill = b)
    (hc : q.txnStatus = .confirmed) (ha : 0 ≤ a.amount.units)
    (hle : s.appliedBy a.payment + a.amount.units ≤ q.amount.units) :
    Books b (n + a.amount.units) p (m - a.amount.units) t := by
  have hbill : t.table .bill = s.table .bill := ho .bill (by decide)
  have hline : t.table .line = s.table .line := ho .line (by decide)
  have hpayment : t.table .payment = s.table .payment := ho .payment (by decide)
  have happlied : ∀ i, t.appliedBy i =
      (if a.payment = i then a.amount.units else 0) + s.appliedBy i := fun i => by
    rw [Db.appliedBy, ht, Table.sum_insert hk]
    rfl
  refine ⟨⟨fun hl' => ?line, fun hq' => ?paid, fun ha' => ?alloc, fun hq' => ?bounded⟩,
    fun {k' r'} hr' => ?bills, fun {k' r'} hr' => ?credits⟩
  case line => exact hbill ▸ h.line (hline ▸ hl')
  case paid => exact hbill ▸ h.payment (hpayment ▸ hq')
  case alloc =>
    rw [ht, Table.get_insert, hk] at ha'
    rw [hline, hpayment]
    split at ha'
    · cases ha'
      exact ⟨ha, l, q, hl, hq, hlb.trans hqb.symm⟩
    · exact h.alloc ha'
  case bounded =>
    rw [hpayment] at hq'
    have := h.bounded hq'
    rw [happlied]
    split
    · simp_all
      omega
    · omega
  case bills =>
    have hcollects : t.collects k' = s.collects k' := by
      funext a'
      rw [Db.collects, Db.collects, Db.onBill_congr hline, Db.confirmed_congr hpayment]
    have hnew : s.collects k' a = if k' = b then a.amount.units else 0 := by
      simp [Db.collects, Db.onBill, hl, hlb, Db.confirmed, hq, hc, eq_comm]
    have := h.bills (hbill ▸ hr')
    rw [Db.collectedOn, hcollects, ht, Table.sum_insert hk, hnew, ← Db.collectedOn, ← this]
    split <;> omega
  case credits =>
    have hsum := Table.sum_eq_of_ne (f := s.credits k') (g := t.credits k') hq fun i q' hi _ => by
      rw [Db.credits, Db.credits, Db.billedTo_congr hbill, happlied, if_neg hi.symm, zero_add]
    have hnew : t.credits k' a.payment q - s.credits k' a.payment q
        = -(if k' = p then a.amount.units else 0) := by
      have : s.billedTo q.bill k' = decide (k' = p) := by simp [Db.billedTo, hqb, hb, hp, eq_comm]
      rw [Db.credits, Db.credits, Db.billedTo_congr hbill, happlied, if_pos rfl, this]
      simp only [decide_eq_true_eq, hc, and_true]
      split <;> omega
    have := h.credits (ho .payer (by decide) ▸ hr')
    rw [Db.creditOf, hpayment, hsum, hnew, ← Db.creditOf, ← this]
    split <;> omega

-- The payment gives back what it has applied to its bill and what it has credited to its payer.
theorem revoke_payment (h : Books b n p m s) (ho : Database.Only [Name.payment] s t)
    {g : Payment → Payment} (ht : t.table .payment = (s.table .payment).modify k g) {q : Payment}
    (hq : (s.table .payment).get k = some q) (hc : q.txnStatus = .confirmed)
    (hg : (g q).bill = q.bill ∧ (g q).amount = q.amount ∧ (g q).txnStatus ≠ .confirmed) {r : Bill}
    (hb : (s.table .bill).get b = some r) (hqb : q.bill = b) (hp : r.payer = p) :
    Books b (n - s.appliedBy k) p (m - (q.amount.units - s.appliedBy k)) t := by
  have hbill : t.table .bill = s.table .bill := ho .bill (by decide)
  have hline : t.table .line = s.table .line := ho .line (by decide)
  have halloc : t.table .allocation = s.table .allocation := ho .allocation (by decide)
  have happlied := Db.appliedBy_congr halloc
  have hold : ∀ {i q'}, (t.table .payment).get i = some q' →
      ∃ q₀, (s.table .payment).get i = some q₀ ∧ q₀.bill = q'.bill ∧ q₀.amount = q'.amount := by
    intro i q' hi
    rw [ht, Table.get_modify] at hi
    split at hi
    case isTrue hik =>
      rw [hq] at hi
      cases hi
      exact ⟨q, hik ▸ hq, hg.1.symm, hg.2.1.symm⟩
    case isFalse => exact ⟨q', hi, rfl, rfl⟩
  have hnew : ∀ {i q₀}, (s.table .payment).get i = some q₀ →
      ∃ q', (t.table .payment).get i = some q' ∧ q'.bill = q₀.bill := by
    intro i q₀ hi
    rw [ht, Table.get_modify]
    split <;> simp_all
  refine ⟨⟨fun hl' => ?line, fun hq' => ?paid, fun ha' => ?alloc, fun hq' => ?bounded⟩,
    fun {k' r'} hr' => ?bills, fun {k' r'} hr' => ?credits⟩
  case line => exact hbill ▸ h.line (hline ▸ hl')
  case paid =>
    have ⟨q₀, hq₀, hqb₀, _⟩ := hold hq'
    exact hbill ▸ hqb₀ ▸ h.payment hq₀
  case alloc =>
    have ⟨ha₀, l, q₀, hl, hq₀, hlq⟩ := h.alloc (halloc ▸ ha')
    have ⟨q', hq', hqb'⟩ := hnew hq₀
    exact ⟨ha₀, l, q', hline ▸ hl, hq', hlq.trans hqb'.symm⟩
  case bounded =>
    have ⟨q₀, hq₀, _, ha₀⟩ := hold hq'
    rw [happlied, ← ha₀]
    exact h.bounded hq₀
  case bills =>
    have hconfirmed : ∀ i, t.confirmed i = (s.confirmed i && decide (i ≠ k)) := fun i => by
      rw [Db.confirmed, Db.confirmed, ht, Table.get_modify]
      split <;> simp_all
    have hsum : t.collectedOn k' = s.collectedOn k' - if k' = b then s.appliedBy k else 0 := by
      split
      case isTrue hk' =>
        rw [Db.collectedOn, Db.collectedOn, Db.appliedBy, halloc, ← Table.sum_sub]
        refine Table.sum_congr fun i a ha => ?_
        have ⟨_, l, q₀, hl, hq₀, hlq⟩ := h.alloc ha
        rw [Db.collects, Db.collects, Db.onBill_congr hline, hconfirmed]
        by_cases hak : a.payment = k
        · simp_all [Db.onBill, Db.confirmed]
        · simp [hak]
      case isFalse hk' =>
        rw [Db.collectedOn, Db.collectedOn, halloc, sub_zero]
        refine Table.sum_congr fun i a ha => ?_
        have ⟨_, l, q₀, hl, hq₀, hlq⟩ := h.alloc ha
        rw [Db.collects, Db.collects, Db.onBill_congr hline, hconfirmed]
        by_cases hak : a.payment = k
        · rw [hak, hq] at hq₀
          cases hq₀
          have : ¬b = k' := fun hb => hk' hb.symm
          simp [Db.onBill, hl, hlq, hqb, this]
        · simp [hak]
    have := h.bills (hbill ▸ hr')
    rw [hsum, ← this]
    split <;> omega
  case credits =>
    have hcredits : t.credits = s.credits := by
      funext p k q
      rw [Db.credits, Db.credits, Db.billedTo_congr hbill, happlied]
    have hbefore : s.credits k' k q = if k' = p then q.amount.units - s.appliedBy k else 0 := by
      simp [Db.credits, Db.billedTo, hqb, hb, hp, hc, eq_comm]
    have hafter : s.credits k' k (g q) = 0 := by
      rw [Db.credits, if_neg (by simp [hg])]
    have := h.credits (ho .payer (by decide) ▸ hr')
    rw [Db.creditOf, hcredits, ht, Table.sum_modify hq, hbefore, hafter, ← Db.creditOf, ← this]
    split <;> omega

end Books

-- The columns that are kept next to the payments stay as they are, too.
structure Still (s t : Db) : Prop extends Flow s t where
  paid   : ∀ k, ((t.table .bill).get k).map (·.amountPaid) = ((s.table .bill).get k).map (·.amountPaid)
  credit : ∀ k, ((t.table .payer).get k).map (·.creditBalance) =
    ((s.table .payer).get k).map (·.creditBalance)

namespace Still

instance : Std.Refl Still where
  refl _ := ⟨Std.Refl.refl _, fun _ => rfl, fun _ => rfl⟩

instance : IsTrans Db Still where
  trans _ _ _ h₁ h₂ := ⟨IsTrans.trans _ _ _ h₁.toFlow h₂.toFlow, fun k => (h₂.paid k).trans (h₁.paid k),
    fun k => (h₂.credit k).trans (h₁.credit k)⟩

theorem of_only {ts : List Name} (h : Database.Only ts s t)
    (hts : ∀ t ∈ [Name.line, .bill, .payment, .allocation, .payer], t ∉ ts) : Still s t where
  toFlow   := .of_only h fun t ht => hts t (by simp_all; tauto)
  paid _   := by rw [h .bill (hts _ (by simp))]
  credit _ := by rw [h .payer (hts _ (by simp))]

theorem modify_bill {g : Bill → Bill} (hg : KeepsMoney g) : Still s (s.modify .bill k g) where
  toFlow     := .modify_bill fun r => (hg r).1
  paid i     := by
    rw [modify_table, Table.get_modify]
    split
    · cases h : (s.table .bill).get k <;> simp_all [(hg _).2]
    · rfl
  credit _   := rfl

theorem modify_payment {g : Payment → Payment} (hg : ∀ q, (g q).flow = q.flow) :
    Still s (s.modify .payment k g) where
  line _     := rfl
  bill _     := rfl
  payment i  := by
    rw [modify_table, Table.get_modify]
    split
    · cases h : (s.table .payment).get k <;> simp_all
    · rfl
  allocation := rfl
  paid _     := rfl
  credit _   := rfl

theorem books (h : Still s t) (hb : Books b n p m s) : Books b n p m t := by
  have := hb.flow (z := 0) (w := 0) h.toFlow (fun {k r'} hr' => ?bill) fun {k r'} hr' => ?payer
  case bill =>
    have ⟨r, hr, ha⟩ := Option.map_eq_some_iff.mp <| (h.paid k).symm.trans (congrArg _ hr')
    exact ⟨r, hr, by simp [ha]⟩
  case payer =>
    have ⟨r, hr, ha⟩ := Option.map_eq_some_iff.mp <| (h.credit k).symm.trans (congrArg _ hr')
    exact ⟨r, hr, by simp [ha]⟩
  simpa using this

end Still

-- What happens to the books apart from payments: bills and lines are added, and the lines `ls` may be
-- removed.
structure Quiet (ls : List ℕ) (s t : Db) : Prop where
  payment    : t.table .payment = s.table .payment
  allocation : t.table .allocation = s.table .allocation
  payer      : t.table .payer = s.table .payer
  bill       : ∀ {k r}, (s.table .bill).get k = some r →
    ∃ r', (t.table .bill).get k = some r' ∧ r'.payer = r.payer ∧ r'.amountPaid = r.amountPaid
  fresh      : ∀ {k r}, (s.table .bill).get k = none → (t.table .bill).get k = some r → r.amountPaid = 0
  line       : ∀ {k l}, k ∉ ls → (s.table .line).get k = some l →
    ∃ l', (t.table .line).get k = some l' ∧ l'.bill = l.bill

namespace Quiet

variable {ls : List ℕ}

instance : Std.Refl (Quiet ls) where
  refl _ := ⟨rfl, rfl, rfl, fun h => ⟨_, h, rfl, rfl⟩, fun h h' => by simp [h] at h',
    fun _ h => ⟨_, h, rfl⟩⟩

theorem trans (h₁ : Quiet ls s t) (h₂ : Quiet ls t u) : Quiet ls s u where
  payment    := h₂.payment.trans h₁.payment
  allocation := h₂.allocation.trans h₁.allocation
  payer      := h₂.payer.trans h₁.payer
  bill hr    := by
    have ⟨r₁, hr₁, hp₁, ha₁⟩ := h₁.bill hr
    have ⟨r₂, hr₂, hp₂, ha₂⟩ := h₂.bill hr₁
    exact ⟨r₂, hr₂, hp₂.trans hp₁, ha₂.trans ha₁⟩
  fresh {k r} hn hr := by
    cases ht : (t.table .bill).get k with
    | none => exact h₂.fresh ht hr
    | some r₁ =>
      have ⟨r₂, hr₂, _, ha₂⟩ := h₂.bill ht
      rw [hr] at hr₂
      cases hr₂
      exact ha₂.trans (h₁.fresh hn ht)
  line hk hl := by
    have ⟨l₁, hl₁, hb₁⟩ := h₁.line hk hl
    have ⟨l₂, hl₂, hb₂⟩ := h₂.line hk hl₁
    exact ⟨l₂, hl₂, hb₂.trans hb₁⟩

instance : IsTrans Db (Quiet ls) where
  trans _ _ _ := trans

theorem of_only {ts : List Name} (h : Database.Only ts s t)
    (hts : ∀ t ∈ [Name.line, .bill, .payment, .allocation, .payer], t ∉ ts) : Quiet ls s t where
  payment    := h .payment (hts _ (by simp))
  allocation := h .allocation (hts _ (by simp))
  payer      := h .payer (hts _ (by simp))
  bill hr    := ⟨_, by rw [h .bill (hts _ (by simp)), hr], rfl, rfl⟩
  fresh hn hr := by simp [h .bill (hts _ (by simp)), hn] at hr
  line _ hl  := ⟨_, by rw [h .line (hts _ (by simp)), hl], rfl⟩

theorem insert_bill {r : Bill} (hr : r.amountPaid = 0) : Quiet ls s (s.insert .bill k r) where
  payment    := insert_table_ne (by decide)
  allocation := insert_table_ne (by decide)
  payer      := insert_table_ne (by decide)
  bill hr    := ⟨_, get_insert_of_some hr, rfl, rfl⟩
  fresh hn hr' := by
    rcases get_insert_cases hr' with ⟨rfl, rfl⟩ | h
    · exact hr
    · simp [hn] at h
  line _ hl  := ⟨_, by rwa [insert_table_ne (by decide)], rfl⟩

theorem modify_bill {g : Bill → Bill} (hg : KeepsMoney g) : Quiet ls s (s.modify .bill k g) where
  payment    := rfl
  allocation := rfl
  payer      := rfl
  bill {i r} hr := by
    rw [modify_table, Table.get_modify]
    split
    case isTrue hi => exact ⟨g r, by simp [← hi, hr], hg r⟩
    case isFalse => exact ⟨r, hr, rfl, rfl⟩
  fresh {i r} hn hr := by
    rw [modify_table, Table.get_modify] at hr
    split at hr <;> simp_all
  line _ hl  := ⟨_, hl, rfl⟩

theorem insert_line {l : BillLine} : Quiet ls s (s.insert .line k l) where
  payment    := insert_table_ne (by decide)
  allocation := insert_table_ne (by decide)
  payer      := insert_table_ne (by decide)
  bill hr    := ⟨_, by rwa [insert_table_ne (by decide)], rfl, rfl⟩
  fresh hn hr := by simp [insert_table_ne, hn] at hr
  line _ hl  := ⟨_, get_insert_of_some hl, rfl⟩

theorem modify_line {g : BillLine → BillLine} (hg : KeepsPlace g) :
    Quiet ls s (s.modify .line k g) where
  payment    := rfl
  allocation := rfl
  payer      := rfl
  bill hr    := ⟨_, hr, rfl, rfl⟩
  fresh hn hr := by simp_all
  line {i l} _ hl := by
    rw [modify_table, Table.get_modify]
    split
    case isTrue hi => exact ⟨g l, by simp [← hi, hl], (hg l).1⟩
    case isFalse => exact ⟨l, hl, rfl⟩

theorem erase_line (hk : k ∈ ls) : Quiet ls s (s.erase .line k) where
  payment    := rfl
  allocation := rfl
  payer      := rfl
  bill hr    := ⟨_, hr, rfl, rfl⟩
  fresh hn hr := by simp_all
  line {i l} hi hl := by
    have : i ≠ k := fun h => hi (h ▸ hk)
    exact ⟨l, by simp [this, hl], rfl⟩

theorem collectedOn (h : Quiet ls s t) (hs : Entries s)
    (hls : ∀ {k a}, (s.table .allocation).get k = some a → a.line ∉ ls) :
    t.collectedOn b = s.collectedOn b := by
  rw [Db.collectedOn, Db.collectedOn, h.allocation]
  refine Table.sum_congr fun i a ha => ?_
  have ⟨_, l, _, hl, _, _⟩ := hs.alloc ha
  have ⟨l', hl', hb⟩ := h.line (hls ha) hl
  simp [Db.collects, Db.onBill, hl, hl', hb, Db.confirmed_congr h.payment]

theorem creditOf (h : Quiet ls s t) (hs : Entries s) : t.creditOf p = s.creditOf p := by
  rw [Db.creditOf, Db.creditOf, h.payment]
  refine Table.sum_congr fun i q hq => ?_
  have ⟨r, hr⟩ := hs.payment hq
  have ⟨r', hr', hp, _⟩ := h.bill hr
  simp [Db.credits, Db.billedTo, hr, hr', hp, Db.appliedBy_congr h.allocation]

-- The lines that are removed have no allocations.
theorem ledger (h : Quiet ls s t) (hs : Ledger s) (hv : Database.valid t)
    (hls : ∀ {k a}, (s.table .allocation).get k = some a → a.line ∉ ls) : Ledger t where
  line hl    := valid_ref hv hl (.head _)
  payment hq := valid_ref hv hq (.head _)
  alloc ha   := by
    have ha := h.allocation ▸ ha
    have ⟨ha₀, l, q, hl, hq, hlq⟩ := hs.alloc ha
    have ⟨l', hl', hb⟩ := h.line (hls ha) hl
    exact ⟨ha₀, l', q, hl', h.payment ▸ hq, hb.trans hlq⟩
  bounded hq := Db.appliedBy_congr h.allocation ▸ hs.bounded (h.payment ▸ hq)
  bills {b r} hr := by
    rw [h.collectedOn hs.toEntries hls]
    cases hb : (s.table .bill).get b with
    | some r₀ =>
      have ⟨r', hr', _, ha⟩ := h.bill hb
      rw [hr] at hr'
      cases hr'
      rw [ha]
      exact hs.bills hb
    | none =>
      have : s.collectedOn b = 0 := Table.sum_eq_zero fun i a ha => by
        have ⟨_, l, _, hl, _, _⟩ := hs.alloc ha
        have ⟨r', hr'⟩ := hs.line hl
        have : l.bill ≠ b := fun he => by simp [he, hb] at hr'
        simp [Db.collects, Db.onBill, hl, this]
      simp [this, h.fresh hb hr]
  credits hr := by
    rw [h.creditOf hs.toEntries]
    exact hs.credits (h.payer ▸ hr)

end Quiet

end ACRev360
