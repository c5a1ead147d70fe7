import ACRev360.Theorems.Books

namespace ACRev360

open Relational Relational.Database

variable {s t : Db} {b p payment : ℕ} {n m : ℤ} {today : Date}

section Statements

theorem recomputeBill_still {bill : Loaded Bill} {amountPaid : ℚ} :
    (recomputeBill today bill amountPaid).Keeps Still :=
  recomputeBill_keeps .modify_bill

theorem createReceipt_still {council : ℕ} : (createReceipt council payment).Keeps Still :=
  createReceipt_keeps fun h => .of_only h (by simp)

theorem closeDebtCaseForBill_still {bill : ℕ} : (closeDebtCaseForBill today bill).Keeps Still :=
  closeDebtCaseForBill_keeps <| .of_only (only_modify <| .head []) (by simp)

-- The credit of the payer changes by the amount, rounded together with what the payer has.
theorem post_addCredit {amount : ℚ} : Prog.Post (addCredit p amount) s <|
    Prog.OnReturn fun _ t => Database.Only [Name.payer] s t ∧
      ∃ g : Payer → Payer, t.table .payer = (s.table .payer).modify p g ∧
        ∀ r, (s.table .payer).get p = some r →
          (g r).creditBalance.units = roundHalfAway ((r.creditBalance.toRat + amount) * 10 ^ 2) := by
  refine .bind <| post_update (fun r hr => ?found) fun hn => ?none
  case none =>
    refine .ret ⟨Std.Refl.refl _, id, ?_, fun r hr => ?_⟩
    · rw [Table.modify_of_none hn]
    · simp [hn] at hr
  case found =>
    simp only [Option.any_some]
    split
    case isTrue => exact .raise trivial
    case isFalse hsum =>
      refine .ret ⟨only_modify <| .head _, _, modify_table, fun r' hr' => ?_⟩
      rw [hr] at hr'
      cases hr'
      cases hc : (Numeric.ofRat? (r.creditBalance.toRat + amount) : Option Money) with
      | none => simp [hc] at hsum
      | some c => simpa [hc] using Numeric.ofRat?_units hc

end Statements

-- What has been taken of a positive amount for one line more: either the line's outstanding, in
-- whole kobo, or all that remained.
theorem take_cases {amount remaining applied : ℚ} {z outstanding : ℤ} (hfit : Decimal.Fits amount)
    (hsum : applied + remaining = amount) (hpos : 0 < remaining) (hz : 0 ≤ z) (ha : applied = kobo z)
    (ho : 0 < outstanding) :
    let take := min remaining (kobo outstanding)
    0 ≤ take ∧ take ≤ remaining ∧ Decimal.round (applied + take) = applied + take ∧
      Decimal.round (remaining - take) = remaining - take ∧
      (0 < remaining - take → applied + take = kobo (z + outstanding)) := by
  have hkobo := kobo_pos ho
  have hremaining : Decimal.Fits remaining := by
    have : remaining = amount - z / 100 := by rw [← hsum, ha, kobo]; ring
    rw [this]
    refine hfit.sub hz ?_
    rw [← kobo, ← ha]
    linarith
  rcases le_total remaining (kobo outstanding) with hle | hle
  case inl =>
    simp only [min_eq_left hle, sub_self, hsum, lt_self_iff_false, false_implies]
    refine ⟨hpos.le, le_refl _, hfit.round_eq, ?_, trivial⟩
    exact Decimal.Fits.round_eq ⟨2, 0, le_refl _, by norm_num [Decimal.precision], by norm_num⟩
  case inr =>
    simp only [min_eq_right hle, ha, kobo_add]
    refine ⟨hkobo.le, hle, ?_, (hremaining.sub ho.le hle).round_eq, fun _ => trivial⟩
    refine (hfit.of_le (by omega) ?_).round_eq
    rw [← kobo, ← kobo_add, ← ha]
    linarith

-- What a call of `post_payment` has done with the payment by the time that `taken` is applied to
-- the bill and `remaining` remains.
structure Filling (b p payment : ℕ) (amount taken remaining : ℚ) (s : Db) : Prop where
  books   : Books b (cents taken) p (cents amount - cents taken) s
  bill    : ∃ r, (s.table .bill).get b = some r ∧ r.payer = p
  source  : ∃ q, (s.table .payment).get payment = some q ∧ q.bill = b ∧ q.txnStatus = .confirmed ∧
    q.amount.units = cents amount
  applied : s.appliedBy payment = cents taken
  sum     : taken + remaining = amount
  left    : 0 ≤ remaining
  -- Only the last allocation can be of a fraction of a kobo.
  whole   : 0 < remaining → ∃ z : ℤ, 0 ≤ z ∧ taken = kobo z

namespace Filling

theorem start (h : Ledger s) {row : Bill} (hb : (s.table .bill).get b = some row) {k : ℕ} {q : Payment}
    {amount : ℚ} (hr : k ∉ s.retired .payment) (hk : (s.table .payment).get k = none) (hq : q.bill = b)
    (hc : q.txnStatus = .confirmed) (hamount : q.amount.units = cents amount) (ha : 0 ≤ amount) :
    Filling b row.payer k amount 0 amount (s.insert .payment k q) where
  books   := by
    have := Books.insert_payment h.opened (only_insert <| .head _) (insert_table hr) hk hb rfl hq hc
      (hamount ▸ cents_nonneg ha)
    rw [hamount] at this
    simpa using this
  bill    := ⟨row, by rwa [insert_table_ne (by decide)], rfl⟩
  source  := ⟨q, by rw [insert_table hr, Table.get_insert_self hk], hq, hc, hamount⟩
  applied := by
    rw [Db.appliedBy_congr (insert_table_ne (by decide)), h.applied_eq_zero hk, cents_zero]
  sum     := zero_add _
  left    := ha
  whole _ := ⟨0, le_refl _, by simp [kobo]⟩

theorem still {amount taken remaining : ℚ} (h : Filling b p payment amount taken remaining s)
    (hs : Still s t) : Filling b p payment amount taken remaining t where
  books   := hs.books h.books
  bill    := by
    have ⟨r, hr, hp⟩ := h.bill
    have ⟨r', hr', hp'⟩ := hs.symm.bill_some hr
    exact ⟨r', hr', hp'.trans hp⟩
  source  := by
    have ⟨q, hq, hf⟩ := h.source
    have ⟨q', hq', hf'⟩ := hs.symm.payment_some hq
    simp only [Payment.flow, Prod.mk.injEq] at hf'
    exact ⟨q', hq', by rwa [hf'.1, hf'.2.1, hf'.2.2]⟩
  applied := hs.appliedBy ▸ h.applied
  sum     := h.sum
  left    := h.left
  whole   := h.whole

theorem fill {amount taken remaining : ℚ} {outstanding : ℤ} {k line : ℕ} {x : Money}
    (h : Filling b p payment amount taken remaining s) (hfit : Decimal.Fits amount)
    (hpos : 0 < remaining) (ho : 0 < outstanding) (hline : s.onBill line b)
    (hx : x.units = cents (min remaining (kobo outstanding))) (hr : k ∉ s.retired .allocation)
    (hk : (s.table .allocation).get k = none) :
    Filling b p payment amount (Decimal.round (taken + min remaining (kobo outstanding)))
      (Decimal.round (remaining - min remaining (kobo outstanding)))
      (s.insert .allocation k ⟨payment, line, x⟩) := by
  have ⟨z, hz, ha⟩ := h.whole hpos
  have ⟨htake, hle, hround₁, hround₂, hwhole⟩ := take_cases hfit h.sum hpos hz ha ho
  rw [hround₁, hround₂]
  generalize min remaining (kobo outstanding) = take at *
  have hcents : cents (taken + take) = cents taken + cents take := by
    rw [ha, cents_kobo_add hz htake, cents_kobo]
  have ⟨r, hbill, hp⟩ := h.bill
  have ⟨q, hq, hqb, hc, hamount⟩ := h.source
  have ⟨l, hl, hlb⟩ : ∃ l, (s.table .line).get line = some l ∧ l.bill = b := by
    simpa [Db.onBill, Option.any_eq_true] using hline
  have hbound : s.appliedBy payment + x.units ≤ q.amount.units := by
    have hz' : (0 : ℚ) ≤ z := by exact_mod_cast hz
    rw [h.applied, hx, hamount, ← hcents]
    refine cents_le ?_ (by linarith [h.sum])
    rw [ha, kobo]
    positivity
  have hbooks := h.books.insert_allocation (a := ⟨payment, line, x⟩) (only_insert <| .head _)
    (insert_table hr) hk hbill hp hl hlb hq hqb hc (hx ▸ cents_nonneg htake) hbound
  refine ⟨?_, ⟨r, ?_, hp⟩, ⟨q, ?_, hqb, hc, hamount⟩, ?_, by linarith [h.sum], by linarith, fun hlt => ?_⟩
  · rw [hcents, ← sub_sub, ← hx]
    exact hbooks
  · rwa [insert_table_ne (by decide)]
  · rwa [insert_table_ne (by decide)]
  · rw [Db.appliedBy, insert_table hr, Table.sum_insert hk, if_pos rfl, ← Db.appliedBy, h.applied, hx,
      hcents, add_comm]
  · exact ⟨z + outstanding, by omega, hwhole hlt⟩

end Filling

theorem post_allocate {paid : ℕ → ℤ} {lines : List (Loaded BillLine)} {amount remaining taken : ℚ}
    (hfit : Decimal.Fits amount) (hlines : ∀ l ∈ lines, s.onBill l.id b)
    (h : Filling b p payment amount taken remaining s) :
    Prog.Post (allocate payment paid lines remaining taken) s <|
      Prog.OnReturn fun out t => Filling b p payment amount out.1 out.2 t ∧
        Database.Only [Name.allocation] s t := by
  induction lines generalizing s remaining taken with
  | nil => exact .ret ⟨h, Std.Refl.refl _⟩
  | cons line lines hi =>
    unfold allocate
    split
    case isTrue => exact .ret ⟨h, Std.Refl.refl _⟩
    case isFalse hpos =>
      simp only
      split
      case isTrue => exact hi (fun l hl => hlines l <| .tail _ hl) h
      case isFalse hout =>
        refine .bind <| post_store (fun x hx => ?_) fun _ => trivial
        refine .bind <| post_create (fun k hk => ?_) fun _ => trivial
        obtain ⟨hr, hk, _⟩ := conflicts_false hk
        have hfill := h.fill hfit (not_le.mp hpos) (not_le.mp hout) (hlines line <| .head _) hx hr hk
        refine (hi (fun l hl => ?_) hfill).mono fun r t hrt => ?_
        · rw [Db.onBill_congr (insert_table_ne (by decide))]
          exact hlines l <| .tail _ hl
        · cases r with
          | error e => trivial
          | ok out => exact ⟨hrt.1, IsTrans.trans _ _ _ (only_insert <| .head _) hrt.2⟩

theorem post_lockLine {acc : List (Loaded BillLine)} {k : ℕ} (hacc : ∀ l ∈ acc, s.onBill l.id b) :
    Prog.Post (lockLine b acc k) s <| Prog.OnReturn fun acc t => t = s ∧ ∀ l ∈ acc, s.onBill l.id b := by
  refine .bind <| post_selectForUpdate ?_
  cases hl : (s.table .line).get k with
  | none => exact .ret ⟨rfl, hacc⟩
  | some l =>
    refine .ret ⟨rfl, ?_⟩
    split
    case isTrue hb =>
      intro l' hl'
      rcases List.mem_append.mp hl' with hl' | hl'
      · exact hacc l' hl'
      · rw [List.mem_singleton.mp hl']
        simp [Db.onBill, hl, hb]
    case isFalse => exact hacc

theorem post_lockLines {found : List ℕ} :
    Prog.Post (found.foldlM (lockLine b) []) s <|
      Prog.OnReturn fun acc t => t = s ∧ ∀ l ∈ acc, s.onBill l.id b := by
  let I (acc : List (Loaded BillLine)) (_ : List ℕ) (t : Db) := t = s ∧ ∀ l ∈ acc, s.onBill l.id b
  refine Prog.Post.foldlM (S := relational.schema) (I := I) (fun h => ?_) ⟨rfl, by simp⟩
  obtain ⟨rfl, hacc⟩ := h
  exact post_lockLine hacc

theorem post_allocateFifo {amount : ℚ} (hfit : Decimal.Fits amount)
    (h : Filling b p payment amount 0 amount s) :
    Prog.Post (allocateFifo payment amount b) s <|
      Prog.OnReturn fun out t => Filling b p payment amount out.1 out.2 t ∧
        Database.Only [Name.allocation] s t := by
  refine .bind <| post_select <| .seq post_lockLines fun lines t ht => ?_
  obtain ⟨rfl, hlines⟩ := ht
  exact .bind <| post_select <| post_allocate hfit hlines h

theorem post_createPayment {r : PaymentRequest} {row : Bill} (h : Ledger s)
    (hrow : (s.table .bill).get b = some row) (ha : 0 ≤ r.amount) :
    Prog.Post (createPayment today b r) s <| Prog.OnReturn fun payment t =>
      Filling b row.payer payment r.amount 0 r.amount t ∧ Database.Only [Name.payment] s t := by
  refine .seq (Q := fun _ t => t = s) ?geo fun geo t ht => ?_
  case geo =>
    split
    · exact .ret rfl
    · exact .raise trivial
  subst ht
  refine .bind <| post_store (fun amount hamount => ?_) fun _ => trivial
  refine .bind <| post_storeText (fun _ _ => ?_) fun _ => trivial
  refine .bind <| post_create (fun k hk => ?_) fun _ => trivial
  refine .bind <| post_save (fun _ _ => .ret ?_) fun _ => trivial
  obtain ⟨hr, hk, _⟩ := conflicts_false hk
  refine ⟨.still (.start h hrow hr hk rfl rfl hamount ha) <| .modify_payment fun _ => rfl, ?_⟩
  exact IsTrans.trans _ _ _ (only_insert <| .head _) (only_modify <| .head _)

namespace Filling

variable {amount taken remaining : ℚ}

-- The amount paid of the bill, with what has been taken, is within the digits of `Decimal`.
theorem paid (h : Filling b p payment amount taken remaining s) {x : Money} (hx : 0 ≤ x.units)
    (ha : 0 ≤ amount) (hfit : Decimal.Fits (x.toRat + amount)) :
    cents (Decimal.round (x.toRat + taken)) = x.units + cents taken := by
  rw [Money.toRat_eq_kobo] at *
  rcases lt_or_eq_of_le h.left with hlt | heq
  case inl =>
    have ⟨z, hz, ha⟩ := h.whole hlt
    have hle : ((x.units + z : ℤ) : ℚ) / 100 ≤ kobo x.units + amount := by
      rw [← kobo, ← kobo_add, ← ha]
      linarith [h.sum]
    rw [ha, kobo_add, cents_kobo, kobo, (hfit.of_le (by omega) hle).round_eq, ← kobo, cents_kobo]
  case inr =>
    have htaken : taken = amount := by linarith [h.sum]
    rw [htaken, hfit.round_eq, cents_kobo_add hx ha]

theorem leftover (h : Filling b p payment amount taken remaining s) :
    cents amount - cents taken = cents remaining := by
  rcases lt_or_eq_of_le h.left with hlt | heq
  case inl =>
    have ⟨z, hz, ha⟩ := h.whole hlt
    rw [← h.sum, ha, cents_kobo_add hz h.left, cents_kobo]
    omega
  case inr => simp [← h.sum, ← heq]

end Filling

theorem post_postPayment {bill : Loaded Bill} {r : PaymentRequest} (h : Ledger s) (ha : 0 ≤ r.amount)
    (hfit : ∀ row, (s.table .bill).get bill.id = some row →
      Decimal.Fits (row.amountPaid.toRat + r.amount)) :
    Prog.Post (postPayment today bill r) s <| Prog.OnReturn fun _ t => Ledger t := by
  refine post_guard (fun _ => trivial) fun _ => post_guard (fun _ => trivial) fun _ => ?_
  refine .bind <| post_getForUpdate (fun row hrow => ?_) fun _ => trivial
  have hpaid : 0 ≤ row.amountPaid.units := by
    have := h.bills hrow
    have := h.collectedOn_nonneg (b := bill.id)
    simp_all
  have hamount : Decimal.Fits r.amount := by
    have := (hfit row hrow).sub hpaid (by rw [Money.toRat_eq_kobo, kobo]; linarith)
    rwa [Money.toRat_eq_kobo, kobo, add_sub_cancel_left] at this
  refine .seq (post_createPayment h hrow ha) fun payment s₁ hpost => ?_
  obtain ⟨hfilling, ho₁⟩ := hpost
  refine .seq (post_allocateFifo hamount hfilling) fun out s₂ hpost => ?_
  obtain ⟨applied, leftover⟩ := out
  obtain ⟨hfilled, ho₂⟩ := hpost
  refine .bind <| post_store (fun stored hstored => ?_) fun _ => trivial
  refine .bind <| post_save (fun row₂ hrow₂ => ?_) fun _ => trivial
  -- The bill catches up with its payments.
  have hbill : s₂.table .bill = s.table .bill :=
    (ho₂ .bill (by simp)).trans (ho₁ .bill (by simp))
  have hbooks := hfilled.books.modify_bill (z := cents applied)
    (g := fun b => { b with amountPaid := stored }) (fun _ => rfl) fun row' hrow' => by
      rw [hbill, hrow, Option.some.injEq] at hrow'
      rw [← hrow']
      exact hstored.trans <| hfilled.paid hpaid ha (hfit row hrow)
  rw [sub_self, hfilled.leftover] at hbooks
  refine .seq recomputeBill_still.returns fun status s₄ h₄ => ?_
  replace hbooks := Still.books h₄ hbooks
  -- So does the credit of the payer.
  have rest : (do
      createReceipt r.council payment
      if status = BillStatus.paid then closeDebtCaseForBill today bill.id
      return payment : Service ℕ).Keeps Still :=
    .bind createReceipt_still fun _ => when_keeps closeDebtCaseForBill_still .ret
  refine post_when (fun hpos => ?credit) fun hneg => ?none
  case credit =>
    refine .seq post_addCredit fun _ s₅ hpost => ?_
    obtain ⟨ho₅, g, hg, hcredit⟩ := hpost
    replace hbooks := hbooks.modify_payer (w := cents leftover) ho₅ hg fun p hp => by
      rw [hcredit p hp, Money.toRat_eq_kobo]
      refine cents_kobo_add ?_ hpos.le
      have hc := h₄.credit row.payer
      rw [hp, modify_table_ne (by decide), ho₂ .payer (by simp), ho₁ .payer (by simp)] at hc
      obtain ⟨p', hp', hc⟩ := Option.map_eq_some_iff.mp hc.symm
      have := h.conserved.credits hp'
      have := h.creditOf_nonneg (p := row.payer)
      simp_all
    rw [sub_self] at hbooks
    exact .imp rest.returns fun _ _ ht => (ht.books hbooks).settle
  case none =>
    have : leftover = 0 := le_antisymm (not_lt.mp hneg) hfilled.left
    simp only [this, cents_zero] at hbooks
    exact .imp rest.returns fun _ _ ht => (ht.books hbooks).settle

-- The amount paid covers what the payment has applied, so the clamp at zero does not bite.
theorem post_reversePayment {k : ℕ} {q : Payment} (h : Ledger s)
    (hq : (s.table .payment).get k = some q) :
    Prog.Post (reversePayment today ⟨k, q⟩) s <| Prog.OnReturn fun _ t => Ledger t := by
  refine post_guard (fun _ => trivial) fun hc => ?_
  replace hc := not_not.mp hc
  refine .bind <| post_getForUpdate (fun q' hq' => ?_) fun _ => trivial
  rw [hq] at hq'
  cases hq'
  refine .bind <| post_getForUpdate (fun bill hbill => ?_) fun _ => trivial
  refine .bind <| post_select <| .bind <| post_save (fun _ _ => ?_) fun _ => trivial
  have hbooks := Books.revoke_payment h.opened (only_modify <| .head _) modify_table hq hc
    (g := fun p => { p with txnStatus := .reversed }) ⟨rfl, rfl, by simp⟩ hbill rfl rfl
  have happlied : s.appliedBy k ≤ bill.amountPaid.units :=
    (h.applied_le hq hc).trans_eq (h.conserved.bills hbill).symm
  refine .bind <| post_store (fun stored hstored => ?_) fun _ => trivial
  refine .bind <| post_save (fun bill₂ hbill₂ => ?_) fun _ => trivial
  replace hbooks := hbooks.modify_bill (z := -s.appliedBy k)
    (g := fun b => { b with amountPaid := stored }) (fun _ => rfl) fun bill' hbill' => by
      rw [modify_table_ne (by decide), hbill, Option.some.injEq] at hbill'
      rw [hstored, Money.toRat_eq_kobo, kobo_sub, max_eq_left, ← cents, cents_kobo, ← hbill']
      · rfl
      · have : (0 : ℚ) ≤ (bill.amountPaid.units - s.appliedBy k : ℤ) := by
          exact_mod_cast sub_nonneg.mpr happlied
        rw [kobo]
        positivity
  refine .seq recomputeBill_still.returns fun status s₃ h₃ => ?_
  replace hbooks := Still.books h₃ hbooks
  have hbound := h.bounded hq
  have hleft : q.amount.toRat - kobo (s.appliedBy k) = kobo (q.amount.units - s.appliedBy k) := by
    rw [Money.toRat_eq_kobo, kobo_sub]
  split
  case isTrue =>
    refine .imp post_addCredit fun _ s₄ hpost => ?_
    obtain ⟨ho, g, hg, hcredit⟩ := hpost
    replace hbooks := hbooks.modify_payer (w := -(q.amount.units - s.appliedBy k)) ho hg fun p hp => by
      rw [hcredit p hp, hleft, Money.toRat_eq_kobo, ← sub_eq_add_neg, kobo_sub, ← cents, cents_kobo]
      omega
    simp only [zero_sub, sub_self] at hbooks
    exact hbooks.settle
  case isFalse hneg =>
    have : q.amount.units - s.appliedBy k = 0 := by
      by_contra hne
      rw [hleft] at hneg
      exact hneg <| kobo_pos <| by omega
    simp only [this, zero_sub, sub_self] at hbooks
    exact .ret hbooks.settle

section Requests

theorem issueBill_quiet {r : IssueRequest} : (issueBill today r).Keeps (Quiet []) :=
  issueBill_keeps (fun h => .of_only h (by simp)) (.of_only (only_modify <| .head []) (by simp)) .insert_bill
    .modify_bill .insert_line .modify_line

theorem addLine_quiet {pk actor : ℕ} {e : LineEntry} : (addLine today pk actor e).Keeps (Quiet []) :=
  .bind getObject_keeps fun _ => addBillLine_keeps (fun h => .of_only h (by simp)) .modify_bill
    (fun _ => .insert_line) .modify_line

theorem putLine_quiet {pk lineId : ℕ} {lineAmount : ℚ} :
    (putLine today pk lineId lineAmount).Keeps (Quiet []) :=
  .bind getObject_keeps fun _ => .bind getObject_keeps fun _ =>
    updateBillLine_keeps (fun h => .of_only h (by simp)) .modify_bill .modify_line

theorem deleteBillLine_quiet {line : Loaded BillLine} :
    (deleteBillLine today line).Keeps (Quiet [line.id]) :=
  deleteBillLine_keeps (fun h => .of_only h (by simp)) .modify_bill <| .erase_line <| .head _

-- A line is only deleted while it has no allocations.
theorem post_deleteLine {pk lineId : ℕ} : Prog.Post (deleteLine today pk lineId) s <|
    Prog.OnReturn fun _ t => Quiet [lineId] s t ∧ hasAllocations s lineId = false := by
  refine .bind <| post_getObject (fun bill hbill _ => ?_) fun _ => trivial
  refine .bind <| post_getObject (fun line hline _ => ?_) fun _ => trivial
  refine .bind <| post_select <| post_guard (fun _ => trivial) fun hnone => ?_
  exact .imp deleteBillLine_quiet.returns fun _ t ht => ⟨ht, by simpa using hnone⟩

end Requests

theorem Db.Initial.ledger (h : s.Initial) : Ledger s where
  line hl    := by simp [h.line] at hl
  payment hq := by simp [h.payment] at hq
  alloc ha   := by simp [h.allocation] at ha
  bounded hq := by simp [h.payment] at hq
  bills hr   := by simp [h.bill] at hr
  credits hp := by simp [h.credit hp, Db.creditOf, h.payment]

-- The amount that a bill has been paid takes at most the digits that `Decimal` computes with, when a
-- payment is added to it.
def Request.Exact (s : Db) : Request → Prop
  | .postPayment pk r => ∀ bill, (s.table .bill).get pk = some bill →
    Decimal.Fits (bill.amountPaid.toRat + r.amount)
  | _                 => True

theorem Ledger.serve {r : Request} (h : Ledger s) (hp : r.Positive) (he : r.Exact s) :
    Prog.Post (r.serve today) s <| Prog.OnReturn fun _ t => Database.valid t → Ledger t := by
  have quiet : ∀ {p : Service Unit}, p.Keeps (Quiet []) → Prog.Post p s
      (Prog.OnReturn fun _ t => Database.valid t → Ledger t) := fun hq =>
    .imp hq.returns fun _ _ ht hv => Quiet.ledger ht h hv (by simp)
  cases r with
  | issueBill r => exact quiet <| .bind issueBill_quiet fun _ => .ret
  | addLine pk actor e => exact quiet <| .bind addLine_quiet fun _ => .ret
  | putLine pk lineId lineAmount => exact quiet putLine_quiet
  | deleteLine pk lineId =>
    refine .imp post_deleteLine fun _ t ⟨ht, hnone⟩ hv => ht.ledger h hv fun {k a} ha => ?_
    simp only [List.mem_singleton]
    intro hline
    simp only [hasAllocations, Option.isSome_eq_false_iff, Option.isNone_iff_eq_none] at hnone
    exact Table.first_none hnone ha (by simpa using hline)
  | postPayment pk r =>
    refine .seq (.bind <| post_getObject (fun bill hbill _ => ?_) fun _ => trivial) fun _ t ht =>
      .ret fun _ => ht
    exact post_postPayment h hp.le he
  | reverse pk =>
    refine .bind <| post_getObject (fun q hq _ => ?_) fun _ => trivial
    exact .imp (post_reversePayment h hq) fun _ _ ht _ => ht

namespace Sample

def tables : (t : Name) → Table (Rec t)
  | .config       => Table.empty.insert 1 ⟨"KAC", 30⟩
  | .user         => Table.empty.insert 1 ⟨"ngozi", "Ngozi Eze", "ngozi@example.org", "", some 1, none, none⟩
  | .payer        => Table.empty.insert 1 {
      payerType := .individual, firstName := "Ada", middleName := "", lastName := "Obi"
      phone := "0800", email := "", address := "", ward := 1, ninBvnHash := "", tin := ""
      businessSize := none, lineOfBusiness := "", council := 1, payerRef := "IND-0000001"
      enumeratedBy := 1, assignedAgent := none, creditBalance := 0, user := none
    }
  | .item         => Table.empty.insert 1 ⟨1, "A1", true⟩ |>.insert 2 ⟨1, "B2", true⟩
  | .rateSchedule => Table.empty.insert 1 ⟨1, ⟨⟨2000, by decide⟩, by decide⟩, 1, none⟩
      |>.insert 2 ⟨2, ⟨⟨2000, by decide⟩, by decide⟩, 1, none⟩
  | .channel      => Table.empty.insert 1 ⟨.cash⟩
  | .role | .consultant | .rateBand | .rateTier | .assessment | .bill | .line | .apiClient | .terminal
  | .payment | .allocation | .feed | .receipt | .settlement | .debtCase | .asset | .syncRecord
  | .fieldAgent | .consultantPortfolio | .agentPortfolio | .reconciliationRun
  | .reconciliationException => .empty

-- A council with one payer and two items at 20.00.
def council : Db where
  table     := tables
  retired _ := []

def keys : Name → ℕ :=
  fun _ => 1

def day : Date :=
  736330

def payer : Loaded Payer :=
  ⟨1, ((council.table .payer).get 1).get rfl⟩

def entry (item : ℕ) : LineEntry :=
  ⟨⟨item, ⟨1, if item = 1 then "A1" else "B2", true⟩⟩, 1, none, none, none⟩

def issue (items : List ℕ) (rollArrears : Bool) : Request :=
  .issueBill ⟨1, payer, none, items.map entry, false, rollArrears, 1, false⟩

def pay (bill : ℕ) (amount : ℚ) : Request :=
  .postPayment bill ⟨1, 1, amount, "", none, .ok (none, none), none⟩

-- The state and the sequences after the request.
def serve (s : Db × (Name → ℕ)) (r : Request) : Db × (Name → ℕ) :=
  ((r.serve day).call s.1 s.2).2

theorem council_initial : council.Initial where
  assessment h := by simp [council, tables] at h
  bill       := rfl
  line       := rfl
  payment    := rfl
  allocation := rfl
  credit {k p} hp := by
    have : (k, p) ∈ (council.table .payer).rows := Table.mem_rows_iff.mpr hp
    simp only [council, tables, Table.insert, Table.empty, Table.insertRow, List.mem_singleton,
      Prod.mk.injEq] at this
    rw [this.2]

def start : Db × (Name → ℕ) :=
  (council, keys)

def issued : Db × (Name → ℕ) :=
  serve start <| issue [1] false

-- Half of the bill is paid.
def partPaid : Db × (Name → ℕ) :=
  serve issued <| pay 1 10

-- Just less than half a kobo more is paid.
def overdrawn : Db × (Name → ℕ) :=
  serve partPaid <| pay 1 (499999999999999999999999999 / 10 ^ 29)

theorem reachable_serve {ok : Db → Request → Prop} {s : Db × (Name → ℕ)} {r : Request}
    (h : s.1.Reachable ok) (hr : ok s.1 r) : (serve s r).1.Reachable ok :=
  .serve (n := s.2) day r h hr rfl

theorem reachable_issued {ok : Db → Request → Prop} (h : ok council (issue [1] false)) :
    issued.1.Reachable ok :=
  reachable_serve (.initial council_initial) h

theorem call_returns {α : Type} {p : Service α} {s : Db × (Name → ℕ)} {a : α}
    (h : (p.call s.1 s.2).1.toOption = some a) :
    p.call s.1 s.2 = (.ok a, (p.call s.1 s.2).2.1, (p.call s.1 s.2).2.2) := by
  generalize p.call s.1 s.2 = out at *
  obtain ⟨a | e, t, m⟩ := out <;> simp_all [Except.toOption]

end Sample

-- Bills and credits say what the payments say, whatever requests have been served.
theorem conserved_of_reachable
    (h : s.Reachable fun s r => r.Positive ∧ r.Exact s) : s.Conserved :=
  Books.conserved <| h.preserves Db.Initial.ledger fun hs ⟨hp, he⟩ => hs.serve hp he

set_option maxRecDepth 20000 in
theorem sample_conserved : Sample.partPaid.1.Conserved := by
  refine conserved_of_reachable <| Sample.reachable_serve (Sample.reachable_issued ⟨trivial, trivial⟩)
    ⟨by norm_num [Request.Positive, Sample.pay], fun bill hbill => ?_⟩
  have hpaid : ((Sample.issued.1.table .bill).get 1).map (·.amountPaid) = some 0 := by decide +kernel
  rw [hbill, Option.map_some, Option.some.injEq] at hpaid
  rw [hpaid]
  exact ⟨2, 1000, le_refl _, by norm_num [Decimal.precision], by norm_num [Numeric.toRat, Sample.pay]⟩

set_option maxRecDepth 20000 in
-- A tiny payment makes the stored amount round up, where the allocation rounds down.
theorem not_conserved_of_positive : ∃ s : Db, s.Reachable (fun _ r => r.Positive) ∧ ¬s.Conserved := by
  refine ⟨Sample.overdrawn.1, Sample.reachable_serve (Sample.reachable_serve
    (Sample.reachable_issued trivial) ?_) ?_, fun h => ?_⟩
  · norm_num [Request.Positive, Sample.pay]
  · norm_num [Request.Positive, Sample.pay]
  · have hpaid : ((Sample.overdrawn.1.table .bill).get 1).map (·.amountPaid.units) = some 1001 := by
      decide +kernel
    have hsum : Sample.overdrawn.1.collectedOn 1 = 1000 := by decide +kernel
    have ⟨r, hr, hunits⟩ := Option.map_eq_some_iff.mp hpaid
    have := h.bills hr
    omega

end ACRev360
