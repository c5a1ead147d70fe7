import ACRev360.Library.Steady
import ACRev360.Theorems.Allocation

namespace ACRev360

open Relational Relational.Database

-- The books while requests are served concurrently.

variable {L : Rely relational.schema} {c d s t : Db} {x : Txn relational.schema} {seen : List Facet}
  {b payment k : ℕ} {today : Date} {row : Bill} {z : ℤ} {taken remaining : ℚ}

-- The committed states between the calls.
structure Booked (s : Db) : Prop where
  ledger : Ledger s
  valid  : Database.valid s

section Statements

variable {α : Type} {H : Db → Prop} {I : Db → Db → Prop} {J : α → Db → Db → Prop}

theorem steady_store {p n : ℕ} {q : ℚ} {J : Numeric p n → Db → Db → Prop} (h : x.Steady H I c)
    (hj : ∀ {m : Numeric p n} {d s}, m.units = roundHalfAway (q * 10 ^ n) → I d s → J m d s) :
    Prog.Steadies L H (store q) J c x seen := by
  refine wp_store (fun m hm a he => ?_) fun _ a he => by contradiction
  obtain rfl := Except.ok.inj he
  exact h.imp <| hj hm

theorem steady_guard {p : Prop} [Decidable p] {e : relational.Exn} {f : PUnit → Service α}
    (h : ¬p → Prog.Steadies L H (f ⟨⟩) J c x seen) :
    Prog.Steadies L H (if p then Prog.raise e >>= f else f ⟨⟩) J c x seen :=
  wp_guard (fun _ _ he => by contradiction) h

variable [Rely.Keeps (S := relational.schema) L H]

theorem steady_getForUpdate {n : Name} {J : Rec n → Db → Db → Prop} (h : x.Steady H I c)
    (hs : ∀ {r d s}, (Database.table s n).get k = some r → I d s → J r d s) :
    Prog.Steadies L H (getForUpdate n k) J c x seen := by
  refine .seq (K := fun found d s => ∀ r, found = some r → (Database.table s n).get k = some r ∧ I d s)
    (steady_selectForUpdate h (fun hr hi r he => ?_) fun _ r he => by contradiction) fun found d y _ hy => ?_
  · exact Option.some.inj he ▸ ⟨hr, hi⟩
  · cases found with
    | none => exact .raise
    | some r => exact .ret <| hy.imp fun h => hs (h r rfl).1 (h r rfl).2

theorem steady_addCredit {p : ℕ} {amount : ℚ} {J : Db → Db → Prop} (h : x.Steady H I c)
    (hp : ∀ {d s}, I d s → ((s.table .payer).get p).isSome)
    (hj : ∀ {g : Payer → Payer} {d s}, I d s → (∀ r, (s.table .payer).get p = some r →
      (g r).creditBalance.units = cents (r.creditBalance.toRat + amount)) → J d (s.modify .payer p g)) :
    Prog.Steadies L H (addCredit p amount) (fun _ => J) c x seen := by
  let sum (r : Payer) : Option Money := Numeric.ofRat? (r.creditBalance.toRat + amount)
  let g (r : Payer) : Payer := { r with creditBalance := (sum r).getD r.creditBalance }
  refine .seq (K := fun old d s => ∃ r s₀, old = some r ∧ (Database.table (R := relational) s₀ .payer).get p = some r ∧
      I d s₀ ∧ s = s₀.modify .payer p g)
    (steady_update h (fun hr hs => ⟨_, _, rfl, hr, hs, rfl⟩) fun hnone hs => ?_) fun old d y seen hy => ?_
  · have hpayer := hp hs
    rw [hnone] at hpayer
    contradiction
  · split
    case isTrue => exact .raise
    case isFalse hsum =>
      refine .ret <| hy.imp fun hs => ?_
      obtain ⟨r, s₀, rfl, hr, hs, rfl⟩ := hs
      refine hj hs fun r' hr' => ?_
      obtain rfl := Option.some.inj <| hr.symm.trans hr'
      cases hc : sum r with
      | none => simp [sum, hc] at hsum
      | some m =>
        have hm : (g r).creditBalance = m := by simp only [g, hc, Option.getD_some]
        rw [hm]
        exact Numeric.ofRat?_units hc

end Statements

-- A call of post_payment has locked the bill.
structure Locked (b : ℕ) (row : Bill) (d s : Db) : Prop where
  same   : s = d
  sound  : Booked d
  bill   : (d.table .bill).get b = some row

-- The payments that were there, what they are on and what they apply stay.
structure Anew (payment : ℕ) (d s : Db) : Prop where
  absent : (d.table .payment).get payment = none
  kept   : ∀ {k q}, (d.table .payment).get k = some q → ∃ q', (s.table .payment).get k = some q' ∧ q'.flow = q.flow
  others : ∀ k, k ≠ payment → s.appliedBy k = d.appliedBy k

theorem Anew.flow (h : Anew payment d s) (hf : Flow s t) : Anew payment d t where
  absent      := h.absent
  kept hq     := by
    obtain ⟨q₁, hq₁, hflow₁⟩ := h.kept hq
    obtain ⟨q₂, hq₂, hflow₂⟩ := hf.symm.payment_some hq₁
    exact ⟨q₂, hq₂, hflow₂.trans hflow₁⟩
  others k hk := by rw [hf.appliedBy, h.others k hk]

-- A call of post_payment of `z` kobo has made the payment, and has applied `taken` of it to the bill.
structure Applying (b payment : ℕ) (row : Bill) (z : ℤ) (taken remaining : ℚ) (d s : Db) : Prop
    extends Anew payment d s where
  filling : Filling b row.payer payment (kobo z) taken remaining s
  bill    : (s.table .bill).get b = some row
  bound   : z < 10 ^ 14
  payer   : ((s.table .payer).get row.payer).isSome

section Posting

variable [Rely.Keeps (S := relational.schema) L Booked]

theorem Locked.applying {q : Payment} (h : Locked b row d s) (hr : k ∉ s.retired .payment)
    (hk : (s.table .payment).get k = none) (hq : q.bill = b) (hc : q.txnStatus = .confirmed)
    (hamount : q.amount.units = z) (hz : 0 ≤ z) :
    Applying b k row z 0 (kobo z) d (s.insert .payment k q) where
  filling := by
    obtain ⟨rfl, hsound, hrow⟩ := h
    refine .start hsound.ledger hrow hr hk hq hc (hamount.trans (cents_kobo z).symm) ?_
    rw [kobo]
    positivity
  bill    := by rw [insert_table_ne (by decide), h.same, h.bill]
  bound   := by
    have := q.amount.bound
    omega
  payer   := by
    have href : (.payer, row.payer) ∈ relational.refs .bill row := by simp
    obtain ⟨p, hp⟩ := valid_ref h.sound.valid h.bill href
    rw [insert_table_ne (by decide), h.same]
    exact Option.isSome_iff_exists.mpr ⟨p, hp⟩
  absent  := h.same ▸ hk
  kept hq := ⟨_, get_insert_of_some (h.same ▸ hq), rfl⟩
  others _ _ := by rw [Db.appliedBy_congr (insert_table_ne (by decide)), h.same]

theorem Applying.modify_payment {g : Payment → Payment} (h : Applying b payment row z taken remaining d s)
    (hg : ∀ q, (g q).flow = q.flow) : Applying b payment row z taken remaining d (s.modify .payment k g) where
  toAnew  := h.flow (Still.modify_payment hg).toFlow
  filling := h.filling.still <| .modify_payment hg
  bill    := h.bill
  bound   := h.bound
  payer   := h.payer

theorem steady_createPayment {r : PaymentRequest} (h : x.Steady Booked (Locked b row) c) (hz : 0 ≤ z)
    (ha : r.amount = kobo z) : Prog.Steadies L Booked (createPayment today b r)
      (fun payment => Applying b payment row z 0 (kobo z)) c x seen := by
  refine .seq (K := fun _ => Locked b row) ?geo fun geo d y seen hy => ?_
  case geo =>
    split
    · exact .ret h
    · exact .raise
  refine .seq (K := fun (m : Money) d s => m.units = z ∧ Locked b row d s)
    (steady_store hy fun hm hi => ⟨?_, hi⟩) fun amount d y seen hy => ?_
  · rw [hm, ha, ← cents, cents_kobo]
  refine .seq (.of_keeps (P := Eq) hy storeText_keeps fun he hi => he ▸ hi) fun _ d y seen hy => ?_
  refine .seq (steady_create hy fun hr hk hi => hi.2.applying hr hk rfl rfl hi.1 hz) fun payment d y seen hy => ?_
  exact .seq (steady_save hy fun _ hi => hi.modify_payment fun _ => rfl) fun _ d y seen hy => .ret hy

theorem Filling.whole_kobo {p : ℕ} (h : Filling b p payment (kobo z) taken remaining s) (hz : 0 ≤ z) :
    ∃ y, 0 ≤ y ∧ y ≤ z ∧ taken = kobo y ∧ remaining = kobo (z - y) := by
  have hsum := h.sum
  rcases lt_or_eq_of_le h.left with hlt | heq
  case inl =>
    obtain ⟨y, hy, rfl⟩ := h.whole hlt
    have hremaining : remaining = kobo (z - y) := by
      rw [← kobo_sub]
      linarith
    refine ⟨y, hy, ?_, rfl, hremaining⟩
    by_contra hle
    rw [hremaining, kobo] at hlt
    have : ((z - y : ℤ) : ℚ) < 0 := by exact_mod_cast (by omega : z - y < 0)
    linarith
  case inr => exact ⟨z, hz, le_rfl, by linarith, by rw [sub_self, ← heq]; simp [kobo]⟩

-- The lines are on the bill.
def OnBill (b : ℕ) (lines : List (Loaded BillLine)) (s : Db) : Prop :=
  ∀ l ∈ lines, s.onBill l.id b

theorem Applying.fill {line : ℕ} {outstanding : ℤ} {m : Money} (h : Applying b payment row z taken remaining d s)
    (hpos : 0 < remaining) (ho : 0 < outstanding) (hline : s.onBill line b) (hz : 0 ≤ z)
    (hm : m.units = cents (min remaining (kobo outstanding))) (hr : k ∉ s.retired .allocation)
    (hk : (s.table .allocation).get k = none) :
    Applying b payment row z (Decimal.round (taken + min remaining (kobo outstanding)))
      (Decimal.round (remaining - min remaining (kobo outstanding))) d
      (s.insert .allocation k ⟨payment, line, m⟩) where
  filling := by
    have hbound := h.bound
    exact h.filling.fill (fits_kobo hz (by omega)) hpos ho hline hm hr hk
  bill    := by rw [insert_table_ne (by decide), h.bill]
  bound   := h.bound
  payer   := by rw [insert_table_ne (by decide), h.payer]
  absent  := h.absent
  kept hq := by
    obtain ⟨q', hq', hflow⟩ := h.kept hq
    exact ⟨q', get_insert_of_some hq', hflow⟩
  others i hi := by
    rw [Db.appliedBy, insert_table hr, Table.sum_insert hk, if_neg (Ne.symm hi), zero_add, ← Db.appliedBy, h.others i hi]

theorem steady_allocate {paid : ℕ → ℤ} {lines : List (Loaded BillLine)} (hz : 0 ≤ z)
    (h : x.Steady Booked (fun d s => OnBill b lines s ∧ Applying b payment row z taken remaining d s) c) :
    Prog.Steadies L Booked (allocate payment paid lines remaining taken)
      (fun out => Applying b payment row z out.1 out.2) c x seen := by
  induction lines generalizing c x seen remaining taken with
  | nil => exact .ret <| h.imp And.right
  | cons line lines hi =>
    unfold allocate
    split
    case isTrue => exact .ret <| h.imp And.right
    case isFalse hpos =>
      simp only
      split
      case isTrue => exact hi <| h.imp fun hs => ⟨fun l hl => hs.1 l <| .tail _ hl, hs.2⟩
      case isFalse hout =>
        refine .seq (steady_store (n := 2) h fun hm hs => And.intro hm hs) fun m d y seen hy => ?_
        refine .seq (steady_create hy fun hr hk hs => ?_) fun _ d y seen hy => hi hy
        obtain ⟨hm, hlines, happlying⟩ := hs
        refine ⟨fun l hl => ?_, happlying.fill (not_le.mp hpos) (not_le.mp hout) (hlines line <| .head _) hz hm hr hk⟩
        rw [Db.onBill_congr (insert_table_ne (by decide))]
        exact hlines l <| .tail _ hl

theorem steady_lockLine {lines : List (Loaded BillLine)}
    (h : x.Steady Booked (fun d s => OnBill b lines s ∧ Applying b payment row z taken remaining d s) c) :
    Prog.Steadies L Booked (lockLine b lines k)
      (fun lines d s => OnBill b lines s ∧ Applying b payment row z taken remaining d s) c x seen := by
  refine .seq (K := fun found d s => (OnBill b lines s ∧ Applying b payment row z taken remaining d s) ∧
      ∀ l, found = some l → (s.table .line).get k = some l)
    (steady_selectForUpdate h (fun hr hs => ⟨hs, fun _ he => Option.some.inj he ▸ hr⟩)
      fun hs => ⟨hs, fun _ he => by contradiction⟩) fun found d y seen hy => ?_
  cases found with
  | none => exact .ret <| hy.imp And.left
  | some l =>
    refine .ret <| hy.imp fun hs => ⟨?_, hs.1.2⟩
    split
    case isFalse => exact hs.1.1
    case isTrue hb =>
      intro l' hl'
      rcases List.mem_append.mp hl' with hl' | hl'
      · exact hs.1.1 l' hl'
      · rw [List.mem_singleton.mp hl']
        simp [Db.onBill, hs.2 l rfl, hb]

theorem steady_allocateFifo (hz : 0 ≤ z) (h : x.Steady Booked (Applying b payment row z 0 (kobo z)) c) :
    Prog.Steadies L Booked (allocateFifo payment (kobo z) b)
      (fun out => Applying b payment row z out.1 out.2) c x seen := by
  refine .seq (steady_select (J := fun _ => Applying b payment row z 0 (kobo z)) h) fun found d y seen hy => ?_
  let K (lines : List (Loaded BillLine)) (_ : List ℕ) (d s : Db) :=
    OnBill b lines s ∧ Applying b payment row z 0 (kobo z) d s
  refine .seq (.foldlM (K := K) (fun hy => steady_lockLine hy) <| hy.imp fun hs => ⟨?_, hs⟩) fun lines d y seen hy =>
    .seq (steady_select (J := fun _ => K lines []) hy) fun paid d y seen hy => steady_allocate hz hy
  intro l hl
  contradiction

-- The bill has caught up with the payment, and the credit of the payer is still behind by what is left over.
structure Owing (b p payment : ℕ) (leftover : ℚ) (d s : Db) : Prop extends Anew payment d s where
  books  : Books b 0 p (cents leftover) s
  whole  : ∃ m, 0 ≤ m ∧ leftover = kobo m
  payer  : ((s.table .payer).get p).isSome

theorem Applying.owing {stored : Money} {leftover applied : ℚ}
    (h : Applying b payment row z applied leftover d s) (hz : 0 ≤ z)
    (hstored : stored.units = cents (Decimal.round (row.amountPaid.toRat + applied))) :
    Owing b row.payer payment leftover d (s.modify .bill b fun r => { r with amountPaid := stored }) where
  toAnew := h.flow <| .modify_bill fun _ => rfl
  books := by
    obtain ⟨y, hy, hyz, rfl, rfl⟩ := h.filling.whole_kobo hz
    have hbooks := h.filling.books.modify_bill (z := cents (kobo y)) (g := fun r => { r with amountPaid := stored })
      (fun _ => rfl) fun row' hrow' => ?_
    · rw [cents_kobo, cents_kobo, sub_self] at hbooks
      rwa [cents_kobo]
    · have hbound := h.bound
      have hpaid := row.amountPaid.bound
      obtain rfl := Option.some.inj <| h.bill.symm.trans hrow'
      rw [hstored, Money.toRat_eq_kobo, kobo_add, round_kobo (by omega), cents_kobo, cents_kobo]
  whole := by
    obtain ⟨y, -, hyz, -, hleft⟩ := h.filling.whole_kobo hz
    exact ⟨z - y, by omega, hleft⟩
  payer := h.payer

theorem Owing.still {p : ℕ} {leftover : ℚ} (h : Owing b p payment leftover d s) (hs : Still s t) :
    Owing b p payment leftover d t where
  toAnew := h.flow hs.toFlow
  books  := hs.books h.books
  whole  := h.whole
  payer  := by
    have := hs.credit p
    rw [← Option.isSome_map (f := (·.creditBalance)), this, Option.isSome_map, h.payer]

-- The call of post_payment is done with the books.
structure Credited (payment : ℕ) (d s : Db) : Prop extends Anew payment d s where
  ledger : Ledger s

theorem Owing.entered {p : ℕ} {leftover : ℚ} (h : Owing b p payment leftover d s) (hleft : ¬0 < leftover) :
    Credited payment d s where
  toAnew := h.toAnew
  ledger := by
    obtain ⟨m, hm, rfl⟩ := h.whole
    have hzero : m = 0 := by
      by_contra hne
      exact hleft <| kobo_pos <| by omega
    have hbooks := h.books
    rw [cents_kobo, hzero] at hbooks
    exact hbooks.settle

theorem Credited.still (h : Credited payment d s) (hs : Still s t) : Credited payment d t where
  toAnew := h.flow hs.toFlow
  ledger := (hs.books (b := 0) (p := 0) h.ledger.opened).settle

theorem Owing.credit {p : ℕ} {leftover : ℚ} {g : Payer → Payer} (h : Owing b p payment leftover d s)
    (hg : ∀ r, (s.table .payer).get p = some r →
      (g r).creditBalance.units = cents (r.creditBalance.toRat + leftover)) :
    Credited payment d (s.modify .payer p g) where
  toAnew := h.flow <| .of_only (only_modify <| .head []) (by simp)
  ledger := by
    obtain ⟨m, -, rfl⟩ := h.whole
    have hbooks := h.books.modify_payer (w := m) (t := s.modify .payer p g) (only_modify <| .head _) modify_table
      fun r hr => by rw [hg r hr, Money.toRat_eq_kobo, kobo_add, cents_kobo]
    rw [cents_kobo, sub_self] at hbooks
    exact hbooks.settle

theorem steady_postPayment {bill : Loaded Bill} {r : PaymentRequest} (hz : 0 ≤ z) (ha : r.amount = kobo z)
    (h : x.Steady Booked (fun d s => s = d ∧ Booked d) c) :
    Prog.Steadies L Booked (postPayment today bill r) Credited c x seen := by
  refine steady_guard fun _ => steady_guard fun _ => ?_
  refine .seq (steady_getForUpdate h fun hr hs => Locked.mk hs.1 hs.2 (hs.1 ▸ hr)) fun row d y seen hy => ?_
  refine .seq (steady_createPayment hy hz ha) fun payment d y seen hy => ?_
  rw [ha]
  refine .seq (steady_allocateFifo hz hy) fun out d y seen hy => ?_
  obtain ⟨applied, leftover⟩ := out
  refine .seq (steady_store (n := 2) hy fun hm hs => And.intro hm hs) fun stored d y seen hy => ?_
  refine .seq (steady_save hy fun _ hs => hs.2.owing hz hs.1) fun _ d y seen hy => ?_
  refine .seq (.of_keeps hy recomputeBill_still fun ht hs => hs.still ht) fun status d y seen hy => ?_
  have rest {d y seen} (hy : Txn.Steady Booked (Credited payment) d y) : Prog.Steadies L Booked (do
      createReceipt r.council payment
      if status = BillStatus.paid then closeDebtCaseForBill today bill.id
      return payment : Service ℕ) Credited d y seen := by
    refine .seq (.of_keeps hy createReceipt_still fun ht hs => hs.still ht) fun _ d y seen hy => ?_
    refine wp_when (fun _ => ?_) fun _ => Prog.Steadies.ret hy
    exact Prog.Steadies.seq (.of_keeps hy closeDebtCaseForBill_still fun ht hs => hs.still ht) fun _ _ _ _ => .ret
  refine wp_when (fun _ => Prog.Steadies.seq (steady_addCredit hy (fun hs => hs.payer) fun hs hg => hs.credit hg)
    fun _ _ _ _ => rest) fun hneg => ?_
  exact rest <| hy.imp fun hs => hs.entered hneg

end Posting

section Reversal

-- The payment is confirmed, and what it has applied is known.
structure Standing (pk : ℕ) (applied : ℤ) (s : Db) : Prop extends Booked s where
  confirmed : ∃ q, (s.table .payment).get pk = some q ∧ q.txnStatus = .confirmed
  applied   : s.appliedBy pk = applied

variable {pk : ℕ} {applied : ℤ} {q : Payment} {bill : Bill}

-- A call of reverse_payment has locked the payment and its bill.
structure Reversing (pk : ℕ) (applied : ℤ) (q : Payment) (bill : Bill) (d s : Db) : Prop
    extends Standing pk applied d where
  same    : s = d
  payment : (d.table .payment).get pk = some q
  bill    : (d.table .bill).get q.bill = some bill

-- The other payments, what they are on and what all apply stay.
structure Revoked (pk : ℕ) (d s : Db) : Prop where
  kept    : ∀ {k q}, (d.table .payment).get k = some q → ∃ q', (s.table .payment).get k = some q' ∧
    (k ≠ pk → q'.txnStatus = q.txnStatus)
  applied : s.appliedBy = d.appliedBy

theorem Revoked.flow (h : Revoked pk d s) (hf : Flow s t) : Revoked pk d t where
  kept hq := by
    obtain ⟨q₁, hq₁, hkept⟩ := h.kept hq
    obtain ⟨q₂, hq₂, hflow⟩ := hf.symm.payment_some hq₁
    simp only [Payment.flow, Prod.mk.injEq] at hflow
    exact ⟨q₂, hq₂, fun hk => hflow.2.2.trans <| hkept hk⟩
  applied := hf.appliedBy.trans h.applied

-- The amount paid of the bill and the credit of its payer are still ahead of the payments.
structure Owed (pk b p : ℕ) (n m : ℤ) (d s : Db) : Prop extends Revoked pk d s where
  books : Books b n p m s
  payer : ((s.table .payer).get p).isSome

namespace Reversing

theorem owed (h : Reversing pk applied q bill d s) :
    Owed pk q.bill bill.payer (-applied) (-(q.amount.units - applied)) d
      (s.modify .payment pk fun p => { p with txnStatus := .reversed }) where
  kept {k q'} hq' := by
    rw [h.same, modify_table, Table.get_modify]
    split
    case isTrue hk => exact ⟨_, by rw [← hk, hq']; rfl, fun hne => (hne hk).elim⟩
    case isFalse => exact ⟨q', hq', fun _ => rfl⟩
  applied := by rw [h.same, Db.appliedBy_congr (modify_table_ne (by decide))]
  books := by
    obtain ⟨q', hq', hc⟩ := h.confirmed
    obtain rfl := Option.some.inj <| h.payment.symm.trans hq'
    have hbooks := Books.revoke_payment (b := q.bill) (p := bill.payer) h.ledger.opened (only_modify <| .head _)
      (modify_table (s := d) (k := pk)) h.payment hc (g := fun p => { p with txnStatus := .reversed })
      ⟨rfl, rfl, by simp⟩ h.bill rfl rfl
    rw [h.toStanding.applied, zero_sub, zero_sub] at hbooks
    exact h.same ▸ hbooks
  payer := by
    have href : (.payer, bill.payer) ∈ relational.refs .bill bill := by simp
    obtain ⟨p, hp⟩ := valid_ref h.valid h.bill href
    rw [modify_table_ne (by decide), h.same]
    exact Option.isSome_iff_exists.mpr ⟨p, hp⟩

-- The amount paid covers what the payment has applied, and the payment does, too.
theorem covered (h : Reversing pk applied q bill d s) :
    applied ≤ bill.amountPaid.units ∧ applied ≤ q.amount.units := by
  obtain ⟨q', hq', hc⟩ := h.confirmed
  obtain rfl := Option.some.inj <| h.payment.symm.trans hq'
  have happlied := h.toStanding.applied
  rw [← happlied]
  exact ⟨(h.ledger.applied_le hq' hc).trans_eq (h.ledger.conserved.bills h.bill).symm, h.ledger.bounded hq'⟩

end Reversing

namespace Owed

variable {p : ℕ} {n m : ℤ}

theorem still (h : Owed pk b p n m d s) (hs : Still s t) : Owed pk b p n m d t where
  toRevoked := h.flow hs.toFlow
  books     := hs.books h.books
  payer     := by
    have := hs.credit p
    rw [← Option.isSome_map (f := (·.creditBalance)), this, Option.isSome_map, h.payer]

theorem modify_bill {stored : Money} (h : Owed pk b p (-applied) m d s) (hle : applied ≤ bill.amountPaid.units)
    (hb : (s.table .bill).get b = some bill)
    (hstored : stored.units = cents (max (bill.amountPaid.toRat - kobo applied) 0)) :
    Owed pk b p 0 m d (s.modify .bill b fun r => { r with amountPaid := stored }) where
  toRevoked := h.flow <| .modify_bill fun _ => rfl
  books     := by
    have hbooks := h.books.modify_bill (z := -applied) (g := fun r => { r with amountPaid := stored })
      (fun _ => rfl) fun row hrow => ?_
    · rwa [sub_self] at hbooks
    · obtain rfl := Option.some.inj <| hb.symm.trans hrow
      have hnonneg : (0 : ℚ) ≤ (bill.amountPaid.units - applied : ℤ) := by exact_mod_cast sub_nonneg.mpr hle
      rw [hstored, Money.toRat_eq_kobo, kobo_sub, max_eq_left, cents_kobo]
      · rfl
      · rw [kobo]
        positivity
  payer     := h.payer

theorem credit {g : Payer → Payer} (h : Owed pk b p 0 (-m) d s)
    (hg : ∀ r, (s.table .payer).get p = some r →
      (g r).creditBalance.units = cents (r.creditBalance.toRat + -kobo m)) :
    Revoked pk d (s.modify .payer p g) ∧ Ledger (s.modify .payer p g) := by
  have hbooks := h.books.modify_payer (w := -m) (t := s.modify .payer p g) (only_modify <| .head _) modify_table
    fun r hr => by rw [hg r hr, Money.toRat_eq_kobo, ← sub_eq_add_neg, kobo_sub, cents_kobo, sub_eq_add_neg]
  rw [sub_self] at hbooks
  exact ⟨h.flow <| .of_only (only_modify <| .head []) (by simp), hbooks.settle⟩

end Owed

variable {payment : Loaded Payment} [Rely.Keeps (S := relational.schema) L (Standing payment.id applied)]

theorem steady_reversePayment
    (h : x.Steady (Standing payment.id applied) (fun d s => s = d ∧ Standing payment.id applied d) c) :
    Prog.Steadies L (Standing payment.id applied) (reversePayment today payment)
      (fun _ d s => Revoked payment.id d s ∧ Ledger s) c x seen := by
  refine steady_guard fun _ => ?_
  refine .seq (steady_getForUpdate (J := fun q d s => s = d ∧ Standing payment.id applied d ∧
    (d.table .payment).get payment.id = some q) h fun hr hs => ⟨hs.1, hs.2, hs.1 ▸ hr⟩) fun q d y seen hy => ?_
  refine .seq (steady_getForUpdate (J := fun bill => Reversing payment.id applied q bill) hy fun hr hs =>
    ⟨hs.2.1, hs.1, hs.2.2, hs.1 ▸ hr⟩) fun bill d y seen hy => ?_
  refine .seq (steady_select (J := fun a d s => a = kobo applied ∧ Reversing payment.id applied q bill d s) ?_)
    fun a d y seen hy => ?_
  · have hself := hy.self
    refine hy.imp fun hs => ⟨?_, hs⟩
    rw [hself.same, hself.toStanding.applied]
  obtain ⟨rfl, hself⟩ := hy.self
  obtain ⟨hpaid, hbound⟩ := hself.covered
  refine .seq (steady_save (J := fun d s => (Database.table (R := relational) s .bill).get q.bill = some bill ∧
    Owed payment.id q.bill bill.payer (-applied) (-(q.amount.units - applied)) d s) hy fun _ hs =>
      ⟨by rw [modify_table_ne (by decide), hs.2.same, hs.2.bill], hs.2.owed⟩) fun _ d y seen hy => ?_
  refine .seq (steady_store (n := 2) hy fun hm hs => And.intro hm hs) fun stored d y seen hy => ?_
  refine .seq (steady_save hy fun _ hs => hs.2.2.modify_bill hpaid hs.2.1 hs.1) fun _ d y seen hy => ?_
  refine .seq (.of_keeps hy recomputeBill_still fun ht hs => hs.still ht) fun _ d y seen hy => ?_
  split
  case isTrue =>
    rw [Money.toRat_eq_kobo, kobo_sub]
    exact steady_addCredit hy (fun hs => hs.payer) fun hs hg => hs.credit hg
  case isFalse hneg =>
    have hzero : q.amount.units - applied = 0 := by
      by_contra hne
      rw [Money.toRat_eq_kobo, kobo_sub] at hneg
      exact hneg <| kobo_pos <| by omega
    refine .ret <| hy.imp fun hs => ⟨hs.toRevoked, ?_⟩
    have hbooks := hs.books
    rw [hzero, neg_zero] at hbooks
    exact hbooks.settle

end Reversal

section Runs

-- The payments that `still` is about keep their status, and all keep what they have applied.
structure Continues (still : ℕ → Prop) (c d : Db) : Prop where
  booked : Booked d
  kept   : ∀ {k q}, (c.table .payment).get k = some q → ∃ q', (d.table .payment).get k = some q' ∧
    d.appliedBy k = c.appliedBy k ∧ (still k → q'.txnStatus = q.txnStatus)

namespace Continues

variable {still still' : ℕ → Prop}

theorem refl (h : Booked c) : Continues still c c :=
  ⟨h, fun hq => ⟨_, hq, rfl, fun _ => rfl⟩⟩

theorem trans (h₁ : Continues still c d) (h₂ : Continues still d s) : Continues still c s where
  booked  := h₂.booked
  kept hq := by
    obtain ⟨q₁, hq₁, ha₁, hs₁⟩ := h₁.kept hq
    obtain ⟨q₂, hq₂, ha₂, hs₂⟩ := h₂.kept hq₁
    exact ⟨q₂, hq₂, ha₂.trans ha₁, fun hk => (hs₂ hk).trans (hs₁ hk)⟩

theorem mono (h : Continues still c d) (hs : ∀ k, still' k → still k) : Continues still' c d where
  booked  := h.booked
  kept hq := by
    obtain ⟨q', hq', ha, hk⟩ := h.kept hq
    exact ⟨q', hq', ha, fun hk' => hk <| hs _ hk'⟩

theorem of_credited (h : Credited payment d s) (hv : Database.valid s) : Continues still d s where
  booked        := ⟨h.ledger, hv⟩
  kept {k q} hq := by
    obtain ⟨q', hq', hflow⟩ := h.kept hq
    refine ⟨q', hq', h.others k ?_, fun _ => (Prod.mk.inj (Prod.mk.inj hflow).2).2⟩
    rintro rfl
    simp [h.absent] at hq

theorem of_revoked {pk : ℕ} (h : Revoked pk d s) (hl : Ledger s) (hv : Database.valid s) :
    Continues (· ≠ pk) d s where
  booked  := ⟨hl, hv⟩
  kept hq := by
    obtain ⟨q', hq', hs⟩ := h.kept hq
    exact ⟨q', hq', by rw [h.applied], hs⟩

end Continues

-- What happens to the books apart from payments, whichever lines are removed.
def Silent (s t : Db) : Prop :=
  ∃ ls, Quiet ls s t

theorem Quiet.mono {ls ls' : List ℕ} (h : Quiet ls s t) (hls : ls ⊆ ls') : Quiet ls' s t :=
  { h with line := fun hk => h.line fun hk' => hk <| hls hk' }

instance : Std.Refl Silent where
  refl _ := ⟨[], Std.Refl.refl _⟩

instance : IsTrans Db Silent where
  trans _ _ _ h₁ h₂ := by
    obtain ⟨ls₁, h₁⟩ := h₁
    obtain ⟨ls₂, h₂⟩ := h₂
    exact ⟨ls₁ ++ ls₂, (h₁.mono <| by simp).trans (h₂.mono <| by simp)⟩

-- The lines that the allocations are on are still there, on their bills.
theorem Silent.continues {still : ℕ → Prop} (h : Silent s t)
    (he : ∀ k, Evolves (Row.row (R := relational) Name.line k) s t) (hs : Booked s) (hv : Database.valid t) :
    Continues still s t := by
  obtain ⟨ls, h⟩ := h
  have hquiet : Quiet (ls.filter fun k => ((t.table .line).get k).isNone) s t := { h with
    line := fun {k l} hk hl => by
      by_cases hls : k ∈ ls
      case neg => exact h.line hls hl
      case pos =>
        rcases (he k).2 l hl with ⟨l', hl', hf⟩ | ⟨hn, -⟩
        · exact ⟨l', hl', (Prod.mk.inj hf).1⟩
        · exact (hk <| List.mem_filter.mpr ⟨hls, by simp [hn]⟩).elim
  }
  refine ⟨⟨hquiet.ledger hs.ledger hv fun {k a} ha hmem => ?_, hv⟩, fun hq => ?_⟩
  · have href : (.line, a.line) ∈ relational.refs .allocation a := by simp
    obtain ⟨l, hl⟩ := valid_ref hv (h.allocation ▸ ha) href
    simp [hl] at hmem
  · exact ⟨_, h.payment ▸ hq, by rw [Db.appliedBy_congr h.allocation], fun _ => rfl⟩

theorem deleteLine_silent {pk lineId : ℕ} : (deleteLine today pk lineId).Keeps Silent := by
  refine .bind getObject_keeps fun _ => .bind getObject_keeps fun line => .bind keeps_select fun _ => ?_
  refine when_keeps keeps_refuse <| deleteBillLine_keeps (fun h => ⟨[], .of_only h (by simp)⟩)
    (fun hg => ⟨[], .modify_bill hg⟩) ⟨[line.id], .erase_line <| .head _⟩

-- The payment that a call reverses.
def Request.target : Request → Option ℕ
  | reverse pk => some pk
  | _          => none

-- Payments are of whole kobo.
def Request.InKobo : Request → Prop
  | postPayment _ r => ∃ z : ℤ, 0 ≤ z ∧ r.amount = kobo z
  | _               => True

-- The others do not touch the payment that the call reverses.
def auditing (target : Option ℕ) : Rely relational.schema where
  guar _ c d  := Booked c → Continues (target = some ·) c d
  calm _      := False
  takes _ _ _ := True
  lands _ _   := True
  refl _ _    := .refl
  trans h₁ h₂ := fun h => (h₁ h).trans <| h₂ (h₁ h).booked
  anti _ h    := h

instance {target : Option ℕ} : Rely.Keeps (auditing target) Booked where
  keeps hd hc := (hd hc).booked

instance {pk : ℕ} {applied : ℤ} : Rely.Keeps (auditing (some pk)) (Standing pk applied) where
  keeps hd hc := by
    obtain ⟨q, hq, hconfirmed⟩ := hc.confirmed
    have hcontinues := hd hc.toBooked
    obtain ⟨q', hq', happlied, hstatus⟩ := hcontinues.kept hq
    exact ⟨hcontinues.booked, ⟨q', hq', (hstatus rfl).trans hconfirmed⟩, happlied.trans hc.applied⟩

variable {ι : Type} {r : Request} {i : ι}

def Audited (r : Request) (e : Event relational.schema ι Unit) : Prop :=
  Booked e.before → Continues (r.target ≠ some ·) e.before e.after

theorem wp_audited {p : Service Unit} {H : Db → Prop} {J : Unit → Db → Db → Prop} (h : p.Steadies L H J c x seen)
    (hj : ∀ {a d s}, J a d s → Database.valid s → Continues (r.target ≠ some ·) d s) :
    p.Wp L (Sys.Ended L (Audited r) i) c x seen := by
  refine Prog.Wp.mono h fun out d y _ hy => ?_
  cases out with
  | error e => exact .refl
  | ok a => exact ⟨fun _ hv _ => hj (hy a rfl).self hv, .refl⟩

theorem wp_silent {P : Db → Db → Prop} [Std.Refl P] [IsTrans Db P] {p : Service Unit} (hp : p.Keeps P)
    (h : ∀ {s t}, P s t → Silent s t) : p.Wp L (Sys.Ended L (Audited r) i) c .start [] := by
  refine (Prog.Wp.keeps hp).mono fun out d y _ hy => ?_
  cases out with
  | error e => exact .refl
  | ok a => exact ⟨fun _ hv hd => (h <| hy d).continues (fun k => y.evolves (.row .line k) d) hd hv, .refl⟩

theorem wp_reverse {pk : ℕ} (hc : Booked c) :
    (reverse today pk).Wp (auditing (some pk)) (Sys.Ended (auditing (some pk)) (Audited (.reverse pk)) i) c .start [] := by
  refine .bind <| wp_getObject (fun q hq _ d hd => ?_) fun _ _ _ => .refl
  by_cases hconfirmed : q.txnStatus = .confirmed
  case neg => exact wp_guard (fun _ => .refl) fun h => (h hconfirmed).elim
  case pos =>
    have hstanding : Standing pk (c.appliedBy pk) d :=
      Rely.Keeps.keeps hd.guar (L := auditing (some pk)) ⟨hc, ⟨q, hq, hconfirmed⟩, rfl⟩
    have hstart : Txn.Steady (S := relational.schema) (Standing pk (c.appliedBy pk))
      (fun e s => s = e ∧ Standing pk (c.appliedBy pk) e) d .start := ⟨hstanding, fun _ _ hh => ⟨rfl, hh⟩⟩
    refine wp_audited (@steady_reversePayment _ _ _ _ _ _ ⟨pk, q⟩ _ hstart) fun hs hv => ?_
    exact (Continues.of_revoked hs.1 hs.2 hv).mono fun k hk he => hk <| congrArg some he.symm

theorem wp_serve (hr : r.InKobo) (hc : Booked c) :
    (r.serve today).Wp (auditing r.target) (Sys.Ended (auditing r.target) (Audited r) i) c .start [] := by
  have quiet : ∀ {s t}, Quiet [] s t → Silent s t := fun h => ⟨[], h⟩
  cases r with
  | issueBill r => exact wp_silent (.bind issueBill_quiet fun _ => .ret) quiet
  | addLine pk actor e => exact wp_silent (.bind addLine_quiet fun _ => .ret) quiet
  | putLine pk lineId lineAmount => exact wp_silent putLine_quiet quiet
  | deleteLine pk lineId => exact wp_silent deleteLine_silent id
  | postPayment pk r =>
    obtain ⟨z, hz, ha⟩ := hr
    have hstart : Txn.Steady (S := relational.schema) Booked (fun d s => s = d ∧ Booked d) c .start :=
      ⟨hc, fun _ _ hh => ⟨rfl, hh⟩⟩
    refine wp_audited (H := Booked) (J := fun _ d s => ∃ payment, Credited payment d s) ?_ fun hs hv => ?_
    · refine .seq (K := Credited) (.seq (.of_keeps (P := Eq) hstart getObject_keeps fun he hi => he ▸ hi)
        fun bill d y seen hy => steady_postPayment hz ha hy) fun payment d y seen hy => .ret <| hy.imp fun hs => ⟨payment, hs⟩
    · obtain ⟨payment, hs⟩ := hs
      exact .of_credited hs hv
  | reverse pk => exact wp_reverse hc

variable [DecidableEq ι] [Fintype ι]

end Runs

namespace Sample

-- A bill of 20.00 is paid 15.00 and 10.00 at the same time.
def payments : Bool → Request
  | true  => pay 1 15
  | false => pay 1 10

def bothPaying : Sys relational.schema Bool Unit :=
  (Sys.start issued.1 issued.2 fun i => (payments i).serve day).exec ((List.replicate 60 [true, false]).flatten)

theorem issued_booked : Booked issued.1 where
  ledger := by
    have hreachable : issued.1.Reachable fun s r => r.Positive ∧ r.Exact s := reachable_issued ⟨trivial, trivial⟩
    exact hreachable.preserves Db.Initial.ledger fun hs h => hs.serve h.1 h.2
  valid  := by decide +kernel

end Sample

namespace Sample

-- A bill of 20.00 has been paid 10.00 twice.
def twicePaid : Db × (Name → ℕ) :=
  serve partPaid <| pay 1 10

-- Both calls read the payment before either locks it.
def bothReversing : Sys relational.schema Bool Unit :=
  (Sys.start twicePaid.1 twicePaid.2 fun _ => (Request.reverse 1).serve day).exec
    ((List.replicate 20 [true, false]).flatten)

theorem exact_pay {s : Db} (paid : Money) (h : ((s.table .bill).get 1).map (·.amountPaid) = some paid)
    (hpaid : paid.units = 0 ∨ paid.units = 1000) : (pay 1 10).Exact s := by
  intro bill hbill
  rw [hbill, Option.map_some, Option.some.injEq] at h
  have hsum : bill.amountPaid.toRat + 10 = kobo (bill.amountPaid.units + 1000) := by
    rw [Money.toRat_eq_kobo, ← kobo_add]
    norm_num [kobo]
  simp only [hsum]
  rw [h]
  exact fits_kobo (by omega) (by omega)

end Sample

set_option maxRecDepth 20000 in
-- The amount paid is reduced twice when two calls reverse a payment.
theorem not_conserved_of_reversed_twice :
    Booked Sample.twicePaid.1 ∧ ¬Db.Conserved Sample.bothReversing.committed := by
  refine ⟨⟨?_, by decide +kernel⟩, fun h => ?_⟩
  · have hpositive : (Sample.pay 1 10).Positive := by norm_num [Request.Positive, Sample.pay]
    have hpart : Sample.partPaid.1.Reachable fun s r => r.Positive ∧ r.Exact s :=
      Sample.reachable_serve (Sample.reachable_issued ⟨trivial, trivial⟩)
        ⟨hpositive, Sample.exact_pay 0 (by decide +kernel) (.inl rfl)⟩
    have htwice : Sample.twicePaid.1.Reachable fun s r => r.Positive ∧ r.Exact s :=
      Sample.reachable_serve hpart
        ⟨hpositive, Sample.exact_pay ⟨1000, by decide⟩ (by decide +kernel) (.inr rfl)⟩
    exact htwice.preserves Db.Initial.ledger fun hs h => hs.serve h.1 h.2
  · have hpaid : ((Sample.bothReversing.committed.table .bill).get 1).map (·.amountPaid.units) = some 0 := by
      decide +kernel
    have hsum : Db.collectedOn Sample.bothReversing.committed 1 = 1000 := by decide +kernel
    obtain ⟨r, hr, hunits⟩ := Option.map_eq_some_iff.mp hpaid
    have := h.bills hr
    omega

end ACRev360
