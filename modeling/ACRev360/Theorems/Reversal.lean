import ACRev360.Theorems.Agreement
import ACRev360.Theorems.Allocation

namespace ACRev360

open Relational Relational.Database

-- What a sequence of payments leaves of a bill, and what the reversal of one of them does.

variable {s t u : Db} {b k : ℕ} {today : Date} {w z : ℤ}

structure DatedPayment where
  day     : Date
  request : PaymentRequest

namespace DatedPayment

def units (p : DatedPayment) : ℤ :=
  cents p.request.amount

-- The payment is of a positive number of whole kobo.
def Whole (p : DatedPayment) : Prop :=
  0 < p.units ∧ p.request.amount = kobo p.units

def total (ps : List DatedPayment) : ℤ :=
  (ps.map units).sum

@[simp]
theorem total_nil : total [] = 0 :=
  rfl

@[simp]
theorem total_cons {p : DatedPayment} {ps : List DatedPayment} : total (p :: ps) = p.units + total ps :=
  rfl

@[simp]
theorem total_append {ps qs : List DatedPayment} : total (ps ++ qs) = total ps + total qs := by
  simp [total]

theorem total_nonneg {ps : List DatedPayment} (h : ∀ p ∈ ps, p.Whole) : 0 ≤ total ps :=
  List.sum_nonneg fun x hx => by
    have ⟨p, hp, he⟩ := List.mem_map.mp hx
    exact he ▸ (h p hp).1.le

theorem total_pos {ps : List DatedPayment} (h : ∀ p ∈ ps, p.Whole) (hne : ps ≠ []) : 0 < total ps := by
  cases ps with
  | nil => contradiction
  | cons p ps =>
    have := (h p <| .head _).1
    have := total_nonneg fun q hq => h q <| .tail _ hq
    rw [total_cons]
    omega

end DatedPayment

open DatedPayment

-- The payments have been posted on the bill one after the other, and have got the primary keys.
inductive PaidIn (b : ℕ) : List DatedPayment → List ℕ → Db → Db → Prop
  | nil {s : Db} : PaidIn b [] [] s s
  | cons {p ps k ks s t u} {n m : Name → ℕ} {bill : Loaded Bill} : bill.id = b →
    (postPayment p.day bill p.request).call s n = (.ok k, t, m) → PaidIn b ps ks t u →
    PaidIn b (p :: ps) (k :: ks) s u

theorem PaidIn.split {p : DatedPayment} {before after : List DatedPayment} {ks ls : List ℕ}
    (h : PaidIn b (before ++ p :: after) (ks ++ k :: ls) s u) (hlen : ks.length = before.length) :
    ∃ s₁ t, PaidIn b before ks s s₁ ∧ PaidIn b [p] [k] s₁ t ∧ PaidIn b after ls t u := by
  induction before generalizing ks s with
  | nil =>
    obtain rfl : ks = [] := List.length_eq_zero_iff.mp hlen
    cases h with
    | cons hb hc hrest => exact ⟨s, _, .nil, .cons hb hc .nil, hrest⟩
  | cons q before hi =>
    cases ks with
    | nil => simp at hlen
    | cons i ks =>
      cases h with
      | cons hb hc hrest =>
        have ⟨s₁, t, h₁, h₂, h₃⟩ := hi hrest (by simpa using hlen)
        exact ⟨s₁, t, .cons hb hc h₁, h₂, h₃⟩

-- The status that `recomputeBill` gives a live bill on a day.
def liveStatus (day : Date) (lineTotal : ℤ) (r : Bill) : BillStatus :=
  statusOf day .issued r.amountPaid.toRat (kobo lineTotal) r.dueDate

-- What payments do to the row of a live bill of which `w` kobo are applied, the last of them on a day.
structure Bill.Took (w lineTotal : ℤ) (day : Option Date) (r r' : Bill) : Prop where
  payer   : r'.payer = r.payer
  dueDate : r'.dueDate = r.dueDate
  live    : r'.status.terminal = false
  paid    : r'.amountPaid.units = r.amountPaid.units + w
  status  : ∀ d ∈ day, r'.status = liveStatus d lineTotal r'
  idle    : day = none → r' = r

-- What payments do that are posted one after the other.
structure Took (b : ℕ) (ps : List DatedPayment) (w : ℤ) (s t : Db) : Prop where
  applied  : w = min (total ps) (s.outstandingOn b)
  left     : t.outstandingOn b = s.outstandingOn b - w
  lines    : t.table .line = s.table .line
  bill     : ∀ {r}, (s.table .bill).get b = some r → r.status.terminal = false →
    ∃ r', (t.table .bill).get b = some r' ∧ r.Took w (s.lineTotal b) (ps.getLast?.map (·.day)) r' ∧
      ((t.table .payer).get r.payer).map (·.creditBalance.units) =
        ((s.table .payer).get r.payer).map (·.creditBalance.units + (total ps - w))
  payments : ∀ {k q}, (s.table .payment).get k = some q →
    (t.table .payment).get k = some q ∧ t.appliedBy k = s.appliedBy k
  sourced  : Sourced t

theorem outstandingOn_nonneg : 0 ≤ s.outstandingOn b :=
  Table.sum_nonneg fun _ _ _ => by
    split
    · exact le_max_right _ _
    · exact le_rfl

namespace Took

theorem nil (h : Sourced s) : Took b [] 0 s s where
  applied     := by simp [outstandingOn_nonneg]
  left        := by simp
  lines       := rfl
  bill hr hl  := ⟨_, hr, ⟨rfl, rfl, hl, by simp, by simp, fun _ => rfl⟩, by simp⟩
  payments hq := ⟨hq, rfl⟩
  sourced     := h

theorem trans {ps qs : List DatedPayment} {y : ℤ} (hps : ∀ p ∈ ps, p.Whole) (hqs : ∀ p ∈ qs, p.Whole)
    (h₁ : Took b ps w s t) (h₂ : Took b qs y t u) : Took b (ps ++ qs) (w + y) s u where
  applied := by
    have := h₁.applied
    have := h₁.left
    have := h₂.applied
    have := total_nonneg hps
    have := total_nonneg hqs
    have : 0 ≤ s.outstandingOn b := outstandingOn_nonneg
    rw [total_append]
    omega
  left := by
    rw [h₂.left, h₁.left]
    omega
  lines := h₂.lines.trans h₁.lines
  bill {r} hr hl := by
    have ⟨r₁, hr₁, hran₁, hcredit₁⟩ := h₁.bill hr hl
    have ⟨r₂, hr₂, hran₂, hcredit₂⟩ := h₂.bill hr₁ hran₁.live
    rw [Db.lineTotal_congr h₁.lines] at hran₂
    refine ⟨r₂, hr₂, ⟨hran₂.payer.trans hran₁.payer, hran₂.dueDate.trans hran₁.dueDate, hran₂.live,
      by rw [hran₂.paid, hran₁.paid, add_assoc], ?_, fun hd => ?_⟩, ?_⟩
    · rw [List.getLast?_append]
      cases hlast : qs.getLast? with
      | none =>
        have hsame := hran₂.idle (by rw [hlast]; rfl)
        rw [hsame]
        exact hran₁.status
      | some p =>
        have := hran₂.status
        rwa [hlast] at this
    · simp only [Option.map_eq_none_iff, List.getLast?_eq_none_iff, List.append_eq_nil_iff] at hd
      rw [hran₂.idle (by simp [hd.2]), hran₁.idle (by simp [hd.1])]
    · rw [hran₁.payer] at hcredit₂
      rw [hcredit₂, total_append]
      cases hp : (s.table .payer).get r.payer with
      | none =>
        rw [hp, Option.map_none, Option.map_eq_none_iff] at hcredit₁
        rw [hcredit₁]
        rfl
      | some p =>
        rw [hp, Option.map_some] at hcredit₁
        have ⟨p', hp', he⟩ := Option.map_eq_some_iff.mp hcredit₁
        rw [hp', Option.map_some, Option.map_some, he]
        congr 1
        omega
  payments hq := by
    have ⟨hq₁, ha₁⟩ := h₁.payments hq
    have ⟨hq₂, ha₂⟩ := h₂.payments hq₁
    exact ⟨hq₂, ha₂.trans ha₁⟩
  sourced := h₂.sourced

end Took

-- A payment leaves what others have applied.
theorem Posted.appliedBy_ne {payment : ℕ} (h : Posted today b payment z w s t) (hk : k ≠ payment) :
    t.appliedBy k = s.appliedBy k := by
  refine Table.sum_eq_of_iff fun i a ha => ?_
  split at ha
  case isFalse => contradiction
  case isTrue hak =>
    refine ⟨fun hat => ?_, h.spread.kept⟩
    cases has : (s.table .allocation).get i with
    | some a' => exact (h.spread.kept has).symm.trans hat
    | none => exact absurd ((h.spread.fresh hat has).1.symm.trans hak) (Ne.symm hk)

theorem Posted.took {p : DatedPayment} (h : Posted p.day b k p.units w s t) (hs : Sourced t) :
    Took b [p] w s t := by
  have hsum := h.spread.sum
  rw [sum_linesOf_outstanding] at hsum
  have hlines : t.table .line = s.table .line := h.only .line (by simp)
  refine ⟨by simpa using hsum, ?left, hlines, fun {r} hr hl => ?bill, fun {i q} hq => ?payments, hs⟩
  case left =>
    rw [← sum_linesOf_outstanding, Db.linesOf_congr hlines, h.spread.left, sum_linesOf_outstanding]
  case payments =>
    have hne : i ≠ k := fun he => by simp [he, h.absent] at hq
    exact ⟨(h.payments i hne).trans hq, h.appliedBy_ne hne⟩
  case bill =>
    obtain ⟨r₀, hr₀, hreckoned, g, hg, hcredit⟩ := h.bill
    obtain rfl := Option.some.inj <| hr.symm.trans hr₀
    obtain ⟨r₀, x, total, arrears, hr₀, hx, -, -, ht⟩ := hreckoned.row
    obtain rfl := Option.some.inj <| hr.symm.trans hr₀
    rw [cents_kobo] at hx
    refine ⟨_, ht, ⟨rfl, rfl, ?_, hx, fun d hd => ?_, by simp⟩, ?_⟩
    · rw [statusOf_terminal, hl]
    · obtain rfl : p.day = d := by simpa using hd
      simp only [liveStatus, Money.toRat_eq_kobo, hx, Db.lineTotal_congr hlines]
      exact statusOf_live hl rfl
    · rw [hg, Table.get_modify, if_pos rfl]
      cases hp : (s.table .payer).get r.payer with
      | none => rfl
      | some q => simp [hcredit q hp]

theorem post_postPayment_took {p : DatedPayment} {bill : Loaded Bill} {n m : Name → ℕ} (hs : Sourced s)
    (hp : p.Whole) (hc : (postPayment p.day bill p.request).call s n = (.ok k, t, m)) :
    ∃ w, Posted p.day bill.id k p.units w s t ∧ Sourced t := by
  have ⟨⟨_, w, hw⟩, hv⟩ := Prog.call_ok (post_postPayment_kobo hs hp.1 hp.2) hc
  exact ⟨w, hw, sourced_of_valid hv⟩

theorem PaidIn.took {ps : List DatedPayment} {ks : List ℕ} (h : PaidIn b ps ks s t) (hs : Sourced s)
    (hps : ∀ p ∈ ps, p.Whole) : ∃ w, Took b ps w s t := by
  induction h with
  | nil => exact ⟨0, .nil hs⟩
  | cons hb hc _ hi =>
    have hp := hps _ (.head _)
    have hrest := fun q hq => hps q (.tail _ hq)
    have ⟨w, hw, ht⟩ := post_postPayment_took hs hp hc
    have ⟨y, hy⟩ := hi ht hrest
    exact ⟨w + y, (hb ▸ hw.took ht).trans (by simpa using hp) hrest hy⟩

-- What a reversal gives back of the credit of the payer.
theorem post_reversePayment_credit {q : Payment} (hq : (s.table .payment).get k = some q)
    (hle : s.appliedBy k ≤ q.amount.units) :
    Prog.Post (reversePayment today ⟨k, q⟩) s <| Prog.OnReturn fun _ t =>
      ∀ r, (s.table .bill).get q.bill = some r →
        ((t.table .payer).get r.payer).map (·.creditBalance.units) =
          ((s.table .payer).get r.payer).map (·.creditBalance.units - (q.amount.units - s.appliedBy k)) := by
  refine post_guard (fun _ => trivial) fun _ => ?_
  refine .bind <| post_getForUpdate (fun q' hq' => ?_) fun _ => trivial
  rw [hq] at hq'
  cases hq'
  refine .bind <| post_getForUpdate (fun r hr => ?_) fun _ => trivial
  refine .bind <| post_select <| .bind <| post_save (fun _ _ => ?_) fun _ => trivial
  refine .bind <| post_store (fun x hx => ?_) fun _ => trivial
  refine .bind <| post_save (fun _ _ => ?_) fun _ => trivial
  refine .seq (recomputeBill_keeps (P := Database.Only [Name.bill]) fun _ => only_modify <| .head _).returns
    fun _ u hu => ?_
  have hpayer : u.table .payer = s.table .payer := by
    rw [hu .payer (by simp), modify_table_ne (by decide), modify_table_ne (by decide)]
  have hleft : q.amount.toRat - kobo (s.appliedBy k) = kobo (q.amount.units - s.appliedBy k) := by
    rw [Money.toRat_eq_kobo, kobo_sub]
  rw [hleft]
  split
  case isTrue =>
    refine .imp post_addCredit fun _ t ⟨ho, g, hg, hcredit⟩ r' hr' => ?_
    obtain rfl := Option.some.inj <| hr.symm.trans hr'
    rw [hg, hpayer, Table.get_modify, if_pos rfl]
    cases hp : (s.table .payer).get r.payer with
    | none => rfl
    | some p =>
      have := hcredit p (hpayer ▸ hp)
      rw [Money.toRat_eq_kobo, ← sub_eq_add_neg, kobo_sub, ← cents, cents_kobo] at this
      simp [this]
  case isFalse hneg =>
    have : q.amount.units - s.appliedBy k = 0 := by
      by_contra hne
      exact hneg <| kobo_pos <| by omega
    refine .ret fun r' _ => ?_
    simp [hpayer, this]

-- The bill and its payer have the same money, and the bill the same status.
def SameMoney (b : ℕ) (t u : Db) : Prop :=
  ∃ r r', (t.table .bill).get b = some r ∧ (u.table .bill).get b = some r' ∧
    r.amountPaid.units = r'.amountPaid.units ∧ r.status = r'.status ∧
    ((t.table .payer).get r.payer).map (·.creditBalance.units) =
      ((u.table .payer).get r'.payer).map (·.creditBalance.units)

-- A payment that can be taken back as if it had never landed: it is the last one, nothing is left for
-- it to apply, or it takes nothing from the payments after it. Recomputing the status makes no difference
-- that another payment does not make as well.
structure Removable (today : Date) (b : ℕ) (before after : List DatedPayment) (p : DatedPayment) (s : Db) :
    Prop where
  money  : after = [] ∨ s.outstandingOn b ≤ total before ∨ total (before ++ p :: after) ≤ s.outstandingOn b
  status : before ++ after = [] → ∀ ⦃r⦄, (s.table .bill).get b = some r → r.Agrees today

-- The bill after the payment has been reversed that had `w` kobo applied.
theorem Reverted.bill_live {q : Payment} {r : Bill} (h : Reverted today k q s t) (hq : q.bill = b)
    (hr : (s.table .bill).get b = some r) (hl : r.status.terminal = false) (ha : s.appliedBy k = w)
    (hle : w ≤ r.amountPaid.units) :
    ∃ r', (t.table .bill).get b = some r' ∧ r'.payer = r.payer ∧ r'.dueDate = r.dueDate ∧
      r'.amountPaid.units = r.amountPaid.units - w ∧ r'.status = liveStatus today (s.lineTotal b) r' := by
  obtain ⟨r₀, hr₀, hreckoned⟩ := h.bill
  obtain ⟨r₁, x, total, arrears, hr₁, hx, -, -, ht⟩ := hreckoned.row
  rw [hq, hr, Option.some.injEq] at hr₀ hr₁
  subst hr₀ hr₁
  have hpaid : max (r.amountPaid.toRat - kobo (s.appliedBy k)) 0 = kobo (r.amountPaid.units - w) := by
    rw [Money.toRat_eq_kobo, kobo_sub, ha, ← kobo_zero, ← kobo_max, max_eq_left (by omega)]
  rw [hpaid, hq] at ht
  rw [hpaid, cents_kobo] at hx
  refine ⟨_, ht, rfl, rfl, hx, ?_⟩
  simp only [liveStatus, Money.toRat_eq_kobo, hx]
  rw [Db.lineTotal_congr (h.only .line (by simp))]
  exact statusOf_live hl rfl

theorem agrees_iff_liveStatus (hs : Totals s) {r : Bill} (hr : (s.table .bill).get b = some r)
    (hl : r.status.terminal = false) : r.Agrees today ↔ r.status = liveStatus today (s.lineTotal b) r := by
  rw [Bill.agrees_iff hl, liveStatus, ← (hs hr).1, ← Money.toRat_eq_kobo, eq_comm]
  exact iff_of_eq <| congrArg (r.status = ·) <| statusOf_live hl rfl

-- Payments that have been posted around `p`, which has been reversed after them.
structure Undone (today : Date) (b : ℕ) (before after : List DatedPayment) (p : DatedPayment) (s t : Db) :
    Prop where
  live  : ∃ r, (s.table .bill).get b = some r ∧ r.status.terminal = false
  whole : ∀ q ∈ before ++ p :: after, q.Whole
  run   : ∃ ks k ls u n m, ks.length = before.length ∧
    PaidIn b (before ++ p :: after) (ks ++ k :: ls) s u ∧ (reverse today k).call u n = (.ok (), t, m)

-- What is left of the bill, to which the other payments have applied `w` kobo.
structure Remains (today : Date) (w lineTotal : ℤ) (r r' : Bill) : Prop where
  payer   : r'.payer = r.payer
  dueDate : r'.dueDate = r.dueDate
  paid    : r'.amountPaid.units = r.amountPaid.units + w
  status  : r'.status = liveStatus today lineTotal r'

theorem Undone.remains {before after : List DatedPayment} {p : DatedPayment} {r : Bill}
    (h : Undone today b before after p s t) (hs : Sourced s) (hn : PaidNonneg s)
    (hr : (s.table .bill).get b = some r) : ∃ x y z r', x = min (total before) (s.outstandingOn b) ∧
      y = min p.units (s.outstandingOn b - x) ∧ z = min (total after) (s.outstandingOn b - x - y) ∧
      (t.table .bill).get b = some r' ∧ Remains today (x + z) (s.lineTotal b) r r' ∧
      ((t.table .payer).get r.payer).map (·.creditBalance.units) =
        ((s.table .payer).get r.payer).map (·.creditBalance.units + (total (before ++ after) - (x + z))) := by
  obtain ⟨ks, k, ls, u, n, m, hlen, hpaid, hreverse⟩ := h.run
  obtain ⟨r₀, hr₀, hl⟩ := h.live
  obtain rfl := Option.some.inj <| hr.symm.trans hr₀
  have hbefore : ∀ q ∈ before, q.Whole := fun q hq => h.whole q <| List.mem_append_left _ hq
  have hafter : ∀ q ∈ after, q.Whole := fun q hq => h.whole q <| List.mem_append_right _ <| .tail _ hq
  have hp : p.Whole := h.whole p <| List.mem_append_right _ <| .head _
  have hps : ∀ q ∈ [p], q.Whole := by simpa using hp
  have ⟨s₁, s₂, hrun₁, hrun₂, hrun₃⟩ := hpaid.split hlen
  have ⟨x, h₁⟩ := hrun₁.took hs hbefore
  obtain _ | ⟨rfl, hc, _ | _⟩ := hrun₂
  have ⟨y, hposted, hsourced₂⟩ := post_postPayment_took h₁.sourced hp hc
  have h₂ := hposted.took hsourced₂
  have ⟨z, h₃⟩ := hrun₃.took hsourced₂ hafter
  have hrun := h₁.trans hbefore (List.forall_mem_append.mpr ⟨hps, hafter⟩) <| h₂.trans hps hafter h₃
  have ⟨ru, hru, hran, hcredit⟩ := hrun.bill hr hl
  have hy : 0 ≤ y := by
    rw [h₂.applied]
    exact le_min (total_nonneg hps) outstandingOn_nonneg
  have hx : 0 ≤ x := h₁.applied ▸ le_min (total_nonneg hbefore) outstandingOn_nonneg
  have hz : 0 ≤ z := h₃.applied ▸ le_min (total_nonneg hafter) outstandingOn_nonneg
  -- The row and the allocations of `p` are as they were made.
  obtain ⟨q, hq, hqb, -, hqa⟩ := hposted.source
  have ⟨hqu, happlied⟩ := h₃.payments hq
  have hnone : s₁.appliedBy k = 0 := Table.sum_eq_zero fun i a ha => if_neg fun he => by
    have ⟨q, hq⟩ := h₁.sourced ha
    simp [he, hposted.absent] at hq
  rw [hposted.spread.applied, hnone, zero_add] at happlied
  have hyp : y ≤ p.units := by
    have := h₂.applied
    simp at this
    omega
  have hpost : Prog.Post (reverse today k) u <| Prog.OnReturn fun _ t => Reverted today k q u t ∧
      ∀ r, (u.table .bill).get q.bill = some r →
        ((t.table .payer).get r.payer).map (·.creditBalance.units) =
          ((u.table .payer).get r.payer).map (·.creditBalance.units - (q.amount.units - u.appliedBy k)) := by
    refine .bind <| post_getObject (fun q' hq' _ => ?_) fun _ => trivial
    obtain rfl := Option.some.inj <| hqu.symm.trans hq'
    exact (post_reversePayment_reckoned hqu).both <| post_reversePayment_credit hqu <| by omega
  have ⟨hreverted, hback⟩ := (Prog.call_ok hpost hreverse).1
  have ha₀ : 0 ≤ r.amountPaid.units := hn hr
  have ⟨r', hr', hpayer, hdue, hpaid', hstatus⟩ := hreverted.bill_live hqb hru hran.live happlied <| by
    rw [hran.paid]
    omega
  refine ⟨x, y, z, r', h₁.applied, ?_, ?_, hr', ⟨hpayer.trans hran.payer, hdue.trans hran.dueDate, ?_, ?_⟩, ?_⟩
  · have := h₂.applied
    simpa [h₁.left] using this
  · have := h₃.applied
    rw [h₂.left, h₁.left] at this
    exact this
  · rw [hpaid', hran.paid]
    omega
  · rwa [Db.lineTotal_congr hrun.lines] at hstatus
  · have := hback ru (hqb ▸ hru)
    rw [hran.payer, happlied, hqa] at this
    rw [this]
    cases hpayer : (s.table .payer).get r.payer with
    | none =>
      rw [hpayer, Option.map_none, Option.map_eq_none_iff] at hcredit
      rw [hcredit]
      rfl
    | some c =>
      rw [hpayer, Option.map_some] at hcredit
      have ⟨c', hc', he⟩ := Option.map_eq_some_iff.mp hcredit
      rw [hc', Option.map_some, Option.map_some, he]
      simp only [total_append, total_cons, total_nil]
      congr 1
      omega

-- How much is applied around a payment and without it.
theorem applied_eq_iff {c y z w₁ w₂ w₃ : ℤ} (hz : 0 ≤ z) (hw : 0 < w) (h₁ : w₁ = min y c)
    (h₂ : w₂ = min w (c - w₁)) (h₃ : w₃ = min z (c - w₁ - w₂)) :
    w₁ + w₃ = min (y + z) c ↔ z = 0 ∨ c ≤ y ∨ y + (w + z) ≤ c := by
  omega

-- The payments leave the same as without `p`, once `p` has been reversed, exactly if `p` can be removed.
theorem undone_iff_removable {ok : Db → Request → Prop} (hs : s.Reachable ok)
    {before after : List DatedPayment} {p : DatedPayment} {ks : List ℕ}
    (hundone : Undone today b before after p s t) (hother : PaidIn b (before ++ after) ks s u)
    (hday : ∀ q ∈ (before ++ after).getLast?, q.day = today) :
    SameMoney b t u ↔ Removable today b before after p s := by
  have ⟨r, hr, hl⟩ := hundone.live
  have hps : ∀ q ∈ before ++ after, q.Whole := fun q hq => hundone.whole q <| by
    rcases List.mem_append.mp hq with hq | hq
    · exact List.mem_append_left _ hq
    · exact List.mem_append_right _ <| .tail _ hq
  have hafter : ∀ q ∈ after, q.Whole := fun q hq => hps q <| List.mem_append_right _ hq
  have ⟨x, y, z, r', hx, hy, hz, hr', hremains, hcredit⟩ :=
    hundone.remains hs.tallied.sourced hs.paidNonneg hr
  have ⟨w, hrun⟩ := hother.took hs.tallied.sourced hps
  have ⟨r'', hr'', hran, hcredit'⟩ := hrun.bill hr hl
  have hw := hrun.applied
  have hpos := (hundone.whole p <| List.mem_append_right _ <| .head _).1
  have hmoney : x + z = w ↔
      after = [] ∨ s.outstandingOn b ≤ total before ∨ total (before ++ p :: after) ≤ s.outstandingOn b := by
    have hnil : total after = 0 ↔ after = [] := by
      refine ⟨fun h => ?_, fun h => by rw [h, total_nil]⟩
      by_contra hne
      exact (total_pos hafter hne).ne' h
    rw [hw, total_append, total_append, total_cons, ← hnil]
    exact applied_eq_iff (total_nonneg hafter) hpos hx hy hz
  have hlive : x + z = w → liveStatus today (s.lineTotal b) r' = liveStatus today (s.lineTotal b) r'' := by
    intro h
    have hpaid : r'.amountPaid = r''.amountPaid := Numeric.ext <| by rw [hremains.paid, hran.paid, h]
    rw [liveStatus, liveStatus, hpaid, hremains.dueDate, hran.dueDate]
  have hstatus : x + z = w → (r'.status = r''.status ↔
      (before ++ after = [] → ∀ ⦃r⦄, (s.table .bill).get b = some r → r.Agrees today)) := by
    intro h
    rw [hremains.status, hlive h]
    cases hlast : (before ++ after).getLast? with
    | some q =>
      have hne : before ++ after ≠ [] := fun he => by simp [he] at hlast
      have hd : q.day = today := hday q hlast
      have := hran.status q.day (by rw [hlast]; rfl)
      rw [hd] at this
      exact iff_of_true this.symm fun he => absurd he hne
    | none =>
      rw [List.getLast?_eq_none_iff] at hlast
      obtain rfl := hran.idle (by rw [hlast]; rfl)
      rw [eq_comm, ← agrees_iff_liveStatus hs.tallied.totals hr hl]
      refine ⟨fun ha _ r₀ hr₀ => ?_, fun ha => ha hlast hr⟩
      obtain rfl := Option.some.inj <| hr.symm.trans hr₀
      exact ha
  have hsame : x + z = w → ((t.table .payer).get r'.payer).map (·.creditBalance.units) =
      ((u.table .payer).get r''.payer).map (·.creditBalance.units) := by
    intro h
    rw [hremains.payer, hran.payer, hcredit, hcredit', h]
  constructor
  · rintro ⟨_, _, he', he'', hpaid, hst, -⟩
    obtain rfl := Option.some.inj <| hr'.symm.trans he'
    obtain rfl := Option.some.inj <| hr''.symm.trans he''
    have h : x + z = w := by
      rw [hremains.paid, hran.paid] at hpaid
      omega
    exact ⟨hmoney.mp h, (hstatus h).mp hst⟩
  · rintro ⟨hm, hst⟩
    have h := hmoney.mpr hm
    exact ⟨r', r'', hr', hr'', by rw [hremains.paid, hran.paid, h], (hstatus h).mpr hst, hsame h⟩

namespace Sample

def payment (z : ℤ) : DatedPayment :=
  ⟨day, 1, 1, kobo z, "", none, .ok (none, none), none⟩

-- The state and the sequences after a payment on the first bill.
def post (s : Db × (Name → ℕ)) (z : ℤ) : Db × (Name → ℕ) :=
  ((postPayment day issuedBill (payment z).request).call s.1 s.2).2

def takeBack (s : Db × (Name → ℕ)) : Db × (Name → ℕ) :=
  ((reverse day 1).call s.1 s.2).2

def posts (s : Db × (Name → ℕ)) (z : ℤ) : Option ℕ :=
  ((postPayment day issuedBill (payment z).request).call s.1 s.2).1.toOption

theorem payment_whole {z : ℤ} (h : 0 < z) : (payment z).Whole := by
  have : (payment z).units = z := cents_kobo z
  rw [Whole, this]
  exact ⟨h, rfl⟩

theorem paidIn_post {s : Db × (Name → ℕ)} {u : Db} {z : ℤ} {ps : List DatedPayment} {ks : List ℕ}
    (h : posts s z = some k) (hrest : PaidIn 1 ps ks (post s z).1 u) :
    PaidIn 1 (payment z :: ps) (k :: ks) s.1 u :=
  .cons (rfl : issuedBill.id = 1) (call_returns h) hrest

-- The first of two payments is reversed.
theorem undone_post {y z : ℤ} (hy : 0 < y) (hz : 0 < z) (h₁ : posts issued y = some 1)
    (h₂ : posts (post issued y) z = some 2)
    (h₃ : ((reverse day 1).call (post (post issued y) z).1 (post (post issued y) z).2).1.toOption = some ())
    (hbill : ((issued.1.table .bill).get 1).any fun r => !r.status.terminal) :
    Undone day 1 [] [payment z] (payment y) issued.1 (takeBack (post (post issued y) z)).1 where
  live := by
    have ⟨r, hr, hl⟩ := Option.any_eq_true _ _ |>.mp hbill
    exact ⟨r, hr, by simpa using hl⟩
  whole q hq := by
    rcases List.mem_cons.mp hq with rfl | hq
    · exact payment_whole hy
    · exact List.mem_singleton.mp hq ▸ payment_whole hz
  run := ⟨[], 1, [2], _, _, _, rfl, paidIn_post h₁ <| paidIn_post h₂ .nil, call_returns h₃⟩

end Sample

set_option maxRecDepth 20000 in
theorem sample_undone : SameMoney 1 (Sample.takeBack (Sample.post (Sample.post Sample.issued 500) 1000)).1
    (Sample.post Sample.issued 1000).1 := by
  have hs : Sample.issued.1.Reachable fun _ _ => True := Sample.reachable_issued trivial
  have hundone : Undone Sample.day 1 [] [Sample.payment 1000] (Sample.payment 500) Sample.issued.1 _ :=
    Sample.undone_post (by norm_num) (by norm_num) (by decide +kernel) (by decide +kernel) (by decide +kernel)
      (by decide +kernel)
  have hother : PaidIn 1 [Sample.payment 1000] [1] Sample.issued.1 _ :=
    Sample.paidIn_post (by decide +kernel) .nil
  refine (undone_iff_removable hs hundone hother (by simp [Sample.payment])).mpr ⟨.inr <| .inr ?_, by simp⟩
  have hout : Sample.issued.1.outstandingOn 1 = 2000 := by decide +kernel
  have htotal : total [Sample.payment 500, Sample.payment 1000] = 1500 := by decide +kernel
  rw [List.nil_append, htotal, hout]
  norm_num

set_option maxRecDepth 20000 in
-- 15.00 and then 10.00 are paid on a bill of 20.00, and the first payment is reversed: 5.00 of the second
-- one stay credited, where without the first one all of it is applied.
theorem not_sameMoney_of_split : ∃ (s t u : Db) (before after : List DatedPayment) (p : DatedPayment)
    (ks : List ℕ), s.Reachable (fun _ r => r.Positive) ∧ Undone Sample.day 1 before after p s t ∧
      PaidIn 1 (before ++ after) ks s u ∧ (∀ q ∈ (before ++ after).getLast?, q.day = Sample.day) ∧
      ¬SameMoney 1 t u := by
  have hundone : Undone Sample.day 1 [] [Sample.payment 1000] (Sample.payment 1500) Sample.issued.1 _ :=
    Sample.undone_post (by norm_num) (by norm_num) (by decide +kernel) (by decide +kernel) (by decide +kernel)
      (by decide +kernel)
  have hother : PaidIn 1 [Sample.payment 1000] [1] Sample.issued.1 _ :=
    Sample.paidIn_post (by decide +kernel) .nil
  refine ⟨_, _, _, _, _, _, _, Sample.reachable_issued trivial, hundone, hother, by simp [Sample.payment], ?_⟩
  rintro ⟨r, r', hr, hr', hpaid, -⟩
  have h : (((Sample.takeBack (Sample.post (Sample.post Sample.issued 1500) 1000)).1.table .bill).get 1).map
      (·.amountPaid.units) = some 500 := by decide +kernel
  have h' : (((Sample.post Sample.issued 1000).1.table .bill).get 1).map (·.amountPaid.units) = some 1000 := by
    decide +kernel
  rw [hr, Option.map_some, Option.some.injEq] at h
  rw [hr', Option.map_some, Option.some.injEq] at h'
  omega

end ACRev360
