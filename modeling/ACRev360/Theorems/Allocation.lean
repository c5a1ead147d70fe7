import ACRev360.Theorems.Ledger
import ACRev360.Theorems.Reckoning

namespace ACRev360

open Relational Relational.Database

-- How a payment of whole kobo is spread over the lines of its bill.

variable {s t u : Db} {b k payment : ℕ} {today : Date} {y z w : ℤ} {lines : List (Loaded BillLine)}

theorem fits_kobo (hz : 0 ≤ z) (h : z < 10 ^ 28) : Decimal.Fits (kobo z) := by
  obtain ⟨n, rfl⟩ := Int.eq_ofNat_of_zero_le hz
  have : n < 10 ^ 28 := by exact_mod_cast h
  exact ⟨2, n, le_rfl, this, by norm_num [kobo]⟩

theorem round_kobo (h : z.natAbs < 10 ^ 28) : Decimal.round (kobo z) = kobo z := by
  rcases le_total 0 z with hz | hz
  case inl => exact (fits_kobo hz (by omega)).round_eq
  case inr =>
    have hneg : kobo z = -kobo (-z) := by simp [kobo, neg_div]
    have hfit : Decimal.Fits (kobo (-z)) := fits_kobo (by omega) (by omega)
    rw [hneg, hfit.round_neg_eq]

theorem kobo_min (y z : ℤ) : kobo (min y z) = min (kobo y) (kobo z) := by
  have : Monotone kobo := fun y z h => by
    rw [kobo, kobo]
    have : (y : ℚ) ≤ z := by exact_mod_cast h
    linarith
  exact this.map_min

theorem sum_outstanding_nonneg : 0 ≤ (lines.map fun l => s.outstanding l.id l.row).sum := by
  refine List.sum_nonneg fun x hx => ?_
  have ⟨l, _, he⟩ := List.mem_map.mp hx
  exact he ▸ le_max_right _ _

-- The lines have been given `w` of the `z` kobo of the payment, one after the other.
structure Spread (payment : ℕ) (lines : List (Loaded BillLine)) (z w : ℤ) (s t : Db) : Prop where
  sum     : w = min z (lines.map fun l => s.outstanding l.id l.row).sum
  left    : (lines.map fun l => t.outstanding l.id l.row).sum =
    (lines.map fun l => s.outstanding l.id l.row).sum - w
  applied : t.appliedBy payment = s.appliedBy payment + w
  kept    : ∀ {k a}, (s.table .allocation).get k = some a → (t.table .allocation).get k = some a
  -- What is new goes to a line that has room for it, after the lines before it have been filled.
  fresh   : ∀ {k a}, (t.table .allocation).get k = some a → (s.table .allocation).get k = none →
    a.payment = payment ∧ 0 < a.amount.units ∧ ∃ before l after, lines = before ++ l :: after ∧
      a.line = l.id ∧ t.paidAmount l.id ≤ l.row.lineAmount.units ∧
      ∀ l' ∈ before, l'.row.lineAmount.units ≤ t.paidAmount l'.id
  off     : ∀ {k}, k ∉ lines.map Loaded.id → t.paidAmount k = s.paidAmount k

theorem Spread.congr {s' t' : Db} (h : Spread payment lines z w s t)
    (hs : s'.table .allocation = s.table .allocation) (hs' : s'.paidAmount = s.paidAmount)
    (ht : t'.table .allocation = t.table .allocation) (ht' : t'.paidAmount = t.paidAmount) :
    Spread payment lines z w s' t' where
  sum     := by simpa only [Db.outstanding, hs'] using h.sum
  left    := by simpa only [Db.outstanding, hs', ht'] using h.left
  applied := by rw [Db.appliedBy_congr hs, Db.appliedBy_congr ht, h.applied]
  kept    := by rw [hs, ht]; exact h.kept
  fresh   := by rw [hs, ht, ht']; exact h.fresh
  off     := by rw [hs', ht']; exact h.off

structure Distributed (payment : ℕ) (lines : List (Loaded BillLine)) (z w : ℤ) (s t : Db) : Prop
    extends Spread payment lines z w s t where
  idle : z = 0 → t = s
  only : Database.Only [Name.allocation] s t

namespace Distributed

theorem nil (hz : 0 ≤ z) : Distributed payment [] z 0 s s where
  sum        := by simp [hz]
  left       := by simp
  applied    := by simp
  kept h     := h
  fresh h hn := by simp [h] at hn
  off _      := rfl
  idle _     := rfl
  only       := Std.Refl.refl _

-- Nothing remains.
theorem done : Distributed payment lines 0 0 s s where
  sum        := (min_eq_left sum_outstanding_nonneg).symm
  left       := by simp
  applied    := by simp
  kept h     := h
  fresh h hn := by simp [h] at hn
  off _      := rfl
  idle _     := rfl
  only       := Std.Refl.refl _

-- Nothing is owed on the first line.
theorem skip {line : Loaded BillLine} (h : Distributed payment lines z w s t)
    (hline : line.id ∉ lines.map Loaded.id) (hpaid : line.row.lineAmount.units ≤ s.paidAmount line.id) :
    Distributed payment (line :: lines) z w s t := by
  have hsettled : s.outstanding line.id line.row = 0 := max_eq_right <| by omega
  have hout : t.outstanding line.id line.row = 0 := by
    rw [Db.outstanding, h.off hline, ← Db.outstanding, hsettled]
  refine ⟨⟨?_, ?_, h.applied, h.kept, fun ha hn => ?fresh, fun hk => h.off (hk <| .tail _ ·)⟩, h.idle, h.only⟩
  · rw [List.map_cons, List.sum_cons, hsettled, zero_add]
    exact h.sum
  · rw [List.map_cons, List.sum_cons, List.map_cons, List.sum_cons, hsettled, hout, zero_add, zero_add]
    exact h.left
  case fresh =>
    obtain ⟨hp, hpos, before, l, after, he, hl, hroom, hfull⟩ := h.fresh ha hn
    refine ⟨hp, hpos, line :: before, l, after, by rw [he]; rfl, hl, hroom, fun l' hl' => ?_⟩
    rcases List.mem_cons.mp hl' with rfl | hl'
    · rwa [h.off hline]
    · exact hfull l' hl'

-- The first line is given what it owes, or all that remains.
theorem take {line : Loaded BillLine} {x : Money} (hr : k ∉ s.retired .allocation)
    (hk : (s.table .allocation).get k = none) (hc : s.confirmed payment)
    (hline : line.id ∉ lines.map Loaded.id) (hz : 0 < z) (hdebt : s.paidAmount line.id < line.row.lineAmount.units)
    (hx : x.units = min z (line.row.lineAmount.units - s.paidAmount line.id))
    (h : Distributed payment lines (z - x.units) w (s.insert .allocation k ⟨payment, line.id, x⟩) t) :
    Distributed payment (line :: lines) z (x.units + w) s t := by
  have hpaid : ∀ i, Db.paidAmount (s.insert .allocation k ⟨payment, line.id, x⟩) i =
      s.paidAmount i + if line.id = i ∧ s.confirmed payment then x.units else 0 := fun i =>
    paidAmount_insert (a := ⟨payment, line.id, x⟩) hr hk
  have hfirst : t.paidAmount line.id = s.paidAmount line.id + x.units := by
    rw [h.off hline, hpaid, if_pos ⟨rfl, hc⟩]
  have hother : ∀ {i}, i ≠ line.id →
      Db.paidAmount (s.insert .allocation k ⟨payment, line.id, x⟩) i = s.paidAmount i := fun hi => by
    rw [hpaid, if_neg fun h => hi h.1.symm, add_zero]
  have hrest : (lines.map fun l => Db.outstanding (s.insert .allocation k ⟨payment, line.id, x⟩) l.id l.row) =
      lines.map fun l => s.outstanding l.id l.row := by
    refine List.map_congr_left fun l hl => ?_
    have hne : l.id ≠ line.id := fun he => hline <| he ▸ List.mem_map_of_mem hl
    rw [Db.outstanding, Db.outstanding, hother hne]
  have hsum := h.sum
  have hleft := h.left
  rw [hrest] at hsum hleft
  have happlied : t.appliedBy payment = x.units + s.appliedBy payment + w := by
    rw [h.applied, Db.appliedBy, insert_table hr, Table.sum_insert hk, if_pos rfl]
    rfl
  refine ⟨⟨?sum, ?left, by omega, fun ha => ?kept, fun ha hn => ?fresh, fun hi => ?off⟩, by omega,
    IsTrans.trans _ _ _ (only_insert <| .head _) h.only⟩
  case sum =>
    have : 0 ≤ (lines.map fun l => s.outstanding l.id l.row).sum := sum_outstanding_nonneg
    rw [List.map_cons, List.sum_cons, Db.outstanding]
    omega
  case left =>
    rw [List.map_cons, List.sum_cons, List.map_cons, List.sum_cons, Db.outstanding, Db.outstanding, hfirst]
    omega
  case kept => exact h.kept <| get_insert_of_some ha
  case off =>
    obtain ⟨hi₁, hi₂⟩ := not_or.mp <| List.mem_cons.not.mp hi
    rw [h.off hi₂, hother hi₁]
  case fresh i a =>
    by_cases hi : i = k
    case pos =>
      have hself : (t.table .allocation).get k = some ⟨payment, line.id, x⟩ :=
        h.kept <| by rw [insert_table hr, Table.get_insert_self hk]
      obtain rfl : a = ⟨payment, line.id, x⟩ := Option.some.inj <| ha.symm.trans <| hi ▸ hself
      have hpos : 0 < x.units := by omega
      exact ⟨rfl, hpos, [], line, lines, rfl, rfl, by omega, by simp⟩
    case neg =>
      have hn' : ((s.insert .allocation k ⟨payment, line.id, x⟩).table .allocation).get i = none := by
        rw [insert_table hr, Table.get_insert_ne hi, hn]
      obtain ⟨hp, hpos, before, l, after, he, hl, hroom, hfull⟩ := h.fresh ha hn'
      refine ⟨hp, hpos, line :: before, l, after, by rw [he]; rfl, hl, hroom, fun l' hl' => ?_⟩
      rcases List.mem_cons.mp hl' with rfl | hl'
      case inr => exact hfull l' hl'
      -- Something has been left for the other lines.
      have : z - x.units ≠ 0 := fun h₀ => by
        rw [h.idle h₀, hn'] at ha
        contradiction
      omega

end Distributed

theorem post_allocate_kobo {due : ℕ → ℤ} (hc : s.confirmed payment) (hy : 0 ≤ y) (hz : 0 ≤ z)
    (hlt : y + z < 10 ^ 28) (hnodup : (lines.map Loaded.id).Nodup)
    (hdue : ∀ l ∈ lines, due l.id = s.paidAmount l.id) :
    Prog.Post (allocate payment due lines (kobo z) (kobo y)) s <| Prog.OnReturn fun out t =>
      ∃ w, out = (kobo (y + w), kobo (z - w)) ∧ Distributed payment lines z w s t := by
  induction lines generalizing s y z with
  | nil => exact .ret ⟨0, by simp, .nil hz⟩
  | cons line lines hi =>
    obtain ⟨hline, hnodup⟩ := List.nodup_cons.mp hnodup
    unfold allocate
    split
    case isTrue hle =>
      obtain rfl : z = 0 := le_antisymm (not_lt.mp fun h => hle.not_gt <| kobo_pos h) hz
      exact .ret ⟨0, by simp, .done⟩
    case isFalse hpos =>
      have hpos : 0 < z := lt_of_le_of_ne hz fun h => hpos <| by simp [← h]
      simp only [hdue line <| .head _]
      split
      case isTrue hsettled =>
        refine .imp (hi hc hy hz hlt hnodup fun l hl => hdue l <| .tail _ hl) fun _ t hpost => ?_
        obtain ⟨w, hout, h⟩ := hpost
        exact ⟨w, hout, h.skip hline <| by omega⟩
      case isFalse hdebt =>
        refine .bind <| post_store (fun x hx => ?_) fun _ => trivial
        refine .bind <| post_create (fun k hk => ?_) fun _ => trivial
        obtain ⟨hr, hk, _⟩ := conflicts_false hk
        rw [← kobo_min, ← cents, cents_kobo] at hx
        have hround : Decimal.round (kobo z - kobo x.units) = kobo (z - x.units) := by
          rw [kobo_sub]
          exact round_kobo (by omega)
        have hround' : Decimal.round (kobo y + kobo x.units) = kobo (y + x.units) := by
          rw [kobo_add]
          exact round_kobo (by omega)
        rw [← kobo_min, ← hx, hround, hround']
        refine .imp (hi ?confirmed (by omega) (by omega) (by omega) hnodup fun l hl => ?due)
          fun _ t hpost => ?take
        case take =>
          obtain ⟨w, hout, h⟩ := hpost
          refine ⟨x.units + w, ?_, h.take hr hk hc hline hpos (by omega) hx⟩
          rw [hout, add_assoc, sub_sub]
        case confirmed =>
          rwa [Db.confirmed_congr (insert_table_ne (by decide))]
        case due =>
          have hne : line.id ≠ l.id := fun he => hline <| he ▸ List.mem_map_of_mem hl
          rw [hdue l <| .tail _ hl, paidAmount_insert (a := ⟨payment, line.id, x⟩) hr hk,
            if_neg fun h => hne h.1, add_zero]

theorem sum_linesOf_outstanding : ((s.linesOf b).map fun l => s.outstanding l.id l.row).sum = s.outstandingOn b :=
  sum_linesOf (f := s.outstanding)

theorem post_allocateFifo_kobo (hc : s.confirmed payment) (hz : 0 ≤ z) (hlt : z < 10 ^ 28) :
    Prog.Post (allocateFifo payment (kobo z) b) s <| Prog.OnReturn fun out t =>
      ∃ w, out = (kobo w, kobo (z - w)) ∧ Distributed payment (s.linesOf b) z w s t := by
  refine .bind <| post_select <| .seq (post_lockFound fun _ => id) fun lines s₁ ⟨hs₁, hlines⟩ => ?_
  subst hs₁ hlines
  refine .bind <| post_select ?_
  have := @post_allocate_kobo s₁ payment 0 z (Db.linesOf s₁ b) (Db.paidAmount s₁) hc le_rfl hz (by omega)
    linesOf_nodup fun _ _ => rfl
  simpa using this

-- What `post_payment` does with `z` kobo, of which `w` are applied to the bill.
structure Posted (today : Date) (b payment : ℕ) (z w : ℤ) (s t : Db) : Prop where
  absent   : (s.table .payment).get payment = none
  source   : ∃ q, (t.table .payment).get payment = some q ∧ q.bill = b ∧ q.txnStatus = .confirmed ∧
    q.amount.units = z
  payments : ∀ k ≠ payment, (t.table .payment).get k = (s.table .payment).get k
  spread   : Spread payment (s.linesOf b) z w s t
  bill     : ∃ r, (s.table .bill).get b = some r ∧ Reckoned today b (kobo (r.amountPaid.units + w)) s t ∧
    ∃ g : Payer → Payer, t.table .payer = (s.table .payer).modify r.payer g ∧ ∀ p,
      (s.table .payer).get r.payer = some p → (g p).creditBalance.units = p.creditBalance.units + (z - w)
  only     : Database.Only [Name.payment, Name.allocation, Name.bill, Name.payer, Name.receipt,
    Name.debtCase] s t

theorem post_postPayment_kobo {bill : Loaded Bill} {r : PaymentRequest} (h : Sourced s) (hz : 0 < z)
    (hamount : r.amount = kobo z) : Prog.Post (postPayment today bill r) s <| Prog.OnReturn fun payment t =>
      bill.row.status.terminal = false ∧ ∃ w, Posted today bill.id payment z w s t := by
  refine post_guard (fun _ => trivial) fun hsup => post_guard (fun _ => trivial) fun hcan => ?_
  have hlive : bill.row.status.terminal = false := by
    cases hst : bill.row.status <;> simp_all [BillStatus.terminal]
  refine .bind <| post_getForUpdate (fun row hrow => ?_) fun _ => trivial
  refine .seq post_createPayment_row fun payment s₁ hpost => ?_
  obtain ⟨hnew, hold, ⟨q, hq, hqb, hqc, hqa⟩, ho₁⟩ := hpost
  rw [hamount, cents_kobo] at hqa
  have hlt : z < 10 ^ 14 := by
    have := q.amount.bound
    omega
  have hpaid₁ : Db.paidAmount s₁ = s.paidAmount := paidAmount_of_new h ho₁ hnew hold
  have hlines₁ : Db.linesOf s₁ = s.linesOf := Db.linesOf_congr <| ho₁ .line (by simp)
  have hconf : Db.confirmed s₁ payment := by simp [Db.confirmed, hq, hqc]
  rw [hamount]
  refine .seq (post_allocateFifo_kobo hconf hz.le (hlt.trans <| by norm_num)) fun out s₂ hpost => ?_
  obtain ⟨w, hout, hdist⟩ := hpost
  subst hout
  have hspread := hdist.toSpread.congr (ho₁ .allocation (by simp)).symm hpaid₁.symm rfl rfl
  rw [hlines₁] at hspread
  have hw : 0 ≤ w := hspread.sum ▸ le_min hz.le sum_outstanding_nonneg
  have hwz : w ≤ z := hspread.sum ▸ min_le_left _ _
  have hround : Decimal.round (row.amountPaid.toRat + kobo w) = kobo (row.amountPaid.units + w) := by
    have := row.amountPaid.bound
    rw [Money.toRat_eq_kobo, kobo_add]
    exact round_kobo (by omega)
  simp only [hround]
  refine .bind <| post_store (fun x hx => ?_) fun _ => trivial
  refine .bind <| post_save (fun _ _ => ?_) fun _ => trivial
  have hbill₂ : s₂.table .bill = s.table .bill := (hdist.only .bill (by simp)).trans (ho₁ .bill (by simp))
  refine .seq (post_recompute (s := s) hrow hx ?found ?others) fun status s₃ hpost => ?_
  case found => rw [modify_table, Table.get_modify, if_pos rfl, hbill₂, hrow]; rfl
  case others =>
    intro k hk
    rw [modify_table, Table.get_modify, if_neg hk, hbill₂]
  obtain ⟨_, hreckoned, ho₃⟩ := hpost
  have hpayer₃ : s₃.table .payer = s.table .payer := by
    rw [ho₃ .payer (by simp), modify_table_ne (by decide), hdist.only .payer (by simp), ho₁ .payer (by simp)]
  have posted : ∀ {v : Db}, Database.Only [Name.payer, Name.receipt, Name.debtCase] s₃ v →
      (∃ g : Payer → Payer, v.table .payer = (s.table .payer).modify row.payer g ∧ ∀ p,
        (s.table .payer).get row.payer = some p →
          (g p).creditBalance.units = p.creditBalance.units + (z - w)) →
      Posted today bill.id payment z w s v := by
    intro v ho₄ hcredit
    have ho : Database.Only [Name.allocation, Name.bill, Name.payer, Name.receipt, Name.debtCase] s₁ v := by
      refine IsTrans.trans _ _ _ (hdist.only.mono <| by simp) ?_
      refine IsTrans.trans _ _ _ (only_modify <| by simp) <| IsTrans.trans _ _ _ (ho₃.mono <| by simp) ?_
      exact ho₄.mono <| by simp
    have hpayment : v.table .payment = s₁.table .payment := ho .payment (by simp)
    have hpayment₂ : v.table .payment = s₂.table .payment :=
      hpayment.trans (hdist.only .payment (by simp)).symm
    have halloc : v.table .allocation = s₂.table .allocation := by
      rw [ho₄ .allocation (by simp), ho₃ .allocation (by simp), modify_table_ne (by decide)]
    refine ⟨hnew, ⟨q, hpayment ▸ hq, hqb, hqc, hqa⟩, fun k hk => by rw [hpayment, hold k hk], ?_,
      ⟨row, hrow, hreckoned.congr (ho₄ .bill (by simp)) (ho₄ .line (by simp)), hcredit⟩, ?_⟩
    · exact hspread.congr rfl rfl halloc (Db.paidAmount_congr halloc hpayment₂)
    · exact IsTrans.trans _ _ _ (ho₁.mono <| by simp) (ho.mono <| by simp)
  have finish : ∀ {u : Db}, Database.Only [Name.payer] s₃ u →
      (∃ g : Payer → Payer, u.table .payer = (s.table .payer).modify row.payer g ∧ ∀ p,
        (s.table .payer).get row.payer = some p →
          (g p).creditBalance.units = p.creditBalance.units + (z - w)) →
      Prog.Post (do
        createReceipt r.council payment
        if status = BillStatus.paid then closeDebtCaseForBill today bill.id
        return payment : Service ℕ) u (Prog.OnReturn fun payment t =>
          bill.row.status.terminal = false ∧ ∃ w, Posted today bill.id payment z w s t) := by
    rintro u ho₄ ⟨g, hg, hcredit⟩
    refine .seq (createReceipt_keeps id).returns fun _ u₁ hu₁ => ?_
    have ho₅ : Database.Only [Name.payer, Name.receipt, Name.debtCase] s₃ u₁ :=
      IsTrans.trans _ _ _ (ho₄.mono <| by simp) (hu₁.mono <| by simp)
    have hg₁ : u₁.table .payer = (s.table .payer).modify row.payer g := by rw [hu₁ .payer (by simp), hg]
    refine post_when (fun _ => ?_) fun _ => .ret ⟨hlive, w, posted ho₅ ⟨g, hg₁, hcredit⟩⟩
    refine .seq closeDebtCaseForBill_only.returns fun _ u₂ hu₂ => .ret ⟨hlive, w, posted ?_ ⟨g, ?_, hcredit⟩⟩
    · exact IsTrans.trans _ _ _ ho₅ (hu₂.mono <| by simp)
    · rw [hu₂ .payer (by simp), hg₁]
  refine post_when (fun hpos => ?credit) fun hneg => ?none
  case credit =>
    refine .seq post_addCredit fun _ s₄ hpost => ?_
    obtain ⟨ho₄, g, hg, hcredit⟩ := hpost
    refine finish ho₄ ⟨g, hpayer₃ ▸ hg, fun p hp => ?_⟩
    rw [hcredit p (hpayer₃ ▸ hp), Money.toRat_eq_kobo, kobo_add, ← cents, cents_kobo]
  case none =>
    have hspent : z - w = 0 := by
      by_contra hne
      exact hneg <| kobo_pos <| by omega
    refine finish (Std.Refl.refl _) ⟨id, by rw [hpayer₃, Table.modify_id], fun p _ => ?_⟩
    rw [hspent, add_zero]
    rfl

-- A line is filled before another one of its bill.
def Loaded.Before (x y : Loaded BillLine) : Prop :=
  x.row.position < y.row.position ∨ (x.row.position = y.row.position ∧ x.id < y.id)

theorem linesOf_sorted : (s.linesOf b).Pairwise fun x y =>
    x.row.position < y.row.position ∨ (x.row.position = y.row.position ∧ x.id ≤ y.id) := by
  let r (x y : Loaded BillLine) : Prop :=
    x.row.position < y.row.position ∨ (x.row.position = y.row.position ∧ x.id ≤ y.id)
  have : Std.Total r := ⟨fun x y => by simp only [r]; omega⟩
  have : IsTrans (Loaded BillLine) r := ⟨fun x y z => by simp only [r]; omega⟩
  exact List.pairwise_insertionSort r _

theorem linesOf_before {before after : List (Loaded BillLine)} {l l' : Loaded BillLine}
    (h : s.linesOf b = before ++ l :: after) (hl' : l' ∈ s.linesOf b) (hlt : l'.Before l) : l' ∈ before := by
  have hsorted : (s.linesOf b).Pairwise _ := linesOf_sorted
  rw [h] at hsorted hl'
  rcases List.mem_append.mp hl' with hl' | hl'
  · exact hl'
  · have hle : l.row.position < l'.row.position ∨ (l.row.position = l'.row.position ∧ l.id ≤ l'.id) := by
      rcases List.mem_cons.mp hl' with rfl | hl'
      · exact .inr ⟨rfl, le_rfl⟩
      · exact (List.pairwise_cons.mp (List.pairwise_append.mp hsorted).2.1).1 l' hl'
    rw [Loaded.Before] at hlt
    omega

-- The allocations of a payment of `z` kobo on bill `b`, of which `w` are applied and the rest is left
-- over.
structure FifoAllocated (b payment : ℕ) (z w : ℤ) (s t : Db) : Prop where
  kept     : ∀ {k a}, (s.table .allocation).get k = some a → (t.table .allocation).get k = some a
  positive : ∀ {k a}, (t.table .allocation).get k = some a → (s.table .allocation).get k = none →
    a.payment = payment ∧ 0 < a.amount.units
  within   : ∀ {k a}, (t.table .allocation).get k = some a → (s.table .allocation).get k = none →
    ∃ l, (s.table .line).get a.line = some l ∧ l.bill = b ∧ t.paidAmount a.line ≤ l.lineAmount.units
  inOrder  : ∀ {k a l l'}, (t.table .allocation).get k = some a → (s.table .allocation).get k = none →
    l ∈ s.linesOf b → l.id = a.line → l' ∈ s.linesOf b → l'.Before l →
    l'.row.lineAmount.units ≤ t.paidAmount l'.id
  sum      : t.appliedBy payment = w ∧ w = min z (s.outstandingOn b)
  bill     : ∃ r r', (s.table .bill).get b = some r ∧ (t.table .bill).get b = some r' ∧
    r'.amountPaid.units = r.amountPaid.units + w ∧ ∀ p, (s.table .payer).get r.payer = some p →
      ∃ p', (t.table .payer).get r.payer = some p' ∧
        p'.creditBalance.units = p.creditBalance.units + (z - w)
  leftover : 0 < z - w → ∀ {k l}, (s.table .line).get k = some l → l.bill = b →
    l.lineAmount.units ≤ t.paidAmount k

theorem Spread.filled (h : Spread payment (s.linesOf b) z w s t) (hlt : w < z) {l : BillLine}
    (hl : (s.table .line).get k = some l) (hb : l.bill = b) : l.lineAmount.units ≤ t.paidAmount k := by
  have hmem : (⟨k, l⟩ : Loaded BillLine) ∈ s.linesOf b := mem_linesOf.mpr ⟨hl, hb⟩
  have hzero : ((s.linesOf b).map fun l => t.outstanding l.id l.row).sum = 0 := by
    have := h.sum
    rw [h.left]
    omega
  have hle : t.outstanding k l ≤ 0 := by
    rw [← hzero]
    refine List.single_le_sum (fun x hx => ?_) _ <| List.mem_map.mpr ⟨_, hmem, rfl⟩
    have ⟨l, _, he⟩ := List.mem_map.mp hx
    exact he ▸ le_max_right _ _
  have := (le_max_left _ _).trans hle
  omega

theorem Posted.fifoAllocated (h : Posted today b payment z w s t) (hs : Sourced s) :
    FifoAllocated b payment z w s t where
  kept := h.spread.kept
  positive ha hn := by
    have ⟨hp, hpos, _⟩ := h.spread.fresh ha hn
    exact ⟨hp, hpos⟩
  within ha hn := by
    have ⟨_, _, before, l, after, hlines, he, hroom, _⟩ := h.spread.fresh ha hn
    have hl : l ∈ s.linesOf b := hlines ▸ by simp
    have ⟨hget, hbill⟩ := mem_linesOf.mp hl
    exact ⟨l.row, he ▸ hget, hbill, he ▸ hroom⟩
  inOrder {k a l l'} ha hn hl he hl' hlt := by
    have ⟨_, _, before, l₁, after, hlines, he₁, _, hfull⟩ := h.spread.fresh ha hn
    have hl₁ : l₁ ∈ s.linesOf b := hlines ▸ by simp
    obtain rfl := List.inj_on_of_nodup_map linesOf_nodup hl hl₁ (he.trans he₁)
    exact hfull l' <| linesOf_before hlines hl' hlt
  sum := by
    have hsum := h.spread.sum
    rw [sum_linesOf_outstanding] at hsum
    refine ⟨?_, hsum⟩
    have hnone : s.appliedBy payment = 0 := Table.sum_eq_zero fun i a ha => if_neg fun he => by
      have ⟨q, hq⟩ := hs ha
      simp [he, h.absent] at hq
    rw [h.spread.applied, hnone, zero_add]
  bill := by
    obtain ⟨r, hr, hreckoned, g, hg, hcredit⟩ := h.bill
    obtain ⟨r', x, total, arrears, hr', hx, _, _, ht⟩ := hreckoned.row
    obtain rfl := Option.some.inj <| hr.symm.trans hr'
    refine ⟨r, _, hr, ht, hx.trans <| cents_kobo _, fun p hp => ⟨g p, ?_, hcredit p hp⟩⟩
    rw [hg, Table.get_modify, if_pos rfl, hp, Option.map_some]
  leftover hpos := h.spread.filled (by omega)

-- A positive payment of whole kobo fills the lines of its bill in their order.
theorem postPayment_fifo {bill : Loaded Bill} {r : PaymentRequest} {n m : Name → ℕ}
    (hv : Database.valid s) (hz : 0 < z) (ha : r.amount = kobo z)
    (hc : (postPayment today bill r).call s n = (.ok payment, t, m)) :
    ∃ w, FifoAllocated bill.id payment z w s t := by
  have hs : Sourced s := sourced_of_valid hv
  have ⟨⟨_, w, hw⟩, _⟩ := Prog.call_ok (post_postPayment_kobo hs hz ha) hc
  exact ⟨w, hw.fifoAllocated hs⟩

namespace Sample

set_option maxRecDepth 20000 in
def issuedBill : Loaded Bill :=
  ⟨1, ((issued.1.table .bill).get 1).get (by decide +kernel)⟩

-- A quarter more than the bill.
def overpayment : PaymentRequest :=
  ⟨1, 1, kobo 2500, "", none, .ok (none, none), none⟩

end Sample

set_option maxRecDepth 20000 in
theorem sample_fifo : ∃ (t : Db) (w : ℤ), FifoAllocated 1 1 2500 w Sample.issued.1 t := by
  have hc := Sample.call_returns (p := postPayment Sample.day Sample.issuedBill Sample.overpayment)
    (s := Sample.issued) (a := 1) (by decide +kernel)
  have hv : Database.valid Sample.issued.1 := by decide +kernel
  have ⟨w, hw⟩ := postPayment_fifo hv (by norm_num) rfl hc
  exact ⟨_, w, hw⟩

end ACRev360
