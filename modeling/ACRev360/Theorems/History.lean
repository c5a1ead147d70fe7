import ACRev360.Theorems.Deletions
import ACRev360.Theorems.Structure

namespace ACRev360

open Relational Relational.Database

-- What a bill charges, and what the bills charge that it has superseded.

variable {s t : Db} {b k pk : ℕ} {today : Date}

section Placing

-- An allocation is on a line of the bill that its payment is on.
def Placed (s : Db) : Prop :=
  ∀ ⦃k a⦄, (s.table .allocation).get k = some a → 0 ≤ a.amount.units ∧
    ∃ l q, (s.table .line).get a.line = some l ∧ (s.table .payment).get a.payment = some q ∧ l.bill = q.bill

-- A payment has been allocated to lines of the bill.
structure Allocated (payment b : ℕ) (s t : Db) : Prop where
  old  : ∀ {k a}, (s.table .allocation).get k = some a → (t.table .allocation).get k = some a
  new  : ∀ {k a}, (t.table .allocation).get k = some a → (s.table .allocation).get k = some a ∨
    a.payment = payment ∧ 0 ≤ a.amount.units ∧ ∃ l, (s.table .line).get a.line = some l ∧ l.bill = b
  only : Database.Only [Name.allocation] s t

theorem Placed.sourced (h : Placed s) : Sourced s := fun _ _ ha => by
  have ⟨_, _, q, _, hq, _⟩ := h ha
  exact ⟨q, hq⟩

-- What the lines of another bill have been paid is the same.
theorem Allocated.paidAmount {payment : ℕ} {l : BillLine} (h : Allocated payment b s t)
    (hl : (s.table .line).get k = some l) (hb : l.bill ≠ b) : t.paidAmount k = s.paidAmount k := by
  rw [Db.paidAmount, Db.paidAmount, Db.confirmed_congr (h.only .payment (by simp))]
  refine Table.sum_eq_of_iff fun i a ha => ⟨fun ht => ?_, h.old⟩
  rcases h.new ht with hs | ⟨_, _, l', hl', hb'⟩
  · exact hs
  · have hline : a.line = k := by
      by_contra hne
      simp [hne] at ha
    rw [hline, hl, Option.some.injEq] at hl'
    exact absurd (hl' ▸ hb') hb

theorem post_allocate_allocated {payment : ℕ} {due : ℕ → ℤ} {lines : List (Loaded BillLine)}
    {remaining applied : ℚ} (hlines : ∀ l ∈ lines, (s.table .line).get l.id = some l.row ∧ l.row.bill = b) :
    Prog.Post (allocate payment due lines remaining applied) s <|
      Prog.OnReturn fun _ t => Allocated payment b s t := by
  have none : Allocated payment b s s := ⟨id, .inl, Std.Refl.refl _⟩
  induction lines generalizing s remaining applied with
  | nil => exact .ret none
  | cons line lines hi =>
    have hrest : ∀ l ∈ lines, (s.table .line).get l.id = some l.row ∧ l.row.bill = b :=
      fun l hl => hlines l <| .tail _ hl
    unfold allocate
    split
    case isTrue => exact .ret none
    case isFalse hpos =>
      simp only
      split
      case isTrue => exact hi hrest none
      case isFalse hdebt =>
        refine .bind <| post_store (fun x hx => .bind ?_) fun _ => trivial
        refine post_create (fun k hk => ?_) fun _ => trivial
        obtain ⟨hr, hk, _⟩ := conflicts_false hk
        have hline : (s.insert .allocation k ⟨payment, line.id, x⟩).table .line = s.table .line :=
          insert_table_ne (by decide)
        refine .imp (hi (hline ▸ hrest) ⟨id, .inl, Std.Refl.refl _⟩) fun _ t ht => ⟨fun ha => ?_, fun {i a} ha => ?_,
          IsTrans.trans _ _ _ (only_insert <| .head _) ht.only⟩
        · exact ht.old <| get_insert_of_some ha
        · rcases ht.new ha with ha | ⟨hpayment, hamount, l, hl, hb⟩
          · rcases get_insert_cases ha with ⟨_, rfl⟩ | ha
            · refine .inr ⟨rfl, ?_, line.row, hlines line <| .head _⟩
              exact hx ▸ cents_nonneg (le_min (not_le.mp hpos).le (kobo_pos <| not_le.mp hdebt).le)
            · exact .inl ha
          · exact .inr ⟨hpayment, hamount, l, hline ▸ hl, hb⟩

-- A payment on a bill is on a bill that has not been superseded, and the lines of other bills have been
-- paid what they had been.
theorem post_postPayment_placed {bill : Loaded Bill} {r : PaymentRequest} (h : Placed s) :
    Prog.Post (postPayment today bill r) s <| Prog.OnReturn fun _ t => bill.row.status ≠ .superseded ∧ Placed t ∧
      ∀ k l, (s.table .line).get k = some l → l.bill ≠ bill.id → Db.paidAmount t k = s.paidAmount k := by
  refine post_guard (fun _ => trivial) fun hlive => post_guard (fun _ => trivial) fun _ => ?_
  refine .bind <| post_getForUpdate (fun row _ => ?_) fun _ => trivial
  refine .seq post_createPayment_row fun payment s₁ ⟨hnew, hold, ⟨q, hq, hqb, _⟩, ho₁⟩ => ?_
  have hline₁ : s₁.table .line = s.table .line := ho₁ .line (by simp)
  have allocated : Prog.Post (allocateFifo payment r.amount bill.id) s₁ <| Prog.OnReturn fun _ t =>
      Allocated payment bill.id s₁ t := by
    refine .bind <| post_select <| .seq (post_lockFound fun _ => id) fun lines u ⟨hu, hlines⟩ => ?_
    subst hu hlines
    exact .bind <| post_select <| post_allocate_allocated fun l hl => mem_linesOf.mp hl
  refine .seq allocated fun ⟨applied, leftover⟩ s₂ h₂ => ?_
  refine .imp (Prog.Keeps.returns (P := Database.Only [Name.bill, Name.payer, Name.receipt, Name.debtCase]) ?keeps)
    fun _ t ho => ?_
  case keeps =>
    refine .bind store_keeps fun _ => .bind (keeps_save fun _ => only_modify <| by simp) fun _ => ?_
    refine .bind (recomputeBill_keeps fun _ => only_modify <| by simp) fun _ => ?_
    refine when_keeps (addCredit_keeps fun h => h.mono <| by simp) ?_
    refine .bind (createReceipt_keeps fun h => h.mono <| by simp) fun _ => ?_
    exact when_keeps (closeDebtCaseForBill_keeps <| only_modify <| by simp) .ret
  have hallocation : t.table .allocation = s₂.table .allocation := ho .allocation (by simp)
  have hpayment : t.table .payment = s₁.table .payment := (ho .payment (by simp)).trans (h₂.only .payment (by simp))
  have hline : t.table .line = s.table .line :=
    (ho .line (by simp)).trans <| (h₂.only .line (by simp)).trans hline₁
  refine ⟨hlive, fun i a ha => ?placed, fun i l hl hb => ?others⟩
  case placed =>
    rw [hline, hpayment]
    rcases h₂.new (hallocation ▸ ha) with ha | ⟨rfl, hamount, l, hl, hb⟩
    · have ⟨hamount, l, q', hl, hq', hb⟩ := h <| ho₁ .allocation (by simp) ▸ ha
      have hne : a.payment ≠ payment := fun he => by simp [he, hnew] at hq'
      exact ⟨hamount, l, q', hl, (hold _ hne).trans hq', hb⟩
    · exact ⟨hamount, l, q, hline₁ ▸ hl, hq, hb.trans hqb.symm⟩
  case others =>
    rw [Db.paidAmount_congr hallocation (ho .payment (by simp)), h₂.paidAmount (hline₁ ▸ hl) hb,
      paidAmount_of_new h.sourced ho₁ hnew hold]

end Placing

section Carrying

-- What the bills that a bill supersedes have not collected.
def Db.carriedBy (s : Db) (bill : ℕ) : ℤ :=
  ((supersedes s bill).map fun k => s.lineTotal k - s.collectedOn k).sum

theorem supersedes_nodup : (supersedes s b).Nodup :=
  Table.keys_nodup

theorem openBills_nodup {payer : ℕ} : (openBills s payer b).Nodup :=
  Table.keys_nodup

-- A bill has collected what it had if its lines are the same and have been paid what they had been.
theorem collectedOn_of_off (hoff : LinesOff pk s t)
    (hpaid : ∀ k l, (s.table .line).get k = some l → l.bill ≠ pk → t.paidAmount k = s.paidAmount k)
    (hb : b ≠ pk) : t.collectedOn b = s.collectedOn b := by
  have hlines : ∀ i l, l.bill = b → ((t.table .line).get i = some l ↔ (s.table .line).get i = some l) :=
    fun i l hl => hoff i l <| hl ▸ hb
  rw [Db.collectedOn_eq, Db.collectedOn_eq]
  calc (t.table .line).sum (fun k l => if l.bill = b then t.paidAmount k else 0)
    _ = (t.table .line).sum fun k l => if l.bill = b then s.paidAmount k else 0 :=
      Table.sum_congr fun i l hl => by
        split
        case isTrue hlb => exact hpaid i l ((hlines i l hlb).mp hl) <| hlb ▸ hb
        case isFalse => rfl
    _ = (s.table .line).sum fun k l => if l.bill = b then s.paidAmount k else 0 :=
      Table.sum_eq_of_iff fun i l hl => hlines i l <| by
        by_contra hne
        simp [hne] at hl

theorem carriedBy_of_off (hoff : LinesOff pk s t)
    (hpaid : ∀ k l, (s.table .line).get k = some l → l.bill ≠ pk → t.paidAmount k = s.paidAmount k)
    (hmem : ∀ k, k ∈ supersedes t b ↔ k ∈ supersedes s b) (hpk : pk ∉ supersedes s b) :
    t.carriedBy b = s.carriedBy b := by
  have hperm : (supersedes t b).Perm (supersedes s b) :=
    (List.perm_ext_iff_of_nodup supersedes_nodup supersedes_nodup).mpr hmem
  rw [Db.carriedBy, (hperm.map _).sum_eq, Db.carriedBy]
  congr 1
  refine List.map_congr_left fun k hk => ?_
  have hne : k ≠ pk := fun he => hpk <| he ▸ hk
  rw [hoff.lineTotal hne, collectedOn_of_off hoff hpaid hne]

-- The bills that carry what they have superseded, as far as they and those have been let be.
structure Counted (calm : ℕ → Prop) (s : Db) : Prop where
  closed  : ∀ {b r}, (s.table .bill).get b = some r → r.supersededBy.isSome → r.status = .superseded
  founded : WellFounded (Forest.Child (supersedes s))
  placed  : Placed s
  covered : ∀ {k l}, (s.table .line).get k = some l → calm l.bill → s.paidAmount k ≤ l.lineAmount.units
  carried : ∀ {b}, calm b → (∀ a ∈ supersedes s b, calm a) → s.arrearsTotal b = s.carriedBy b

namespace Counted

variable {calm calm' : ℕ → Prop}

theorem mono (h : Counted calm s) (hc : ∀ b, calm' b → calm b) : Counted calm' s where
  closed         := h.closed
  founded        := h.founded
  placed         := h.placed
  covered hl hb  := h.covered hl <| hc _ hb
  carried hb hbs := h.carried (hc _ hb) fun a ha => hc a <| hbs a ha

end Counted

theorem SameLinks.mem_supersedes (h : SameLinks s t) : k ∈ supersedes t b ↔ k ∈ supersedes s b := by
  rw [ACRev360.mem_supersedes, ACRev360.mem_supersedes]
  constructor
  · rintro ⟨r, hr, hb⟩
    have ⟨r', hr', hlink, _⟩ := h.symm.get hr
    exact ⟨r', hr', hlink.trans hb⟩
  · rintro ⟨r, hr, hb⟩
    have ⟨r', hr', hlink, _⟩ := h.get hr
    exact ⟨r', hr', hlink.trans hb⟩

namespace Counted

-- Work on a bill does not change what is carried from it, unless it or its successor is disturbed.
theorem recomputed (h : Counted calm s) (hlinks : SameLinks s t) (hoff : LinesOff pk s t) (hplaced : Placed t)
    (hpaid : ∀ k l, (s.table .line).get k = some l → l.bill ≠ pk → t.paidAmount k = s.paidAmount k)
    (hc : ∀ b, calm' b → calm b)
    (hlines : ∀ k l, (t.table .line).get k = some l → l.bill = pk → calm' pk → t.paidAmount k ≤ l.lineAmount.units)
    (harrears : calm' pk → t.arrearsTotal pk = s.arrearsTotal pk)
    (hsuccessor : ∀ b, pk ∈ supersedes s b → ¬calm' pk) : Counted calm' t where
  closed {b r} hr hk := by
    have ⟨r', hr', hlink, hstatus⟩ := hlinks.symm.get hr
    exact hstatus.mp <| h.closed hr' <| hlink ▸ hk
  founded            := Subrelation.wf (fun hk => hlinks.mem_supersedes.mp hk) h.founded
  placed             := hplaced
  covered {k l} hl hb := by
    by_cases hpk : l.bill = pk
    case pos => exact hlines k l hl hpk <| hpk ▸ hb
    case neg =>
      have hl' := (hoff k l hpk).mp hl
      rw [hpaid k l hl' hpk]
      exact h.covered hl' <| hc _ hb
  carried {b} hb hbs := by
    have hmem : ∀ k, k ∈ supersedes t b ↔ k ∈ supersedes s b := fun _ => hlinks.mem_supersedes
    have hbs : ∀ a ∈ supersedes s b, calm' a := fun a ha => hbs a <| (hmem a).mpr ha
    have hpk : pk ∉ supersedes s b := fun hmem => hsuccessor b hmem <| hbs pk hmem
    have heq : t.arrearsTotal b = s.arrearsTotal b := by
      by_cases hb' : b = pk
      · exact hb' ▸ harrears (hb' ▸ hb)
      · exact hoff.arrearsTotal hb'
    rw [heq, carriedBy_of_off hoff hpaid hmem hpk]
    exact h.carried (hc b hb) fun a ha => hc a <| hbs a ha

end Counted

theorem Placed.paidAmount_of_absent (h : Placed s) (hk : (s.table .line).get k = none) : s.paidAmount k = 0 :=
  Table.sum_eq_zero fun _ _ ha => if_neg fun ⟨hline, _⟩ => by
    have ⟨_, l, _, hl, _⟩ := h ha
    simp [hline, hk] at hl

-- The allocations are where they were if their lines are.
theorem Placed.kept (h : Placed s) (ha : t.table .allocation = s.table .allocation)
    (hp : t.table .payment = s.table .payment)
    (hl : ∀ {i a l}, (s.table .allocation).get i = some a → (s.table .line).get a.line = some l →
      ∃ l', (t.table .line).get a.line = some l' ∧ l'.bill = l.bill) : Placed t := fun i a hget => by
  rw [ha] at hget
  have ⟨hamount, l, q, hline, hq, hb⟩ := h hget
  have ⟨l', hl', hb'⟩ := hl hget hline
  exact ⟨hamount, l', q, hl', hp ▸ hq, hb'.trans hb⟩

theorem Placed.quiet {ls : List ℕ} (h : Placed s) (hq : Quiet ls s t)
    (hls : ∀ {k a}, (s.table .allocation).get k = some a → a.line ∉ ls) : Placed t :=
  h.kept hq.allocation hq.payment fun ha hl => hq.line (hls ha) hl

theorem Covered.overpaidOn (h : ∀ k l, (s.table .line).get k = some l → l.bill = b → s.paidAmount k ≤ l.lineAmount.units) :
    s.overpaidOn b = 0 := Table.sum_eq_zero fun k l hl => by
  split
  case isTrue hb => exact max_eq_right <| sub_nonpos.mpr <| h k l hl hb
  case isFalse => rfl

namespace Issued

variable {r : IssueRequest}

theorem mem_rolled (hk : k ∈ r.rolled s b) : ∃ x, (s.table .bill).get k = some x ∧ x.status.isOpen := by
  unfold IssueRequest.rolled at hk
  split at hk
  case isTrue =>
    have ⟨⟨_, x⟩, hx, he⟩ := List.mem_map.mp hk
    have ⟨hget, hopen⟩ := Table.mem_filter_iff.mp hx
    simp only [Bool.and_eq_true] at hopen
    exact ⟨x, he ▸ hget, hopen.1.2⟩
  case isFalse => contradiction

theorem rolled_nodup : (r.rolled s b).Nodup := by
  unfold IssueRequest.rolled
  split
  · exact openBills_nodup
  · exact .nil

-- The new bill has superseded what it rolls.
theorem mem_supersedes_self (h : Issued r b (r.rolled s b) s t) (hs : Tallied s) :
    k ∈ supersedes t b ↔ k ∈ r.rolled s b := by
  have ⟨row, hrow, _, _, _, _, _, _, hnone⟩ := h.row
  rw [mem_supersedes]
  constructor
  · rintro ⟨x, hx, hk⟩
    have hne : k ≠ b := fun he => by
      rw [he, hrow, Option.some.injEq] at hx
      simp [← hx, hnone] at hk
    rw [h.others k hne] at hx
    have ⟨x₀, hx₀, he⟩ := Option.map_eq_some_iff.mp hx
    by_contra hnot
    rw [if_neg hnot] at he
    have ⟨_, hb⟩ := hs.successor hx₀ (he ▸ hk)
    simp [h.absent] at hb
  · intro hk
    have ⟨x, hx, _⟩ := mem_rolled hk
    exact ⟨_, by rw [h.bills hx, if_pos hk], rfl⟩

-- The other bills have superseded what they had.
theorem mem_supersedes_other (h : Issued r b (r.rolled s b) s t)
    (hclosed : ∀ {b r}, (s.table .bill).get b = some r → r.supersededBy.isSome → r.status = .superseded)
    {c : ℕ} (hc : c ≠ b) : k ∈ supersedes t c ↔ k ∈ supersedes s c := by
  have ⟨row, hrow, _, _, _, _, _, _, hnone⟩ := h.row
  rw [mem_supersedes, mem_supersedes]
  constructor
  · rintro ⟨x, hx, hk⟩
    have hne : k ≠ b := fun he => by
      rw [he, hrow, Option.some.injEq] at hx
      simp [← hx, hnone] at hk
    rw [h.others k hne] at hx
    have ⟨x₀, hx₀, he⟩ := Option.map_eq_some_iff.mp hx
    split at he
    case isTrue =>
      rw [← he] at hk
      exact absurd (Option.some.inj hk).symm hc
    case isFalse => exact ⟨x₀, hx₀, he ▸ hk⟩
  · rintro ⟨x, hx, hk⟩
    have hnot : k ∉ r.rolled s b := fun hmem => by
      have ⟨x', hx', hopen⟩ := mem_rolled hmem
      rw [hx, Option.some.injEq] at hx'
      rw [← hx', hclosed hx (by simp [hk])] at hopen
      contradiction
    exact ⟨x, by rw [h.bills hx, if_neg hnot], hk⟩

end Issued

namespace Counted

theorem issued {r : IssueRequest} (h : Counted calm s) (hi : Issued r b (r.rolled s b) s t) (hs : Tallied s)
    (hn : Nonneg t) (hc : ∀ b, calm' b → calm b) : Counted calm' t := by
  have hallocation : t.table .allocation = s.table .allocation := hi.only .allocation (by simp)
  have hpayment : t.table .payment = s.table .payment := hi.only .payment (by simp)
  have hpaid : t.paidAmount = s.paidAmount := Db.paidAmount_congr hallocation hpayment
  have hother : ∀ k l, (s.table .line).get k = some l → l.bill ≠ b → t.paidAmount k = s.paidAmount k :=
    fun k _ _ _ => congrFun hpaid k
  have hne : ∀ {k l}, (s.table .line).get k = some l → l.bill ≠ b := fun hl he => by
    have ⟨_, hb⟩ := hs.line hl
    simp [he, hi.absent] at hb
  have hfree : ∀ c, b ∉ supersedes s c := fun c hmem => by
    have ⟨_, hb, _⟩ := mem_supersedes.mp hmem
    simp [hi.absent] at hb
  constructor
  case closed =>
    intro k x hx hk
    by_cases hkb : k = b
    case pos =>
      have ⟨row, hrow, _, _, _, _, _, _, hnone⟩ := hi.row
      rw [hkb, hrow, Option.some.injEq] at hx
      simp [← hx, hnone] at hk
    case neg =>
      rw [hi.others k hkb] at hx
      have ⟨x₀, hx₀, he⟩ := Option.map_eq_some_iff.mp hx
      split at he
      case isTrue => exact he ▸ rfl
      case isFalse => exact he ▸ h.closed hx₀ (he ▸ hk)
  case founded =>
    -- Nothing is above the new bill, and below it is what has been there before.
    have old : ∀ c, c ≠ b → Acc (Forest.Child (supersedes t)) c := by
      intro c
      induction c using h.founded.induction with
      | h c ih =>
        refine fun hc => ⟨_, fun a ha => ?_⟩
        have ha := (hi.mem_supersedes_other h.closed hc).mp ha
        exact ih a ha fun he => hfree c <| he ▸ ha
    refine ⟨fun c => ?_⟩
    by_cases hcb : c = b
    case neg => exact old c hcb
    case pos =>
      refine ⟨_, fun a ha => old a ?_⟩
      exact IssueRequest.rolled_ne <| (hi.mem_supersedes_self hs).mp (hcb ▸ ha)
  case placed =>
    exact h.placed.kept hallocation hpayment fun {_ a l} _ hl => ⟨l, (hi.lines a.line l (hne hl)).mpr hl, rfl⟩
  case covered =>
    intro k l hl hb
    rw [hpaid]
    by_cases hlb : l.bill = b
    case neg => exact h.covered ((hi.lines k l hlb).mp hl) <| hc _ hb
    case pos =>
      cases hk : (s.table .line).get k with
      | none => exact h.placed.paidAmount_of_absent hk ▸ (hn.line hl).1
      | some l' =>
        rw [(hi.lines k l' (hne hk)).mpr hk, Option.some.injEq] at hl
        exact absurd (hl ▸ hlb) (hne hk)
  case carried =>
    intro c hcalm hbelow
    by_cases hcb : c = b
    case neg =>
      have hmem : ∀ k, k ∈ supersedes t c ↔ k ∈ supersedes s c := fun _ => hi.mem_supersedes_other h.closed hcb
      rw [hi.lines.arrearsTotal hcb, carriedBy_of_off hi.lines hother hmem (hfree c)]
      exact h.carried (hc c hcalm) fun a ha => hc a <| hbelow a <| (hmem a).mpr ha
    case pos =>
      subst hcb
      have hperm : (supersedes t c).Perm (r.rolled s c) :=
        (List.perm_ext_iff_of_nodup supersedes_nodup Issued.rolled_nodup).mpr fun _ => hi.mem_supersedes_self hs
      rw [hi.arrears, Issued.arrearsTotal_absent hs hi.absent, zero_add, Db.carriedBy, (hperm.map _).sum_eq]
      congr 1
      refine List.map_congr_left fun a ha => ?_
      have hac : a ≠ c := IssueRequest.rolled_ne ha
      have hcovered : s.overpaidOn a = 0 := Covered.overpaidOn fun k l hl hla =>
        h.covered hl <| hla ▸ hc a (hbelow a <| (hi.mem_supersedes_self hs).mpr ha)
      rw [Db.outstandingOn_eq, hcovered, add_zero, hi.lines.lineTotal hac, collectedOn_of_off hi.lines hother hac]

theorem destroyed (h : Counted calm s) (hd : Destroyed pk s t) (hc : ∀ b, calm' b → calm b)
    (hsuccessor : ∀ b, pk ∈ supersedes s b → ¬calm' b) : Counted calm' t := by
  have hallocation : t.table .allocation = s.table .allocation := hd.only .allocation (by simp)
  have hpayment : t.table .payment = s.table .payment := hd.only .payment (by simp)
  have hpaid : t.paidAmount = s.paidAmount := Db.paidAmount_congr hallocation hpayment
  have hoff : LinesOff pk s t := fun k l hl => (hd.line k l).trans <| and_iff_left hl
  have hrow : ∀ {k x}, (t.table .bill).get k = some x → x.supersededBy.isSome →
      k ≠ pk ∧ (s.table .bill).get k = some x := by
    intro k x hx hk
    rw [hd.bill] at hx
    split at hx
    case isTrue => contradiction
    case isFalse hne =>
      have ⟨x₀, hx₀, he⟩ := Option.map_eq_some_iff.mp hx
      unfold Bill.forget at he
      split at he
      · simp [← he] at hk
      · exact ⟨hne, he ▸ hx₀⟩
  have hmem : ∀ {k c}, k ∈ supersedes t c → k ≠ pk ∧ k ∈ supersedes s c := fun hk => by
    have ⟨x, hx, hlink⟩ := mem_supersedes.mp hk
    have ⟨hne, hx⟩ := hrow hx (by simp [hlink])
    exact ⟨hne, mem_supersedes.mpr ⟨x, hx, hlink⟩⟩
  constructor
  case closed => exact fun hx hk => h.closed (hrow hx hk).2 hk
  case founded => exact Subrelation.wf (fun hk => (hmem hk).2) h.founded
  case placed =>
    exact h.placed.kept hallocation hpayment fun {_ a l} ha hl =>
      ⟨l, (hd.line a.line l).mpr ⟨hl, hd.unpaid ha hl⟩, rfl⟩
  case covered =>
    intro k l hl hb
    rw [hpaid]
    exact h.covered ((hd.line k l).mp hl).1 <| hc _ hb
  case carried =>
    intro c hcalm hbelow
    by_cases hcpk : c = pk
    case pos =>
      -- The bill is no more.
      subst hcpk
      have hnone : supersedes t c = [] := List.eq_nil_iff_forall_not_mem.mpr fun k hk => by
        have ⟨x, hx, hlink⟩ := mem_supersedes.mp hk
        rw [hd.bill] at hx
        split at hx
        · contradiction
        · have ⟨x₀, _, he⟩ := Option.map_eq_some_iff.mp hx
          unfold Bill.forget at he
          split at he
          · simp [← he] at hlink
          · rename_i hne
            exact hne <| he ▸ hlink
      rw [Db.carriedBy, hnone]
      exact Table.sum_eq_zero fun k l hl => if_neg ((hd.line k l).mp hl).2
    case neg =>
      have hfree : pk ∉ supersedes s c := fun hk => hsuccessor c hk hcalm
      have hiff : ∀ k, k ∈ supersedes t c ↔ k ∈ supersedes s c := fun k => by
        refine ⟨fun hk => (hmem hk).2, fun hk => ?_⟩
        have ⟨x, hx, hlink⟩ := mem_supersedes.mp hk
        have hne : k ≠ pk := fun he => hfree <| he ▸ hk
        refine mem_supersedes.mpr ⟨x, ?_, hlink⟩
        rw [hd.bill, if_neg hne, hx, Option.map_some, Bill.forget, if_neg]
        rw [hlink]
        exact fun he => hcpk <| Option.some.inj he
      rw [hoff.arrearsTotal hcpk, carriedBy_of_off hoff (fun k _ _ _ => congrFun hpaid k) hiff hfree]
      exact h.carried (hc c hcalm) fun a ha => hc a <| hbelow a <| (hiff a).mpr ha

end Counted

end Carrying

section Requests

-- A line operation on the bill, or the reversal of a payment on it once it is superseded.
def Request.Alters (s : Db) (b : ℕ) : Request → Prop
  | issueBill _      => False
  | addLine pk _ _   => pk = b
  | putLine pk _ _   => pk = b
  | deleteLine pk _  => pk = b
  | postPayment _ _  => False
  | reverse pk       => ∃ q r, (s.table .payment).get pk = some q ∧ q.bill = b ∧
    (s.table .bill).get b = some r ∧ r.supersededBy.isSome

namespace BillRequest

def Alters (s : Db) (b : ℕ) : BillRequest → Prop
  | billing r   => r.Alters s b
  | destroy _ _ => False

-- The deletion of a bill that the bill has superseded.
def Removes (s : Db) (b : ℕ) : BillRequest → Prop
  | billing _    => False
  | destroy _ pk => pk ∈ supersedes s b

def Validated : BillRequest → Prop
  | billing r   => r.Validated
  | destroy _ _ => True

end BillRequest

namespace Counted

variable {calm : ℕ → Prop}

theorem relined {calm' : ℕ → Prop} (h : Counted calm s) (hr : Relined today pk s t) (hplaced : Placed t)
    (hc : ∀ b, calm' b → calm b ∧ b ≠ pk) : Counted calm' t := by
  have ⟨_, _, hreckoned⟩ := hr.bill
  have hpaid : t.paidAmount = s.paidAmount :=
    Db.paidAmount_congr (hr.only .allocation (by simp)) (hr.only .payment (by simp))
  have hpk : ¬calm' pk := fun hcalm => (hc pk hcalm).2 rfl
  refine h.recomputed hreckoned.sameLinks hr.lines hplaced (fun k _ _ _ => congrFun hpaid k)
    (fun b hb => (hc b hb).1) (fun _ _ _ _ hcalm => ?_) (fun hcalm => ?_) fun _ _ => hpk
  · exact absurd hcalm hpk
  · exact absurd hcalm hpk

theorem reverted {q : Payment} (h : Counted calm s) (hq : (s.table .payment).get k = some q)
    (hr : Reverted today k q s t) :
    Counted (fun b => calm b ∧ ¬(Request.reverse k).Alters s b) t := by
  obtain ⟨r, hr₀, hreckoned⟩ := hr.bill
  have hline : t.table .line = s.table .line := hr.only .line (by simp)
  have hallocation : t.table .allocation = s.table .allocation := hr.only .allocation (by simp)
  have hpayment : ∀ i, (t.table .payment).get i =
      if i = k then some { q with txnStatus := .reversed } else (s.table .payment).get i := fun i => by
    rw [hr.payment, Table.get_modify, hq]
    rfl
  have hconfirmed : ∀ i, t.confirmed i → s.confirmed i := fun i hi => by
    rw [Db.confirmed, hpayment] at hi
    split at hi
    · simp at hi
    · exact hi
  have hoff : LinesOff q.bill s t := .of_only hr.only (by simp)
  refine h.recomputed hreckoned.sameLinks hoff (fun i a ha => ?placed) (fun i l hl hb => ?others)
    (fun _ hb => hb.1) (fun i l hl hb hcalm => ?lines)
    (fun _ => by rw [Db.arrearsTotal_congr hline]) fun b hmem hcalm => ?successor
  case placed =>
    obtain ⟨hamount, l, q', hl, hq', hb⟩ := h.placed (hallocation ▸ ha)
    refine ⟨hamount, l, ?_⟩
    rw [hline, hpayment]
    split
    case isTrue hk =>
      rw [hk, hq, Option.some.injEq] at hq'
      exact ⟨_, hl, rfl, hq' ▸ hb⟩
    case isFalse => exact ⟨q', hl, hq', hb⟩
  case others =>
    rw [Db.paidAmount, Db.paidAmount, hallocation]
    refine Table.sum_congr fun j a ha => ?_
    by_cases hne : a.payment = k
    case pos =>
      obtain ⟨_, l', q', hl', hq', hb'⟩ := h.placed ha
      rw [hne, hq, Option.some.injEq] at hq'
      have hline : a.line ≠ i := fun he => by
        rw [he, hl, Option.some.injEq] at hl'
        exact hb <| hl' ▸ hq' ▸ hb'
      simp [hline]
    case neg => rw [Db.confirmed, Db.confirmed, hpayment, if_neg hne]
  case lines =>
    rw [hline] at hl
    refine le_trans ?_ (h.covered hl <| hb ▸ hcalm.1)
    rw [Db.paidAmount, Db.paidAmount, hallocation]
    refine Table.sum_le_sum fun j a ha => ?_
    have hamount := (h.placed ha).1
    split
    case isTrue hc => rw [if_pos ⟨hc.1, hconfirmed _ hc.2⟩]
    case isFalse =>
      split
      · exact hamount
      · exact le_rfl
  case successor =>
    obtain ⟨r', hr', hlink⟩ := mem_supersedes.mp hmem
    exact hcalm.2 ⟨q, r', hq, rfl, hr', by simp [hlink]⟩

theorem paid {bill : Loaded Bill} {amount : ℚ} (h : Counted calm s)
    (hbill : (s.table .bill).get bill.id = some bill.row) (hlive : bill.row.status ≠ .superseded)
    (hp : Paid today bill.id amount s t) (hplaced : Placed t)
    (hpaid : ∀ k l, (s.table .line).get k = some l → l.bill ≠ bill.id → t.paidAmount k = s.paidAmount k) :
    Counted calm t := by
  have ⟨_, _, hreckoned⟩ := hp.bill
  have hline : t.table .line = s.table .line := hp.only .line (by simp)
  have hoff : LinesOff bill.id s t := .of_only hp.only (by simp)
  refine h.recomputed hreckoned.sameLinks hoff hplaced hpaid (fun _ => id)
    (fun i l hl hb hcalm => ?_) (fun _ => by rw [Db.arrearsTotal_congr hline]) fun b hmem _ => ?_
  · rw [hline] at hl
    exact (hp.lines i l hl).trans <| max_le (h.covered hl <| hb ▸ hcalm) le_rfl
  · have ⟨r, hr, hlink⟩ := mem_supersedes.mp hmem
    rw [hbill, Option.some.injEq] at hr
    exact hlive <| h.closed hbill <| by simp [hr, hlink]

theorem billing {r : Request} (h : Counted calm s) (hs : Tallied s) :
    Prog.Post (r.serve today) s <| Prog.OnReturn fun _ t =>
      Nonneg t → Counted (fun b => calm b ∧ ¬r.Alters s b) t := by
  have placed : ∀ {t}, Quiet [] s t → Placed t := fun hq => h.placed.quiet hq (by simp)
  cases r with
  | issueBill r => exact .seq post_issueBill fun _ _ ht => .ret fun hn => h.issued ht hs hn fun _ hb => hb.1
  | addLine pk actor e =>
    have add : Prog.Post (addLine today pk actor e) s <| Prog.OnReturn fun _ t => Relined today pk s t := by
      refine .bind <| post_getObject (fun bill hbill _ => ?_) fun _ => trivial
      exact .imp (post_addBillLine hbill) fun _ _ ht => ht.1
    refine .seq (.both add addLine_quiet.returns) fun _ _ hpost => .ret fun _ => ?_
    obtain ⟨ht, hq⟩ := hpost
    exact h.relined ht (placed hq) fun _ hb => ⟨hb.1, Ne.symm hb.2⟩
  | putLine pk lineId lineAmount =>
    have put : Prog.Post (putLine today pk lineId lineAmount) s <| Prog.OnReturn fun _ t => Relined today pk s t := by
      refine .bind <| post_getObject (fun bill hbill _ => .bind ?_) fun _ => trivial
      refine post_getObject (fun line hline hpk => ?_) fun _ => trivial
      obtain rfl : line.bill = pk := by simpa using hpk
      exact .imp (post_updateBillLine hline) fun _ _ ht => ht.1
    refine .imp (.both put putLine_quiet.returns) fun _ _ hpost _ => ?_
    obtain ⟨ht, hq⟩ := hpost
    exact h.relined ht (placed hq) fun _ hb => ⟨hb.1, Ne.symm hb.2⟩
  | deleteLine pk lineId =>
    have delete : Prog.Post (deleteLine today pk lineId) s <| Prog.OnReturn fun _ t => Relined today pk s t := by
      refine .bind <| post_getObject (fun bill hbill _ => .bind ?_) fun _ => trivial
      refine post_getObject (fun line hline hpk => .bind ?_) fun _ => trivial
      obtain rfl : line.bill = pk := by simpa using hpk
      refine post_select <| post_guard (fun _ => trivial) fun _ => ?_
      exact .imp (post_deleteBillLine hline) fun _ _ ht => ht.1
    refine .imp (.both delete post_deleteLine) fun _ _ hpost _ => ?_
    obtain ⟨ht, hq, hnone⟩ := hpost
    refine h.relined ht (h.placed.quiet hq fun {i a} ha hmem => ?_) fun _ hb => ⟨hb.1, Ne.symm hb.2⟩
    rw [hasAllocations, Option.isSome_eq_false_iff, Option.isNone_iff_eq_none] at hnone
    exact Table.first_none hnone ha (by simpa using hmem)
  | postPayment pk r =>
    refine .seq (.bind <| post_getObject (fun bill hbill _ => ?_) fun _ => trivial) fun _ _ ht => .ret ht
    refine .imp (.both (post_postPayment_reckoned h.placed.sourced) <| post_postPayment_placed h.placed)
      fun _ _ hpost _ => ?_
    obtain ⟨ht, hlive, hplaced, hpaid⟩ := hpost
    exact .mono (h.paid hbill hlive ht hplaced hpaid) fun _ hb => hb.1
  | reverse pk =>
    refine .bind <| post_getObject (fun q hq _ => ?_) fun _ => trivial
    exact .imp (post_reversePayment_reckoned hq) fun _ _ ht _ => h.reverted hq ht

theorem serve {r : BillRequest} (h : Counted calm s) (hs : Tallied s) :
    Prog.Post (r.serve today) s <| Prog.OnReturn fun _ t =>
      Nonneg t → Counted (fun b => calm b ∧ ¬r.Alters s b ∧ ¬r.Removes s b) t := by
  cases r with
  | billing r => exact .imp (h.billing hs) fun _ _ ht hn => (ht hn).mono fun _ hb => ⟨hb.1, hb.2.1⟩
  | destroy council pk =>
    refine .imp post_destroy fun _ t ⟨_, _, _, ht⟩ _ => ?_
    exact h.destroyed ht (fun _ hb => hb.1) fun _ hmem hb => hb.2.2 hmem

end Counted

end Requests

section Destroying

theorem Destroyed.linesOff (h : Destroyed pk s t) : LinesOff pk s t :=
  fun k l hl => (h.line k l).trans <| and_iff_left hl

theorem Totals.destroyed (h : Totals s) (hd : Destroyed pk s t) : Totals t := by
  intro k r hr
  rw [hd.bill] at hr
  split at hr
  case isTrue => contradiction
  case isFalse hne =>
    have ⟨r₀, hr₀, he⟩ := Option.map_eq_some_iff.mp hr
    have hsums := h hr₀
    rw [hd.linesOff.lineTotal hne, hd.linesOff.arrearsTotal hne, ← he]
    unfold Bill.forget
    split <;> exact hsums

theorem Nonneg.destroyed (h : Nonneg s) (hd : Destroyed pk s t) : Nonneg t where
  assessment ha := h.assessment <| hd.assessment ha
  line hl       := h.line ((hd.line _ _).mp hl).1

theorem Formed.destroyed (h : Formed s) (hd : Destroyed pk s t) : Formed t :=
  fun _ _ hl => h ((hd.line _ _).mp hl).1

end Destroying

section Runs

-- No line operation was applied to the bill, and no payment on it was reversed after it was superseded.
def Calm (past : BillHistory) (b : ℕ) : Prop :=
  ∀ x ∈ past, x.before ≠ x.after → ¬x.request.2.Alters x.before b

-- No bill was deleted that the bill had superseded.
def Retained (past : BillHistory) (b : ℕ) : Prop :=
  ∀ x ∈ past, x.before ≠ x.after → ¬x.request.2.Removes x.before b

-- The state of the bills that the requests keep.
structure Kept (past : BillHistory) (s : Db) : Prop where
  tallied : Tallied s
  nonneg  : Nonneg s
  formed  : Formed s
  counted : Counted (fun b => Calm past b ∧ Retained past b) s

namespace Kept

variable {past : BillHistory}

theorem start (h : s.Initial) : Kept [] s where
  tallied := h.tallied
  nonneg  := h.nonneg
  formed _ _ hl := by simp [h.line] at hl
  counted := by
    have hnone : ∀ {a b}, a ∉ supersedes s b := fun ha => by
      have ⟨_, hr, _⟩ := mem_supersedes.mp ha
      simp [h.bill] at hr
    refine ⟨fun hr => ?_, ⟨fun a => ⟨a, fun b hb => absurd hb hnone⟩⟩, fun _ _ ha => ?_, fun hl => ?_, fun {b} _ _ => ?_⟩
    · simp [h.bill] at hr
    · simp [h.allocation] at ha
    · simp [h.line] at hl
    · rw [Db.carriedBy, List.eq_nil_iff_forall_not_mem.mpr fun _ => hnone]
      exact Table.sum_eq_zero fun k l hl => by simp [h.line] at hl

theorem serve {r : Date × BillRequest} (h : Kept past s) (hr : r.2.Validated) :
    Prog.Post (r.2.serve r.1) s <| Prog.OnReturn fun _ t =>
      Database.valid t → Kept (⟨r, s, t⟩ :: past) t := by
  have figures : Prog.Post (r.2.serve r.1) s <| Prog.OnReturn fun _ t =>
      Database.valid t → Tallied t ∧ Nonneg t ∧ Formed t := by
    obtain ⟨today, r⟩ := r
    cases r with
    | billing r =>
      refine .imp (.both (.both h.tallied.serve <| h.nonneg.serve h.tallied.sourced) <|
        h.formed.serve h.nonneg h.tallied.sourced hr) fun _ _ ⟨⟨ht, hn⟩, hf⟩ hv => ⟨ht hv, hn, hf⟩
    | destroy council pk =>
      refine .imp post_destroy fun _ t ⟨_, _, _, ht⟩ hv => ?_
      exact ⟨(h.tallied.totals.destroyed ht).tallied hv, h.nonneg.destroyed ht, h.formed.destroyed ht⟩
  refine .imp (.both figures <| h.counted.serve h.tallied) fun _ t ⟨ht, hc⟩ hv => ?_
  have ⟨htallied, hnonneg, hformed⟩ := ht hv
  refine ⟨htallied, hnonneg, hformed, ?_⟩
  have htail : ∀ b, Calm (⟨r, s, t⟩ :: past) b ∧ Retained (⟨r, s, t⟩ :: past) b → Calm past b ∧ Retained past b :=
    fun b hb => ⟨fun x hx => hb.1 x <| .tail _ hx, fun x hx => hb.2 x <| .tail _ hx⟩
  by_cases hst : s = t
  case pos => exact (hst ▸ h.counted).mono htail
  case neg =>
    refine (hc hnonneg).mono fun b hb => ⟨htail b hb, ?_, ?_⟩
    · exact hb.1 ⟨r, s, t⟩ (.head _) hst
    · exact hb.2 ⟨r, s, t⟩ (.head _) hst

theorem fail {r : Date × BillRequest} (h : Kept past s) : Kept (⟨r, s, s⟩ :: past) s where
  tallied := h.tallied
  nonneg  := h.nonneg
  formed  := h.formed
  counted := h.counted.mono fun _ hb => ⟨fun x hx => hb.1 x <| .tail _ hx, fun x hx => hb.2 x <| .tail _ hx⟩

end Kept

-- The bill and the bills that it has directly or indirectly superseded.
def Chain (s : Db) : ℕ → ℕ → Prop :=
  Forest.Below (supersedes s)

-- The lines of the bills of the chain, each once.
structure ListedOnce (s : Db) (b : ℕ) (lines : List (Loaded BillLine)) : Prop where
  nodup : (lines.map Loaded.id).Nodup
  mem   : ∀ l, l ∈ lines ↔ (s.table .line).get l.id = some l.row ∧ Chain s b l.row.bill

-- What the lines charge is the total of the bill and what has been paid on those that it has superseded.
def AddsUp (s : Db) (b : ℕ) (r : Bill) (lines : List (Loaded BillLine)) : Prop :=
  (lines.map fun l => l.row.currentAmount.units).sum =
    r.totalAmount.units + (lines.map fun l => if l.row.bill = b then 0 else s.paidAmount l.id).sum

theorem unique_supersedes : Forest.Unique (supersedes s) := fun _ _ _ ha hb => by
  have ⟨r, hr, ha⟩ := mem_supersedes.mp ha
  have ⟨r', hr', hb⟩ := mem_supersedes.mp hb
  rw [hr, Option.some.injEq] at hr'
  exact Option.some.inj <| ha.symm.trans <| hr' ▸ hb

theorem listedOnce {fuel : ℕ} {lines : List (Loaded BillLine)} (h : WellFounded (Forest.Child (supersedes s)))
    (hl : allArrearsLines s fuel b = some lines) : ListedOnce s b lines := by
  have mem : ∀ l, l ∈ lines ↔ (s.table .line).get l.id = some l.row ∧ Chain s b l.row.bill := by
    intro l
    rw [Forest.mem_collect hl]
    constructor
    · rintro ⟨c, hc, hmem⟩
      have ⟨hget, hb⟩ := mem_linesOf.mp hmem
      exact ⟨hget, hb ▸ hc⟩
    · exact fun ⟨hget, hc⟩ => ⟨_, hc, mem_linesOf.mpr ⟨hget, rfl⟩⟩
  have nodup : lines.Nodup := Forest.nodup_collect h unique_supersedes (fun _ => supersedes_nodup)
    (fun _ => .of_map _ linesOf_nodup)
    (fun ha hb => (mem_linesOf.mp ha).2.symm.trans (mem_linesOf.mp hb).2) hl
  refine ⟨nodup.map_on fun x hx y hy he => ?_, mem⟩
  have hx := ((mem x).mp hx).1
  have hy := ((mem y).mp hy).1
  rw [he, hy, Option.some.injEq] at hx
  cases x
  cases y
  simp_all

-- Each bill of the chain charges what is left of its total once the arrears that it carries are taken off,
-- and these are what the bills below it have not collected.
theorem addsUp {fuel : ℕ} {lines : List (Loaded BillLine)} {calm : ℕ → Prop} {r : Bill} (h : Counted calm s)
    (hs : Totals s) (hf : Formed s) (hl : allArrearsLines s fuel b = some lines)
    (hr : (s.table .bill).get b = some r) (hcalm : ∀ a, Chain s b a → calm a) : AddsUp s b r lines := by
  let charge (k : ℕ) (l : BillLine) : ℤ := l.currentAmount.units - if l.bill = b then 0 else s.paidAmount k
  let rest (c : ℕ) : ℤ := s.lineTotal c - if c = b then 0 else s.collectedOn c
  have weight : ∀ c, Forest.Below (supersedes s) b c →
      rest c = ((s.linesOf c).map fun l => charge l.id l.row).sum + ((supersedes s c).map rest).sum := by
    intro c hc
    have hbelow : (supersedes s c).map rest = (supersedes s c).map fun a => s.lineTotal a - s.collectedOn a := by
      refine List.map_congr_left fun a ha => ?_
      have hne : a ≠ b := fun he => Forest.not_below_child h.founded (he ▸ ha) hc
      simp only [rest, if_neg hne]
    have hcarried : s.arrearsTotal c = s.carriedBy c := h.carried (hcalm c hc) fun a ha => hcalm a <| hc.tail ha
    have hcharge : ((s.linesOf c).map fun l => charge l.id l.row).sum =
        s.lineTotal c - s.arrearsTotal c - if c = b then 0 else s.collectedOn c := by
      rw [sum_linesOf, Db.lineTotal, Db.arrearsTotal, ← Table.sum_sub]
      have hcollected : (if c = b then 0 else s.collectedOn c) = (s.table .line).sum fun k l =>
          if l.bill = c then if c = b then 0 else s.paidAmount k else 0 := by
        split
        case isTrue => exact (Table.sum_eq_zero fun _ _ _ => by simp).symm
        case isFalse => exact s.collectedOn_eq c
      rw [hcollected, ← Table.sum_sub]
      refine Table.sum_congr fun k l hk => ?_
      have hsum := (hf hk).sum
      split
      case isTrue hlc =>
        simp only [charge, hlc]
        omega
      case isFalse => rfl
    rw [hbelow, hcharge, ← Db.carriedBy, ← hcarried]
    simp only [rest]
    omega
  have hsum := Forest.sum_collect weight hl
  have hsplit : (lines.map fun l => charge l.id l.row).sum = (lines.map fun l => l.row.currentAmount.units).sum -
      (lines.map fun l => if l.row.bill = b then 0 else s.paidAmount l.id).sum := by
    clear hl hsum
    induction lines with
    | nil => rfl
    | cons l lines hi =>
      simp only [List.map_cons, List.sum_cons, hi, charge]
      omega
  rw [hsplit] at hsum
  simp only [rest, if_true] at hsum
  rw [AddsUp, (hs hr).1]
  omega

theorem Kept.of_session {past : BillHistory} (h : BillSession (fun _ _ r => r.2.Validated) past s) : Kept past s :=
  Prog.Session.preserves h (P := Kept) .start (fun hs hr => hs.serve hr) .fail

-- The bills below a bill are other bills, and their lines are listed once. They count once if they have
-- been let be and none of them is missing.
theorem history_counted {past : BillHistory} (h : BillSession (fun _ _ r => r.2.Validated) past s) :
    (∀ a, ¬Relation.TransGen (fun a b => a ∈ supersedes s b) a a) ∧
      ∀ b, ∃ fuel lines, (∀ n, fuel ≤ n → allArrearsLines s n b = some lines) ∧ ListedOnce s b lines ∧
        ∀ r, (s.table .bill).get b = some r → (∀ a, Chain s b a → Calm past a ∧ Retained past a) →
          AddsUp s b r lines := by
  have hk := Kept.of_session h
  refine ⟨hk.counted.founded.transGen.irrefl.irrefl, fun b => ?_⟩
  have ⟨fuel, lines, hl⟩ : ∃ fuel lines, ∀ n, fuel ≤ n → allArrearsLines s n b = some lines :=
    Forest.exists_collect <| hk.counted.founded.apply b
  have hl' := hl fuel le_rfl
  refine ⟨fuel, lines, hl, listedOnce hk.counted.founded hl', fun r hr hcalm => ?_⟩
  exact addsUp hk.counted hk.tallied.totals hk.formed hl' hr hcalm

namespace Sample

-- The bill that the other one has superseded is deleted.
def forgotten : Db × (Name → ℕ) :=
  undo succeeded <| .destroy 1 1

theorem issue_validated {rollArrears : Bool} : (BillRequest.billing <| issue [1] rollArrears).Validated := by
  intro e he
  rw [List.map_singleton, List.mem_singleton] at he
  exact he ▸ entry_validated 1

theorem session_succeeded : ∃ past : BillHistory, past.length = 2 ∧
    BillSession (fun _ _ r => r.2.Validated) past succeeded.1 :=
  ⟨_, rfl, billSession_undo (billSession_undo (.start council_initial) issue_validated) issue_validated⟩

end Sample

theorem sample_counted : ∃ past : BillHistory, past.length = 2 ∧
    (∀ a, ¬Relation.TransGen (fun a b => a ∈ supersedes Sample.succeeded.1 b) a a) ∧
      ∀ b, ∃ fuel lines, (∀ n, fuel ≤ n → allArrearsLines Sample.succeeded.1 n b = some lines) ∧
        ListedOnce Sample.succeeded.1 b lines ∧
        ∀ r, (Sample.succeeded.1.table .bill).get b = some r →
          (∀ a, Chain Sample.succeeded.1 b a → Calm past a ∧ Retained past a) → AddsUp Sample.succeeded.1 b r lines :=
  have ⟨past, hlen, hs⟩ := Sample.session_succeeded
  ⟨past, hlen, history_counted hs⟩

set_option maxRecDepth 20000 in
-- The bill still carries 20.00 of the bill that is deleted.
theorem not_addsUp_of_deleted : ∃ (past : BillHistory) (s : Db) (b : ℕ) (r : Bill) (fuel : ℕ)
    (lines : List (Loaded BillLine)), BillSession (fun _ _ r => r.2.Validated) past s ∧
      (s.table .bill).get b = some r ∧ allArrearsLines s fuel b = some lines ∧
      (∀ a, Chain s b a → Calm past a) ∧ ¬AddsUp s b r lines := by
  have hs : BillSession (fun _ _ r => r.2.Validated) _ Sample.forgotten.1 := Sample.billSession_undo
    (Sample.billSession_undo (Sample.billSession_undo (.start Sample.council_initial) Sample.issue_validated)
      Sample.issue_validated) trivial
  have hr : ((Sample.forgotten.1.table .bill).get 2).map (·.totalAmount.units) = some 4000 := by decide +kernel
  have hl : (allArrearsLines Sample.forgotten.1 2 2).map (fun lines =>
      ((lines.map (·.row.currentAmount.units)).sum,
        (lines.map fun l => if l.row.bill = 2 then 0 else Sample.forgotten.1.paidAmount l.id).sum)) =
      some (2000, 0) := by decide +kernel
  have ⟨r, hr, hunits⟩ := Option.map_eq_some_iff.mp hr
  have ⟨lines, hl, hsums⟩ := Option.map_eq_some_iff.mp hl
  have ⟨hcurrent, hpaid⟩ := Prod.mk.inj hsums
  refine ⟨_, _, 2, r, 2, lines, hs, hr, hl, fun a _ x hx _ => ?_, fun h => ?_⟩
  · simp only [List.mem_cons, List.not_mem_nil, or_false] at hx
    rcases hx with rfl | rfl | rfl <;> exact id
  · rw [AddsUp, hcurrent, hpaid, hunits] at h
    contradiction

end Runs

end ACRev360
