import ACRev360.Theorems.Rollover
import Mathlib.Data.List.Find

namespace ACRev360

open Relational Relational.Database

-- What the operations on a bill do to the bill and to its lines.

variable {s t u : Db} {b k : ℕ} {today : Date} {paid : ℚ}

-- Bill `b` has been recomputed with the amount paid that the caller of `recomputeBill` has.
structure Reckoned (today : Date) (b : ℕ) (paid : ℚ) (s t : Db) : Prop where
  row    : ∃ r x total arrears, (s.table .bill).get b = some r ∧ x.units = cents paid ∧
    total.units = t.lineTotal b ∧ arrears.units = t.arrearsTotal b ∧
    (t.table .bill).get b = some { r with
      amountPaid    := x
      totalAmount   := total
      arrearsAmount := arrears
      status        := statusOf today r.status paid (kobo (t.lineTotal b)) r.dueDate }
  others : ∀ k ≠ b, (t.table .bill).get k = (s.table .bill).get k

theorem Reckoned.congr (h : Reckoned today b paid s t) (hb : u.table .bill = t.table .bill)
    (hl : u.table .line = t.table .line) : Reckoned today b paid s u where
  row    := by
    rw [hb, Db.lineTotal_congr hl, Db.arrearsTotal_congr hl]
    exact h.row
  others := hb ▸ h.others

-- The object that is recomputed is as the bill was in `s`, before its amount paid was stored.
theorem post_recompute {r : Bill} {x : Money} (hr : (s.table .bill).get b = some r)
    (hx : x.units = cents paid) (hu : (u.table .bill).get b = some { r with amountPaid := x })
    (ho : ∀ k ≠ b, (u.table .bill).get k = (s.table .bill).get k) :
    Prog.Post (recomputeBill today ⟨b, r⟩ paid) u <| Prog.OnReturn fun status t =>
      status = statusOf today r.status paid (kobo (Db.lineTotal t b)) r.dueDate ∧
      Reckoned today b paid s t ∧ Database.Only [Name.bill] u t := by
  refine .imp post_recomputeBill fun status t ⟨hstatus, total, arrears, htotal, harrears, ht⟩ => ?_
  have hline : t.table .line = u.table .line := by rw [ht, modify_table_ne (by decide)]
  have hbill : t.table .bill = _ := ht ▸ modify_table
  rw [← Db.lineTotal_congr hline] at hstatus htotal
  rw [← Db.arrearsTotal_congr hline] at harrears
  refine ⟨hstatus, ⟨⟨r, x, total, arrears, hr, hx, htotal, harrears, ?_⟩, fun k hk => ?_⟩, ?_⟩
  · rw [hbill, Table.get_modify, if_pos rfl, hu, hstatus]
    rfl
  · rw [hbill, Table.get_modify, if_neg hk, ho k hk]
  · rw [ht]
    exact only_modify <| .head _

-- A line operation on bill `b`, which leaves the amount paid as it is.
structure Relined (today : Date) (b : ℕ) (s t : Db) : Prop where
  bill  : ∃ r, (s.table .bill).get b = some r ∧ Reckoned today b r.amountPaid.toRat s t
  lines : LinesOff b s t
  only  : Database.Only [Name.line, Name.assessment, Name.bill] s t

theorem post_reline {r : Bill} (hr : (s.table .bill).get b = some r) (hl : LinesOff b s u)
    (ho : Database.Only [Name.line, Name.assessment] s u) :
    Prog.Post (recomputeBill today ⟨b, r⟩ r.amountPaid.toRat) u <| Prog.OnReturn fun _ t =>
      Relined today b s t ∧ t.table .line = u.table .line := by
  have hbill : u.table .bill = s.table .bill := ho .bill (by simp)
  have hx : r.amountPaid.units = cents r.amountPaid.toRat := by rw [Money.toRat_eq_kobo, cents_kobo]
  refine .imp (post_recompute hr hx (hbill ▸ hr) fun _ _ => by rw [hbill]) fun _ t ⟨_, ht, hot⟩ => ?_
  have hline : t.table .line = u.table .line := hot .line (by simp)
  refine ⟨⟨⟨r, hr, ht⟩, hl.congr hline, ?_⟩, hline⟩
  exact IsTrans.trans _ _ _ (ho.mono <| by simp) (hot.mono <| by simp)

theorem post_updateBillLine {line : Loaded BillLine} {lineAmount : ℚ}
    (hl : (s.table .line).get line.id = some line.row) :
    Prog.Post (updateBillLine today line lineAmount) s <| Prog.OnReturn fun _ t =>
      Relined today line.row.bill s t ∧ ∃ current amount : Money, amount.units = cents lineAmount ∧
        t.table .line = (s.table .line).modify line.id
          fun l => { l with currentAmount := current, lineAmount := amount } := by
  refine post_guard (fun _ => trivial) fun _ => post_guard (fun _ => trivial) fun _ => ?_
  refine .bind <| post_store (fun current _ => .bind ?_) fun _ => trivial
  refine post_store (fun amount hamount => .bind ?_) fun _ => trivial
  refine post_save (fun _ _ => .bind ?_) fun _ => trivial
  refine post_load (fun _ _ => .bind ?_) fun _ => trivial
  refine post_save (fun _ _ => .bind ?_) fun _ => trivial
  refine post_load (fun r hr => ?_) fun _ => trivial
  have off : LinesOff line.row.bill s (s.modify .line line.id fun l =>
    { l with currentAmount := current, lineAmount := amount }) := .modify hl rfl rfl
  refine .seq (post_reline (s := s) hr (off.congr rfl) ?_) fun _ t ⟨ht, hline⟩ =>
    .ret ⟨ht, current, amount, hamount, hline⟩
  exact IsTrans.trans _ _ _ (only_modify <| by simp) (only_modify <| by simp)

-- A line of a bill is deleted, unless it is the only one.
theorem post_deleteBillLine {line : Loaded BillLine}
    (hl : (s.table .line).get line.id = some line.row) :
    Prog.Post (deleteBillLine today line) s <| Prog.OnReturn fun _ t =>
      Relined today line.row.bill s t ∧ t.table .line = (s.table .line).erase line.id ∧
        hasAllocations s line.id = false ∧ 1 < (s.linesOf line.row.bill).length := by
  refine .bind <| post_load (fun r hr => ?_) fun _ => trivial
  refine .bind <| post_select <| post_guard (fun _ => trivial) fun hnone => ?_
  refine .bind <| post_select <| post_guard (fun _ => trivial) fun hlast => ?_
  refine .bind <| post_load (fun _ _ => .bind ?_) fun _ => trivial
  refine post_save (fun _ _ => .bind ?_) fun _ => trivial
  refine post_select <| post_guard (fun _ => trivial) fun _ => .bind ?_
  refine post_delete (fun _ _ => ?_) fun hn => ?_
  · refine .seq (post_reline (s := s) hr (.congr (.erase hl rfl) rfl) ?_) fun _ t ⟨ht, hline⟩ =>
      .ret ⟨ht, hline, by simpa using hnone, not_le.mp hlast⟩
    exact IsTrans.trans _ _ _ (only_modify <| by simp) (only_erase <| by simp)
  · simp [hl] at hn

-- What a charge amounts to at the rates in force.
def priceOf (s : Db) (e : LineEntry) : Option ℚ :=
  if s.hasActiveBands e.item.id then
    match e.rateBand.map (bandAmount e) with
    | some (.ok (unitAmount, _)) => some <| Decimal.round (unitAmount * e.quantity)
    | _ => none
  else s.currentRate e.item.id |>.map fun rate => Decimal.round (rate.row.rateAmount.val.toRat * e.quantity)

-- The row that is inserted for an assessment.
structure Drafted (s : Db) (e : LineEntry) (a : AssessmentObject) (row : Assessment) : Prop where
  absent  : (s.table .assessment).get a.id = none
  retired : a.id ∉ s.retired .assessment
  item    : row.item = e.item.id
  amount  : row.amount.units = cents a.amount

theorem post_createAssessment {payer council actor : ℕ} {e : LineEntry}
    {rateSchedule rateBand rateTier : Option ℕ} {amount : ℚ} :
    Prog.Post (createAssessment payer council actor e rateSchedule rateBand rateTier amount) s <|
      Prog.OnReturn fun a t => a.amount = amount ∧
        ∃ row : Assessment, Drafted s e a row ∧ t = s.insert .assessment a.id row := by
  refine .bind <| post_store (fun _ _ => .bind ?_) fun _ => trivial
  refine post_store (fun _ hamount => .bind ?_) fun _ => trivial
  refine post_create (fun k hk => .ret ?_) fun _ => trivial
  have ⟨hr, hnone, _⟩ := conflicts_false hk
  exact ⟨rfl, _, ⟨hnone, hr, rfl, hamount⟩, rfl⟩

theorem post_createDraftAssessment {payer council actor : ℕ} {e : LineEntry} :
    Prog.Post (createDraftAssessment payer council actor e) s <| Prog.OnReturn fun a t =>
      0 < e.quantity ∧ priceOf s e = some a.amount ∧
        ∃ row : Assessment, Drafted s e a row ∧ t = s.insert .assessment a.id row := by
  refine post_guard (fun _ => trivial) fun hpos => .bind <| post_select ?_
  replace hpos := not_le.mp hpos
  unfold priceOf
  simp only
  split
  case isTrue hb =>
    cases hband : e.rateBand with
    | none => exact .raise trivial
    | some band =>
      refine post_guard (fun _ => trivial) fun _ => ?_
      cases hamount : bandAmount e band with
      | error err => exact .raise trivial
      | ok out =>
        refine .imp post_createAssessment fun a t ⟨ha, h⟩ => ⟨hpos, ?_, h⟩
        simp [hamount, ha]
  case isFalse =>
    refine .bind <| post_select ?_
    cases s.currentRate e.item.id with
    | none => exact .raise trivial
    | some rate =>
      exact .imp post_createAssessment fun a t ⟨ha, h⟩ => ⟨hpos, by simp [ha], h⟩

-- The line that a charge is merged into, and what the line comes to.
structure Merged (s : Db) (bill : ℕ) (e : LineEntry) (line : Loaded BillLine) (amount : ℤ) : Prop where
  found : matchingLine s bill e.item.id (e.rateBand.map (·.id)) (e.rateTier.map (·.id)) = some line
  comes : ∃ a p, (s.table .assessment).get line.row.assessment = some a ∧ priceOf s e = some p ∧
    amount = cents (Decimal.round
      (Decimal.round (a.amount.toRat + p) + line.row.arrearsAmount.toRat))

-- A line of its own that a charge gets.
structure Added (s : Db) (bill : ℕ) (e : LineEntry) (l : BillLine) : Prop where
  bill    : l.bill = bill
  comes   : ∃ p, priceOf s e = some p ∧ l.lineAmount.units = cents p
  arrears : l.arrearsAmount.units = 0

-- The assessments of the lines are there.
def Assessed (s : Db) : Prop :=
  ∀ ⦃k l⦄, (s.table .line).get k = some l → ∃ a, (s.table .assessment).get l.assessment = some a

theorem matchingLine_mem {bill item : ℕ} {rateBand rateTier : Option ℕ} {line : Loaded BillLine}
    (h : matchingLine s bill item rateBand rateTier = some line) :
    (s.table .line).get line.id = some line.row ∧ line.row.bill = bill :=
  mem_linesOf.mp <| List.mem_of_find?_eq_some h

theorem matchingLine_insert {row : Assessment} {bill item : ℕ} {rateBand rateTier : Option ℕ}
    (h : Assessed s) :
    matchingLine (s.insert .assessment k row) bill item rateBand rateTier =
      matchingLine s bill item rateBand rateTier := by
  have hlines : Db.linesOf (s.insert .assessment k row) bill = s.linesOf bill := by
    rw [Db.linesOf, Db.linesOf, insert_table_ne (by decide)]
  unfold matchingLine
  rw [hlines]
  refine List.find?_congr fun l hl => ?_
  obtain ⟨a, ha⟩ := h (mem_linesOf.mp hl).1
  rw [get_insert_of_some ha, ha]

-- A charge is merged into the line of its item, band and tier if there is one, and gets a line of its
-- own otherwise.
theorem post_addBillLine {bill : Loaded Bill} {actor : ℕ} {e : LineEntry}
    (hr : (s.table .bill).get bill.id = some bill.row) :
    Prog.Post (addBillLine today bill actor e) s <| Prog.OnReturn fun _ t =>
      Relined today bill.id s t ∧
      ((∃ (line : Loaded BillLine) (current amount : Money),
          (s.table .line).get line.id = some line.row ∧ line.row.bill = bill.id ∧
          (Assessed s → Merged s bill.id e line amount.units) ∧
          t.table .line = (s.table .line).modify line.id
            fun l => { l with currentAmount := current, lineAmount := amount }) ∨
        ∃ k l, (s.table .line).get k = none ∧ Added s bill.id e l ∧
          (Assessed s → matchingLine s bill.id e.item.id (e.rateBand.map (·.id)) (e.rateTier.map (·.id)) = none) ∧
          t.table .line = (s.table .line).insert k l) := by
  refine .bind <| post_load (fun _ _ => ?_) fun _ => trivial
  refine .seq post_createDraftAssessment fun a s₁ hpost => .bind <| post_select ?_
  obtain ⟨_, hprice, row, _, h₁⟩ := hpost
  subst h₁
  have hget : (s.insert .assessment a.id row).table .line = s.table .line := insert_table_ne (by decide)
  simp only
  split
  case h_1 line hfound =>
    obtain ⟨hline, hbill⟩ := matchingLine_mem hfound
    rw [hget] at hline
    refine .bind <| post_load (fun existing hexisting => .bind ?_) fun _ => trivial
    refine post_store (fun _ _ => .bind ?_) fun _ => trivial
    refine post_store (fun _ _ => .bind ?_) fun _ => trivial
    refine post_save (fun _ _ => .bind ?_) fun _ => trivial
    refine post_store (fun current _ => .bind ?_) fun _ => trivial
    refine post_store (fun amount hamount => .bind ?_) fun _ => trivial
    refine post_save (fun _ _ => .bind ?_) fun _ => trivial
    refine post_save (fun _ _ => ?_) fun _ => trivial
    have off : LinesOff bill.id s (s.modify .line line.id fun l =>
      { l with currentAmount := current, lineAmount := amount }) := .modify hline hbill hbill
    have htable : ((s.insert .assessment a.id row).modify .line line.id fun l =>
        { l with currentAmount := current, lineAmount := amount }).table .line =
        (s.modify .line line.id fun l =>
          { l with currentAmount := current, lineAmount := amount }).table .line := by
      rw [modify_table, modify_table, hget]
    refine .seq (post_reline (s := s) hr (off.congr htable) ?only) fun _ t hpost => .ret ?done
    case only =>
      refine IsTrans.trans _ _ _ ?_ (only_modify <| by simp)
      refine IsTrans.trans _ _ _ ?_ (only_modify <| by simp)
      exact IsTrans.trans _ _ _ (only_insert <| by simp) (only_modify <| by simp)
    case done =>
      obtain ⟨ht, ht'⟩ := hpost
      refine ⟨ht, .inl ⟨line, current, amount, hline, hbill, fun hs => ?_, ht'.trans htable⟩⟩
      rw [matchingLine_insert hs] at hfound
      obtain ⟨a', ha'⟩ := hs hline
      rw [get_insert_of_some ha', Option.some.injEq] at hexisting
      exact ⟨hfound, existing, _, hexisting ▸ ha', hprice, hamount⟩
  case h_2 hnone =>
    refine .bind <| post_save (fun _ _ => .bind ?_) fun _ => trivial
    refine post_select <| .seq post_createLine fun k s₂ hpost => ?_
    obtain ⟨l, hr₂, hk, hs₂, hl, harrears, hamount⟩ := hpost
    subst hs₂
    have hk' : (s.table .line).get k = none := hget ▸ hk
    have hr' : k ∉ s.retired .line := by simpa using hr₂
    have off : LinesOff bill.id s (s.insert .line k l) := .insert hr' hk' hl
    have htable : (((s.insert .assessment a.id row).modify .assessment a.id fun r =>
        { r with status := AssessmentStatus.billed }).insert .line k l).table .line =
        (s.insert .line k l).table .line := by
      rw [insert_table hr₂, insert_table hr', modify_table_ne (by decide), hget]
    refine .seq (post_reline (s := s) hr (off.congr htable) ?only) fun _ t hpost => .ret ?done
    case only =>
      refine IsTrans.trans _ _ _ ?_ (only_insert <| by simp)
      exact IsTrans.trans _ _ _ (only_insert <| by simp) (only_modify <| by simp)
    case done =>
      obtain ⟨ht, ht'⟩ := hpost
      refine ⟨ht, .inr ⟨k, l, hk', ⟨hl, ⟨_, hprice, hamount⟩, harrears.trans cents_zero⟩, fun hs => ?_, ?_⟩⟩
      · rwa [matchingLine_insert hs] at hnone
      · exact ht'.trans <| htable.trans <| insert_table hr'

section Payments

-- The payments of the allocations are there.
def Sourced (s : Db) : Prop :=
  ∀ ⦃k a⦄, (s.table .allocation).get k = some a → ∃ q, (s.table .payment).get a.payment = some q

theorem sourced_of_valid (h : Database.valid s) : Sourced s :=
  fun _ a ha => valid_ref h ha <| (by simp : (.payment, a.payment) ∈ foreignKeys .allocation a)

-- How an amount fills what the lines owe, from the first one on: what is applied and what remains.
def fifo : List ℤ → ℚ → ℚ → ℚ × ℚ
  | [], remaining, applied => (applied, remaining)
  | outstanding :: rest, remaining, applied =>
    if remaining ≤ 0 then (applied, remaining)
    else if outstanding ≤ 0 then fifo rest remaining applied
    else
      let take := min remaining (kobo outstanding)
      fifo rest (Decimal.round (remaining - take)) (Decimal.round (applied + take))

-- What the lines of a bill owe, in their order.
def Db.outstandings (s : Db) (bill : ℕ) : List ℤ :=
  (s.linesOf bill).map fun l => l.row.lineAmount.units - s.paidAmount l.id

-- What of an amount goes to the lines of a bill.
def Db.applied (s : Db) (bill : ℕ) (amount : ℚ) : ℚ :=
  (fifo (s.outstandings bill) amount 0).1

theorem paidAmount_insert {a : PaymentAllocation} {line : ℕ} (hr : k ∉ s.retired .allocation)
    (hk : (s.table .allocation).get k = none) :
    Db.paidAmount (s.insert .allocation k a) line =
      s.paidAmount line + if a.line = line ∧ s.confirmed a.payment then a.amount.units else 0 := by
  have hconfirmed : Db.confirmed (s.insert .allocation k a) = s.confirmed :=
    Db.confirmed_congr (insert_table_ne (by decide))
  rw [Db.paidAmount, insert_table hr, Table.sum_insert hk, hconfirmed, add_comm]
  rfl

theorem take_bound {remaining : ℚ} {outstanding : ℤ} (h : 0 ≤ remaining) (ho : 0 < outstanding) :
    cents (min remaining (kobo outstanding)) ≤ outstanding := by
  refine (cents_le (le_min h (kobo_pos ho).le) (min_le_right _ _)).trans_eq (cents_kobo _)

-- A line is not filled beyond its amount.
theorem post_allocate_fifo {payment : ℕ} {due : ℕ → ℤ} {lines : List (Loaded BillLine)}
    {remaining applied : ℚ} (hnodup : (lines.map Loaded.id).Nodup)
    (hdue : ∀ l ∈ lines, due l.id = s.paidAmount l.id) :
    Prog.Post (allocate payment due lines remaining applied) s <| Prog.OnReturn fun out t =>
      out = fifo (lines.map fun l => l.row.lineAmount.units - due l.id) remaining applied ∧
      Database.Only [Name.allocation] s t ∧
      (∀ k, k ∉ lines.map Loaded.id → Db.paidAmount t k = s.paidAmount k) ∧
      ∀ l ∈ lines, Db.paidAmount t l.id ≤ max (s.paidAmount l.id) l.row.lineAmount.units := by
  induction lines generalizing s remaining applied with
  | nil => exact .ret ⟨rfl, Std.Refl.refl _, by simp, by simp⟩
  | cons line lines hi =>
    obtain ⟨hline, hnodup⟩ := List.nodup_cons.mp hnodup
    unfold allocate
    rw [List.map_cons, fifo]
    split
    case isTrue => exact .ret ⟨rfl, Std.Refl.refl _, fun _ _ => rfl, fun l _ => le_max_left _ _⟩
    case isFalse hpos =>
      simp only
      split
      case isTrue =>
        refine .imp (hi hnodup fun l hl => hdue l <| .tail _ hl) fun out t hpost => ?_
        obtain ⟨hout, ho, hoff, hle⟩ := hpost
        refine ⟨hout, ho, fun k hk => hoff k fun hk' => hk <| .tail _ hk', fun l hl => ?_⟩
        rcases List.mem_cons.mp hl with rfl | hl
        · exact (hoff _ hline).trans_le <| le_max_left _ _
        · exact hle l hl
      case isFalse hdebt =>
        refine .bind <| post_store (fun x hx => ?_) fun _ => trivial
        refine .bind <| post_create (fun k hk => ?_) fun _ => trivial
        obtain ⟨hr, hk, _⟩ := conflicts_false hk
        have hpaid : ∀ i, Db.paidAmount (s.insert .allocation k ⟨payment, line.id, x⟩) i =
            s.paidAmount i + if line.id = i ∧ s.confirmed payment then x.units else 0 := fun i =>
          paidAmount_insert (a := ⟨payment, line.id, x⟩) hr hk
        have hother : ∀ i ≠ line.id,
            Db.paidAmount (s.insert .allocation k ⟨payment, line.id, x⟩) i = s.paidAmount i :=
          fun i hi => by rw [hpaid, if_neg fun h => hi h.1.symm, add_zero]
        have hne : ∀ l ∈ lines, l.id ≠ line.id := fun l hl he => hline <| he ▸ List.mem_map_of_mem hl
        refine .imp (hi hnodup fun l hl => ?due) fun out t hpost => ?filled
        case due => rw [hother l.id (hne l hl), hdue l <| .tail _ hl]
        obtain ⟨hout, ho, hoff, hle⟩ := hpost
        refine ⟨hout, IsTrans.trans _ _ _ (only_insert <| .head _) ho, fun i hi => ?off, fun l hl => ?le⟩
        case off =>
          obtain ⟨hi₁, hi₂⟩ := not_or.mp <| List.mem_cons.not.mp hi
          rw [hoff i hi₂, hother i hi₁]
        case le =>
          rcases List.mem_cons.mp hl with rfl | hl
          · rw [hoff _ hline, hpaid]
            have hbound := take_bound (not_le.mp hpos).le (not_le.mp hdebt)
            rw [cents, ← hx, hdue _ <| .head _] at hbound
            split <;> omega
          · rw [← hother l.id (hne l hl)]
            exact hle l hl

-- Alone, the locks are granted at once, and the lines are as the query has found them.
theorem post_lockFound {found : List (Loaded BillLine)} (hfound : ∀ l ∈ found, l ∈ s.linesOf b) :
    Prog.Post ((found.map Loaded.id).foldlM (lockLine b) []) s <| Prog.OnReturn fun acc t =>
      t = s ∧ acc = found := by
  let I (acc : List (Loaded BillLine)) (rest : List ℕ) (t : Db) :=
    t = s ∧ ∃ ls, rest = ls.map Loaded.id ∧ acc ++ ls = found
  refine .imp (Prog.Post.foldlM (S := relational.schema) (I := I) (fun {acc k rest _} h => ?step)
    ⟨rfl, found, rfl, rfl⟩) fun acc t ⟨ht, ls, hls, hacc⟩ => ⟨ht, ?_⟩
  case step =>
    obtain ⟨rfl, ls, hls, hacc⟩ := h
    cases ls with
    | nil => simp at hls
    | cons l ls =>
      obtain ⟨rfl, rfl⟩ := List.cons.inj hls
      have ⟨hget, hbill⟩ := mem_linesOf.mp <| hfound l <| hacc ▸ by simp
      refine .bind <| post_selectForUpdate ?_
      rw [hget]
      refine .ret ⟨rfl, ls, rfl, ?_⟩
      rw [if_pos hbill, ← hacc, List.append_assoc]
      rfl
  · simpa [List.map_eq_nil_iff.mp hls.symm] using hacc

theorem linesOf_nodup : ((s.linesOf b).map Loaded.id).Nodup := by
  rw [Db.linesOf, ((List.perm_insertionSort _ _).map _).nodup_iff, List.map_map]
  exact Table.keys_nodup

theorem post_allocateFifo_due {payment : ℕ} {amount : ℚ} :
    Prog.Post (allocateFifo payment amount b) s <| Prog.OnReturn fun out t =>
      out = fifo (s.outstandings b) amount 0 ∧ Database.Only [Name.allocation] s t ∧
      ∀ k l, (s.table .line).get k = some l →
        Db.paidAmount t k ≤ max (s.paidAmount k) l.lineAmount.units := by
  refine .bind <| post_select <| .seq (post_lockFound fun _ => id) fun lines s₁ ⟨hs₁, hlines⟩ => ?_
  subst hs₁ hlines
  refine .bind <| post_select <| .imp (post_allocate_fifo linesOf_nodup fun _ _ => rfl)
    fun out t ⟨hout, ho, hoff, hle⟩ => ⟨hout, ho, fun k l hl => ?_⟩
  by_cases hk : k ∈ (Db.linesOf s₁ b).map Loaded.id
  case neg => exact (hoff k hk).trans_le <| le_max_left _ _
  case pos =>
    have ⟨l', hl', he⟩ := List.mem_map.mp hk
    subst he
    have := hle l' hl'
    rw [(mem_linesOf.mp hl').1, Option.some.injEq] at hl
    rwa [hl] at this

-- A payment is recorded as confirmed.
theorem post_createPayment_row {bill : ℕ} {r : PaymentRequest} :
    Prog.Post (createPayment today bill r) s <| Prog.OnReturn fun payment t =>
      (s.table .payment).get payment = none ∧
      (∀ k ≠ payment, (t.table .payment).get k = (s.table .payment).get k) ∧
      (∃ q, (t.table .payment).get payment = some q ∧ q.bill = bill ∧ q.txnStatus = .confirmed ∧
        q.amount.units = cents r.amount) ∧ Database.Only [Name.payment] s t := by
  refine .seq (Q := fun _ t => t = s) ?geo fun geo t ht => ?_
  case geo =>
    split
    · exact .ret rfl
    · exact .raise trivial
  subst ht
  refine .bind <| post_store (fun amount hamount => ?_) fun _ => trivial
  refine .bind <| post_storeText (fun _ _ => ?_) fun _ => trivial
  refine .bind <| post_create (fun k hk => ?_) fun _ => trivial
  obtain ⟨hr, hk, _⟩ := conflicts_false hk
  refine .bind <| post_save (fun _ _ => .ret ⟨hk, fun i hi => ?_, ?_, ?_⟩) fun _ => trivial
  · rw [modify_table, Table.get_modify, if_neg hi, insert_table hr, Table.get_insert_ne hi]
  · rw [modify_table, Table.get_modify, if_pos rfl, insert_table hr, Table.get_insert_self hk]
    exact ⟨_, rfl, rfl, rfl, hamount⟩
  · exact IsTrans.trans _ _ _ (only_insert <| .head _) (only_modify <| .head _)

theorem paidAmount_of_new {payment : ℕ} (h : Sourced s) (ho : Database.Only [Name.payment] s t)
    (hnew : (s.table .payment).get payment = none)
    (hold : ∀ k ≠ payment, (t.table .payment).get k = (s.table .payment).get k) :
    t.paidAmount = s.paidAmount := by
  funext line
  rw [Db.paidAmount, Db.paidAmount, ho .allocation (by simp)]
  refine Table.sum_congr fun i a ha => ?_
  obtain ⟨q, hq⟩ := h ha
  have hne : a.payment ≠ payment := fun he => by simp [he, hnew] at hq
  rw [Db.confirmed, Db.confirmed, hold _ hne]

-- What `post_payment` does to the bill and to what its lines have been paid.
structure Paid (today : Date) (b : ℕ) (amount : ℚ) (s t : Db) : Prop where
  bill  : ∃ r, (s.table .bill).get b = some r ∧
    Reckoned today b (Decimal.round (r.amountPaid.toRat + s.applied b amount)) s t
  lines : ∀ k l, (s.table .line).get k = some l → t.paidAmount k ≤ max (s.paidAmount k) l.lineAmount.units
  only  : Database.Only [Name.payment, Name.allocation, Name.bill, Name.payer, Name.receipt,
    Name.debtCase] s t

theorem post_postPayment_reckoned {bill : Loaded Bill} {r : PaymentRequest} (h : Sourced s) :
    Prog.Post (postPayment today bill r) s <| Prog.OnReturn fun _ t => Paid today bill.id r.amount s t := by
  refine post_guard (fun _ => trivial) fun _ => post_guard (fun _ => trivial) fun _ => ?_
  refine .bind <| post_getForUpdate (fun row hrow => ?_) fun _ => trivial
  refine .seq post_createPayment_row fun payment s₁ hpost => ?_
  obtain ⟨hnew, hold, _, ho₁⟩ := hpost
  have hpaid₁ : Db.paidAmount s₁ = s.paidAmount := paidAmount_of_new h ho₁ hnew hold
  have hlines₁ : Db.outstandings s₁ bill.id = s.outstandings bill.id := by
    rw [Db.outstandings, Db.outstandings, hpaid₁, Db.linesOf, ho₁ .line (by simp), ← Db.linesOf]
  refine .seq post_allocateFifo_due fun out s₂ hpost => ?_
  obtain ⟨applied, leftover⟩ := out
  obtain ⟨hout, ho₂, hle⟩ := hpost
  refine .bind <| post_store (fun x hx => ?_) fun _ => trivial
  refine .bind <| post_save (fun _ _ => ?_) fun _ => trivial
  have happlied : applied = s.applied bill.id r.amount := by rw [Db.applied, ← hlines₁, ← hout]
  have hbill₂ : s₂.table .bill = s.table .bill := (ho₂ .bill (by simp)).trans (ho₁ .bill (by simp))
  refine .seq (post_recompute (s := s) hrow hx ?found ?others) fun status s₃ hpost => ?_
  case found => rw [modify_table, Table.get_modify, if_pos rfl, hbill₂, hrow]; rfl
  case others =>
    intro k hk
    rw [modify_table, Table.get_modify, if_neg hk, hbill₂]
  obtain ⟨_, hreckoned, ho₃⟩ := hpost
  have rest : (do
      if 0 < leftover then addCredit row.payer leftover
      createReceipt r.council payment
      if status = BillStatus.paid then closeDebtCaseForBill today bill.id
      return payment : Service ℕ).Keeps (Database.Only [Name.payer, Name.receipt, Name.debtCase]) := by
    refine when_keeps (addCredit_keeps fun h => h.mono (by simp)) ?_
    refine .bind (createReceipt_keeps fun h => h.mono (by simp)) fun _ => ?_
    exact when_keeps (closeDebtCaseForBill_keeps <| only_modify <| by simp) .ret
  refine .imp rest.returns fun _ t ho₄ => ⟨⟨row, hrow, ?row⟩, fun k l hl => ?lines, ?only⟩
  case row =>
    rw [← happlied]
    exact hreckoned.congr (ho₄ .bill (by simp)) (ho₄ .line (by simp))
  case lines =>
    have hpaid : Db.paidAmount t = Db.paidAmount s₂ := by
      refine Db.paidAmount_congr ?_ ?_
      · rw [ho₄ .allocation (by simp), ho₃ .allocation (by simp), modify_table_ne (by decide)]
      · rw [ho₄ .payment (by simp), ho₃ .payment (by simp), modify_table_ne (by decide)]
    rw [hpaid, ← hpaid₁]
    exact hle k l <| (ho₁ .line (by simp)) ▸ hl
  case only =>
    refine IsTrans.trans _ _ _ (ho₁.mono <| by simp) <| IsTrans.trans _ _ _ (ho₂.mono <| by simp) ?_
    refine IsTrans.trans _ _ _ (only_modify <| by simp) <| IsTrans.trans _ _ _ (ho₃.mono <| by simp) ?_
    exact ho₄.mono <| by simp

-- What `reverse_payment` does to the payment and to its bill.
structure Reverted (today : Date) (k : ℕ) (q : Payment) (s t : Db) : Prop where
  confirmed : q.txnStatus = .confirmed
  payment   : t.table .payment = (s.table .payment).modify k fun q => { q with txnStatus := .reversed }
  bill      : ∃ r, (s.table .bill).get q.bill = some r ∧
    Reckoned today q.bill (max (r.amountPaid.toRat - kobo (s.appliedBy k)) 0) s t
  only      : Database.Only [Name.payment, Name.bill, Name.payer] s t

theorem post_reversePayment_reckoned {q : Payment} (hq : (s.table .payment).get k = some q) :
    Prog.Post (reversePayment today ⟨k, q⟩) s <| Prog.OnReturn fun _ t => Reverted today k q s t := by
  refine post_guard (fun _ => trivial) fun hc => ?_
  refine .bind <| post_getForUpdate (fun q' hq' => ?_) fun _ => trivial
  rw [hq] at hq'
  cases hq'
  refine .bind <| post_getForUpdate (fun r hr => ?_) fun _ => trivial
  refine .bind <| post_select <| .bind <| post_save (fun _ _ => ?_) fun _ => trivial
  refine .bind <| post_store (fun x hx => ?_) fun _ => trivial
  refine .bind <| post_save (fun _ _ => ?_) fun _ => trivial
  refine .seq (post_recompute (s := s) hr hx ?found ?others) fun status t ⟨_, ht, ho⟩ => ?_
  case found => rw [modify_table, Table.get_modify, if_pos rfl, modify_table_ne (by decide), hr]; rfl
  case others =>
    intro i hi
    rw [modify_table, Table.get_modify, if_neg hi, modify_table_ne (by decide)]
  have rest : (if 0 < q.amount.toRat - kobo (s.appliedBy k) then
      addCredit r.payer (-(q.amount.toRat - kobo (s.appliedBy k))) else pure () :
      Service Unit).Keeps (Database.Only [Name.payer]) := by
    split
    · exact addCredit_keeps id
    · exact .ret
  refine .imp rest.returns fun _ u hu => ⟨not_not.mp hc, ?_, ⟨r, hr, ?_⟩, ?_⟩
  · rw [hu .payment (by simp), ho .payment (by simp), modify_table_ne (by decide), modify_table]
  · exact ht.congr (hu .bill (by simp)) (hu .line (by simp))
  · refine IsTrans.trans _ _ _ ?_ (hu.mono <| by simp)
    refine IsTrans.trans _ _ _ ?_ (ho.mono <| by simp)
    exact IsTrans.trans _ _ _ (only_modify <| by simp) (only_modify <| by simp)

end Payments

section Requests

namespace Request

-- The bill that a request works on, unless it issues one.
def billOf (s : Db) : Request → Option ℕ
  | issueBill _      => none
  | addLine pk _ _   => pk
  | putLine pk _ _   => pk
  | deleteLine pk _  => pk
  | postPayment pk _ => pk
  | reverse pk       => ((s.table .payment).get pk).map (·.bill)

-- What the bill has been paid after the request, before it is rounded to whole kobo.
def paidOn (s : Db) (bill : Bill) : Request → ℚ
  | postPayment pk r => Decimal.round (bill.amountPaid.toRat + s.applied pk r.amount)
  | reverse pk       => max (bill.amountPaid.toRat - kobo (s.appliedBy pk)) 0
  | _                => bill.amountPaid.toRat

end Request

-- A request recomputes the bill it works on.
theorem post_serve {r : Request} (hs : Sourced s) (hb : r.billOf s = some b) :
    Prog.Post (r.serve today) s <| Prog.OnReturn fun _ t => LinesOff b s t ∧
      ∃ bill, (s.table .bill).get b = some bill ∧ Reckoned today b (r.paidOn s bill) s t := by
  have reline : ∀ {t}, Relined today b s t → LinesOff b s t ∧ ∃ bill,
      (s.table .bill).get b = some bill ∧ Reckoned today b bill.amountPaid.toRat s t :=
    fun ht => ⟨ht.lines, ht.bill⟩
  cases r with
  | issueBill r => simp [Request.billOf] at hb
  | addLine pk actor e =>
    cases hb
    refine .seq (.bind <| post_getObject (fun bill hbill _ => ?_) fun _ => trivial) fun _ _ ht => .ret ht
    exact .imp (post_addBillLine hbill) fun _ _ ht => reline ht.1
  | putLine pk lineId lineAmount =>
    cases hb
    refine .bind <| post_getObject (fun bill hbill _ => .bind ?_) fun _ => trivial
    refine post_getObject (fun line hline hpk => ?_) fun _ => trivial
    obtain rfl : line.bill = b := by simpa using hpk
    exact .imp (post_updateBillLine hline) fun _ _ ht => reline ht.1
  | deleteLine pk lineId =>
    cases hb
    refine .bind <| post_getObject (fun bill hbill _ => .bind ?_) fun _ => trivial
    refine post_getObject (fun line hline hpk => .bind ?_) fun _ => trivial
    obtain rfl : line.bill = b := by simpa using hpk
    refine post_select <| post_guard (fun _ => trivial) fun _ => ?_
    exact .imp (post_deleteBillLine hline) fun _ _ ht => reline ht.1
  | postPayment pk r =>
    cases hb
    refine .seq (.bind <| post_getObject (fun bill hbill _ => ?_) fun _ => trivial) fun _ _ ht => .ret ht
    refine .imp (post_postPayment_reckoned hs) fun _ t ht => ⟨?_, ht.bill⟩
    exact .of_only ht.only (by simp)
  | reverse pk =>
    refine .bind <| post_getObject (fun q hq _ => ?_) fun _ => trivial
    rw [Request.billOf, hq, Option.map_some, Option.some.injEq] at hb
    subst hb
    refine .imp (post_reversePayment_reckoned hq) fun _ t ht => ⟨?_, ht.bill⟩
    exact .of_only ht.only (by simp)

-- A request issues a bill or recomputes the one that it works on.
theorem post_serve_cases {r : Request} {Q : Db → Prop} (hs : Sourced s)
    (issue : ∀ {q k t}, r = .issueBill q → Issued q k (q.rolled s k) s t → Q t)
    (recompute : ∀ {b bill t}, r.billOf s = some b → LinesOff b s t →
      (s.table .bill).get b = some bill → Reckoned today b (r.paidOn s bill) s t → Q t) :
    Prog.Post (r.serve today) s <| Prog.OnReturn fun _ t => Q t := by
  cases hb : r.billOf s with
  | some b =>
    exact .imp (post_serve hs hb) fun _ t ⟨hl, bill, hbill, ht⟩ => recompute hb hl hbill ht
  | none =>
    cases r with
    | issueBill r => exact .seq post_issueBill fun _ t ht => .ret <| issue rfl ht
    | reverse pk =>
      refine .bind <| post_getObject (fun q hq _ => ?_) fun _ => trivial
      simp [Request.billOf, hq] at hb
    | _ => simp [Request.billOf] at hb

end Requests

end ACRev360
