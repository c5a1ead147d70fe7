import ACRev360.Theorems.Concurrency
import ACRev360.Theorems.Consolidation

namespace ACRev360

open Relational Relational.Database

-- What bills go through while payments, reversals and new bills run concurrently.

variable {L : Rely relational.schema} {c d s t : Db} {x : Txn relational.schema} {seen : List Facet}
  {b k : ℕ} {today : Date} {row : Bill} {paid : ℚ}

-- The committed states between the calls: every bill's totals are those of its lines.
structure Summed (s : Db) : Prop where
  totals : Totals s
  valid  : Database.valid s

-- A bill goes on as `b'`: only its money and its standing change, and the latter only until it has ended.
structure Bill.GoesOn (b b' : Bill) : Prop where
  fields : b' = { b with amountPaid := b'.amountPaid, status := b'.status, supersededBy := b'.supersededBy }
  ended  : b.status.terminal → b'.status = b.status ∧ b'.supersededBy = b.supersededBy

namespace Bill.GoesOn

variable {b b' b'' : Bill}

theorem refl : b.GoesOn b :=
  ⟨rfl, fun _ => ⟨rfl, rfl⟩⟩

theorem trans (h₁ : b.GoesOn b') (h₂ : b'.GoesOn b'') : b.GoesOn b'' where
  fields := by
    rw [h₂.fields, h₁.fields]
  ended he := by
    obtain ⟨hstatus, hsuccessor⟩ := h₁.ended he
    obtain ⟨hstatus', hsuccessor'⟩ := h₂.ended <| hstatus ▸ he
    exact ⟨hstatus'.trans hstatus, hsuccessor'.trans hsuccessor⟩

theorem terminal (h : b.GoesOn b') (he : b.status.terminal) : b'.status.terminal :=
  (h.ended he).1 ▸ he

theorem totals (h : b.GoesOn b') : b'.totalAmount = b.totalAmount ∧ b'.arrearsAmount = b.arrearsAmount := by
  rw [h.fields]
  exact ⟨rfl, rfl⟩

end Bill.GoesOn

-- The bills go on with the lines that they have.
structure Endures (c d : Db) : Prop where
  bills : ∀ {k b}, (c.table .bill).get k = some b → ∃ b', (d.table .bill).get k = some b' ∧ b.GoesOn b'
  lines : ∀ {i l}, (c.table .line).get i = some l → (d.table .line).get i = some l
  new   : ∀ {i l}, (d.table .line).get i = some l → (c.table .line).get i = none → (c.table .bill).get l.bill = none

namespace Endures

theorem refl : Endures c c where
  bills hb    := ⟨_, hb, .refl⟩
  lines hl    := hl
  new hl hnew := by simp [hl] at hnew

theorem trans (h₁ : Endures c d) (h₂ : Endures d s) : Endures c s where
  bills hb := by
    obtain ⟨b₁, hb₁, hgo₁⟩ := h₁.bills hb
    obtain ⟨b₂, hb₂, hgo₂⟩ := h₂.bills hb₁
    exact ⟨b₂, hb₂, hgo₁.trans hgo₂⟩
  lines hl := h₂.lines <| h₁.lines hl
  new {i l} hl hnew := by
    cases hd : (d.table .line).get i with
    | some l' =>
      obtain rfl := Option.some.inj <| (h₂.lines hd).symm.trans hl
      exact h₁.new hd hnew
    | none =>
      have hnone := h₂.new hl hd
      by_contra hsome
      obtain ⟨b, hb⟩ := Option.ne_none_iff_exists'.mp hsome
      obtain ⟨b', hb', -⟩ := h₁.bills hb
      simp [hnone] at hb'

end Endures

-- The others leave the bills that are committed as they are, but for their money and what they come to.
def lasting : Rely relational.schema where
  guar _ c d  := Summed c → Summed d ∧ Endures c d
  calm _      := False
  takes _ _ _ := True
  lands _ _   := True
  refl _ _ h  := ⟨h, .refl⟩
  trans h₁ h₂ := fun h => ⟨(h₂ (h₁ h).1).1, (h₁ h).2.trans (h₂ (h₁ h).1).2⟩
  anti _ h    := h

instance : lasting.Keeps Summed where
  keeps hd hc := (hd hc).1

section Touching

-- The call has locked the bill, and has changed none of its totals and lines, and nothing else of bills.
structure Touched (b : ℕ) (row : Bill) (d s : Db) : Prop where
  summed : Summed d
  bill   : (d.table .bill).get b = some row
  others : ∀ i, i ≠ b → (s.table .bill).get i = (d.table .bill).get i
  own    : ∃ row', (s.table .bill).get b = some row' ∧ row.GoesOn row' ∧ row'.status.terminal = row.status.terminal
  lines  : s.table .line = d.table .line

namespace Touched

theorem start (h : Summed d) (hb : (d.table .bill).get b = some row) : Touched b row d d :=
  ⟨h, hb, fun _ _ => rfl, ⟨row, hb, .refl, rfl⟩, rfl⟩

theorem only {ts : List Name} (h : Touched b row d s) (ht : Database.Only ts s t) (hb : Name.bill ∉ ts)
    (hl : Name.line ∉ ts) : Touched b row d t where
  summed := h.summed
  bill   := h.bill
  others := ht .bill hb ▸ h.others
  own    := ht .bill hb ▸ h.own
  lines  := (ht .line hl).trans h.lines

theorem modify {g : Bill → Bill} (h : Touched b row d s)
    (hg : ∀ r, row.GoesOn r → r.status.terminal = row.status.terminal →
      row.GoesOn (g r) ∧ (g r).status.terminal = row.status.terminal) :
    Touched b row d (s.modify .bill b g) where
  summed       := h.summed
  bill         := h.bill
  others i hi  := by rw [modify_table, Table.get_modify, if_neg hi, h.others i hi]
  own          := by
    obtain ⟨r, hr, hgo, hterminal⟩ := h.own
    exact ⟨g r, by rw [modify_table, Table.get_modify, if_pos rfl, hr, Option.map_some], hg r hgo hterminal⟩
  lines        := h.lines

theorem pay {amountPaid : Money} (h : Touched b row d s) :
    Touched b row d (s.modify .bill b fun r => { r with amountPaid }) :=
  h.modify fun r hgo hterminal => ⟨⟨by rw [hgo.fields], hgo.ended⟩, hterminal⟩

theorem recompute {amount : ℚ} {totalAmount arrearsAmount : Money} (h : Touched b row d s)
    (htotal : totalAmount = row.totalAmount) (harrears : arrearsAmount = row.arrearsAmount) :
    Touched b row d (s.modify .bill b fun r =>
      { r with totalAmount, arrearsAmount, status := statusOf today row.status paid amount row.dueDate }) := by
  refine h.modify fun r hgo _ => ⟨⟨by rw [hgo.fields, htotal, harrears], fun he => ?_⟩, statusOf_terminal⟩
  exact ⟨if_pos he, (hgo.ended he).2⟩

theorem endures (h : Touched b row d s) : Endures d s where
  bills {k r} hk := by
    by_cases hkb : k = b
    case neg => exact ⟨r, by rw [h.others k hkb, hk], .refl⟩
    case pos =>
      subst hkb
      obtain rfl := Option.some.inj <| h.bill.symm.trans hk
      obtain ⟨row', hrow', hgo, -⟩ := h.own
      exact ⟨row', hrow', hgo⟩
  lines hl    := h.lines ▸ hl
  new hl hnew := by simp [← h.lines, hl] at hnew

theorem totals (h : Touched b row d s) : Totals s := by
  have hline (k : ℕ) : s.lineTotal k = d.lineTotal k ∧ s.arrearsTotal k = d.arrearsTotal k := by
    simp only [Db.lineTotal, Db.arrearsTotal, h.lines, and_self]
  intro k r hr
  rw [(hline k).1, (hline k).2]
  by_cases hkb : k = b
  case neg => exact h.summed.totals <| h.others k hkb ▸ hr
  case pos =>
    subst hkb
    obtain ⟨row', hrow', hgo, -⟩ := h.own
    obtain rfl := Option.some.inj <| hrow'.symm.trans hr
    rw [hgo.totals.1, hgo.totals.2]
    exact h.summed.totals h.bill

end Touched

variable [Rely.Keeps (S := relational.schema) L Summed]

theorem steady_only {α : Type} {p : Service α} {T : List Name} (h : x.Steady Summed (Touched b row) c)
    (hp : p.Keeps (Database.Only T)) (hb : Name.bill ∉ T) (hl : Name.line ∉ T) :
    Prog.Steadies L Summed p (fun _ => Touched b row) c x seen :=
  .of_keeps h hp fun ht hs => hs.only ht hb hl

-- The totals are those of the lines already.
theorem steady_recomputeBill (h : x.Steady Summed (Touched b row) c) :
    Prog.Steadies L Summed (recomputeBill today ⟨b, row⟩ paid) (fun _ => Touched b row) c x seen := by
  have hself := h.self
  obtain ⟨htotal, harrears⟩ := hself.summed.totals hself.bill
  refine .seq (steady_select (J := fun sums d s => sums = (row.arrearsAmount.units, row.totalAmount.units) ∧
    Touched b row d s) ?_) fun sums d y seen hy => ?_
  · refine h.imp fun hs => ⟨?_, hs⟩
    simp only [Db.lineTotal, Db.arrearsTotal, hself.lines] at htotal harrears ⊢
    rw [htotal, harrears]
  obtain ⟨rfl, -⟩ := hy.self
  have money {z : ℤ} {m : Money} (hm : m.units = roundHalfAway (kobo z * 10 ^ 2)) : m.units = z :=
    hm.trans <| cents_kobo z
  extract_lets status
  refine .seq (steady_store (n := 2) hy fun hm hs => And.intro (money hm) hs.2) fun total d y seen hy => ?_
  refine .seq (steady_store (n := 2) hy fun hm hs => And.intro (money hm) hs) fun arrears d y seen hy => ?_
  refine .seq (K := fun _ => Touched b row) (steady_save hy fun _ hs => ?_) fun _ d y seen hy => .ret hy
  exact hs.2.2.recompute (Numeric.ext hs.2.1) (Numeric.ext hs.1)

-- What a request has done with the bill that it has locked.
def Touches (d s : Db) : Prop :=
  ∃ b row, Touched b row d s

theorem Touched.touches (h : Touched b row d s) : Touches d s :=
  ⟨b, row, h⟩

theorem touches_postPayment {bill : Loaded Bill} {r : PaymentRequest}
    (h : x.Steady Summed (fun d s => s = d ∧ Summed d) c) :
    Prog.Steadies L Summed (postPayment today bill r) (fun _ => Touches) c x seen := by
  refine steady_guard fun _ => steady_guard fun _ => ?_
  refine .seq (steady_getForUpdate (J := fun row => Touched bill.id row) h ?_) fun row d y seen hy => ?_
  · rintro row d s hr ⟨rfl, hs⟩
    exact .start hs hr
  refine .seq (steady_only hy (createPayment_keeps (only_insert <| .head []) fun _ => only_modify <| .head [])
    (by simp) (by simp)) fun payment d y seen hy => ?_
  refine .seq (steady_only hy (allocateFifo_keeps id) (by simp) (by simp)) fun out d y seen hy => ?_
  obtain ⟨applied, leftover⟩ := out
  refine .seq (steady_only hy (T := []) store_keeps (by simp) (by simp)) fun stored d y seen hy => ?_
  refine .seq (steady_save hy fun _ hs => hs.pay) fun _ d y seen hy => ?_
  refine .seq (steady_recomputeBill hy) fun status d y seen hy => ?_
  have rest {d y seen} (hy : Txn.Steady Summed (Touched bill.id row) d y) : Prog.Steadies L Summed (do
      createReceipt r.council payment
      if status = BillStatus.paid then closeDebtCaseForBill today bill.id
      return payment : Service ℕ) (fun _ => Touches) d y seen := by
    refine .seq (steady_only hy (createReceipt_keeps id) (by simp) (by simp)) fun _ d y seen hy => ?_
    refine wp_when (fun _ => ?_) fun _ => Prog.Steadies.ret <| hy.imp Touched.touches
    exact Prog.Steadies.seq (steady_only hy closeDebtCaseForBill_only (by simp) (by simp)) fun _ _ _ _ hy =>
      .ret <| hy.imp Touched.touches
  refine wp_when (fun _ => Prog.Steadies.seq (steady_only hy (addCredit_keeps id) (by simp) (by simp)) ?_) fun _ => rest hy
  exact fun _ _ _ _ => rest

theorem touches_reversePayment {payment : Loaded Payment} (h : x.Steady Summed (fun d s => s = d ∧ Summed d) c) :
    Prog.Steadies L Summed (reversePayment today payment) (fun _ => Touches) c x seen := by
  refine steady_guard fun _ => ?_
  refine .seq (steady_getForUpdate (J := fun _ d s => s = d ∧ Summed d) h fun _ hs => hs) fun q d y seen hy => ?_
  refine .seq (steady_getForUpdate (J := fun row => Touched q.bill row) hy ?_) fun row d y seen hy => ?_
  · rintro row d s hr ⟨rfl, hs⟩
    exact .start hs hr
  refine .seq (steady_only hy (T := []) keeps_select (by simp) (by simp)) fun applied d y seen hy => ?_
  refine .seq (steady_only hy (keeps_save fun _ => only_modify <| .head []) (by simp) (by simp)) fun _ d y seen hy => ?_
  refine .seq (steady_only hy (T := []) store_keeps (by simp) (by simp)) fun stored d y seen hy => ?_
  refine .seq (steady_save hy fun _ hs => hs.pay) fun _ d y seen hy => ?_
  refine .seq (steady_recomputeBill hy) fun _ d y seen hy => ?_
  split
  · exact (steady_only hy (addCredit_keeps id) (by simp) (by simp)).imp Touched.touches
  · exact .ret <| hy.imp Touched.touches

end Touching

section Founding

variable {r : IssueRequest} {bill : ℕ} {rolls : Bool} {fresh : List ℕ}

-- The bill has been superseded while it was live.
def Replaced (r : IssueRequest) (bill k : ℕ) (d s : Db) : Prop :=
  ∃ p, (d.table .bill).get k = some p ∧ p.payer = r.payer.id ∧ p.status.terminal = false ∧
    (s.table .bill).get k = some (supersede bill p)

-- The call has inserted the bill, with the lines `fresh`, and has superseded others if it `rolls`.
structure Founding (r : IssueRequest) (bill : ℕ) (rolls : Bool) (fresh : List ℕ) (d s : Db) : Prop where
  summed : Summed d
  absent : (d.table .bill).get bill = none
  row    : ∃ b, (s.table .bill).get bill = some b ∧ b.payer = r.payer.id ∧ b.status.terminal = false
  others : ∀ k ≠ bill, (s.table .bill).get k = (d.table .bill).get k ∨ rolls ∧ Replaced r bill k d s
  lines  : LinesOff bill d s
  fresh  : ∀ i ∈ fresh, ∃ l, (s.table .line).get i = some l ∧ l.bill = bill

namespace Founding

theorem start {b : Bill} (h : Summed d) (hs : Database.Only [Name.assessment] d s) (hr : bill ∉ s.retired .bill)
    (hk : (s.table .bill).get bill = none) (hpayer : b.payer = r.payer.id) (hlive : b.status.terminal = false) :
    Founding r bill false [] d (s.insert .bill bill b) where
  summed := h
  absent := hs .bill (by simp) ▸ hk
  row    := ⟨b, by rw [insert_table hr, Table.get_insert_self hk], hpayer, hlive⟩
  others k hne := .inl <| by rw [insert_table hr, Table.get_insert_ne hne, hs .bill (by simp)]
  lines  := (LinesOff.of_only hs (by simp)).congr <| insert_table_ne (by decide)
  fresh  := by simp

theorem only {ts : List Name} (h : Founding r bill rolls fresh d s) (ht : Database.Only ts s t) (hb : Name.bill ∉ ts)
    (hl : Name.line ∉ ts) : Founding r bill rolls fresh d t where
  summed := h.summed
  absent := h.absent
  row    := ht .bill hb ▸ h.row
  others k hk := by
    rw [Replaced, ht .bill hb]
    exact h.others k hk
  lines  := h.lines.congr <| ht .line hl
  fresh  := ht .line hl ▸ h.fresh

theorem insert_line {l : BillLine} (h : Founding r bill rolls fresh d s) (hr : k ∉ s.retired .line)
    (hk : (s.table .line).get k = none) (hl : l.bill = bill) :
    Founding r bill rolls (fresh ++ [k]) d (s.insert .line k l) where
  summed := h.summed
  absent := h.absent
  row    := by rw [insert_table_ne (by decide)]; exact h.row
  others k hk := by
    rw [Replaced, insert_table_ne (by decide)]
    exact h.others k hk
  lines  := h.lines.trans <| .insert hr hk hl
  fresh i hi := by
    rcases List.mem_append.mp hi with hi | hi
    · obtain ⟨l', hl', hbill⟩ := h.fresh i hi
      exact ⟨l', get_insert_of_some hl', hbill⟩
    · rw [List.mem_singleton.mp hi, insert_table hr]
      exact ⟨l, Table.get_insert_self hk, hl⟩

theorem modify_line {g : BillLine → BillLine} (h : Founding r bill rolls fresh d s) (hk : k ∈ fresh)
    (hg : ∀ l, (g l).bill = l.bill) : Founding r bill rolls fresh d (s.modify .line k g) where
  summed := h.summed
  absent := h.absent
  row    := h.row
  others := h.others
  lines  := by
    obtain ⟨l, hl, hbill⟩ := h.fresh k hk
    exact h.lines.trans <| .modify hl hbill <| (hg l).trans hbill
  fresh i hi := by
    obtain ⟨l, hl, hbill⟩ := h.fresh i hi
    rw [modify_table, Table.get_modify]
    split
    case isTrue hik => exact ⟨g l, by rw [← hik, hl, Option.map_some], (hg l).trans hbill⟩
    case isFalse => exact ⟨l, hl, hbill⟩

theorem modify_bill {g : Bill → Bill} (h : Founding r bill rolls fresh d s)
    (hg : ∀ b, (g b).payer = b.payer ∧ (b.status.terminal = false → (g b).status.terminal = false)) :
    Founding r bill rolls fresh d (s.modify .bill bill g) where
  summed := h.summed
  absent := h.absent
  row    := by
    obtain ⟨b, hb, hpayer, hlive⟩ := h.row
    exact ⟨g b, by rw [modify_table, Table.get_modify, if_pos rfl, hb, Option.map_some], (hg b).1.trans hpayer,
      (hg b).2 hlive⟩
  others k hk := by
    rw [Replaced, modify_table, Table.get_modify, if_neg hk]
    exact h.others k hk
  lines  := h.lines
  fresh  := h.fresh

theorem supersede {p : Bill} (h : Founding r bill true fresh d s) (hk : k ≠ bill)
    (hp : (d.table .bill).get k = some p) (hpayer : p.payer = r.payer.id) (hlive : p.status.terminal = false) :
    Founding r bill true fresh d (s.modify .bill k (supersede bill)) where
  summed := h.summed
  absent := h.absent
  row    := by rw [modify_table, Table.get_modify, if_neg hk.symm]; exact h.row
  others i hi := by
    rw [Replaced, modify_table, Table.get_modify]
    split
    case isFalse => exact h.others i hi
    case isTrue hik =>
      subst hik
      refine .inr ⟨rfl, p, hp, hpayer, hlive, ?_⟩
      rcases h.others i hi with hsame | ⟨-, p', hp', -, -, hsuper⟩
      · rw [hsame, hp, Option.map_some]
      · obtain rfl := Option.some.inj <| hp.symm.trans hp'
        rw [hsuper, Option.map_some]
        rfl
  lines  := h.lines
  fresh  := h.fresh

theorem rolling (h : Founding r bill false fresh d s) : Founding r bill rolls fresh d s :=
  { h with others := fun k hk => (h.others k hk).imp id fun ⟨hf, _⟩ => by contradiction }

theorem mono {fresh' : List ℕ} (h : Founding r bill rolls fresh d s) (hf : fresh' ⊆ fresh) :
    Founding r bill rolls fresh' d s :=
  { h with fresh := fun i hi => h.fresh i <| hf hi }

end Founding

variable [Rely.Keeps (S := relational.schema) L Summed]

theorem steady_founding {α : Type} {p : Service α} {T : List Name} (h : x.Steady Summed (Founding r bill rolls fresh) c)
    (hp : p.Keeps (Database.Only T)) (hb : Name.bill ∉ T) (hl : Name.line ∉ T) :
    Prog.Steadies L Summed p (fun _ => Founding r bill rolls fresh) c x seen :=
  .of_keeps h hp fun ht hs => hs.only ht hb hl

theorem steady_createLine {assessment position : ℕ} {current arrears amount : ℚ}
    (h : x.Steady Summed (Founding r bill rolls fresh) c) :
    Prog.Steadies L Summed (createLine bill assessment current arrears amount position)
      (fun k => Founding r bill rolls (fresh ++ [k])) c x seen := by
  refine .seq (steady_founding h (T := []) store_keeps (by simp) (by simp)) fun current d y seen hy => ?_
  refine .seq (steady_founding hy (T := []) store_keeps (by simp) (by simp)) fun arrears d y seen hy => ?_
  refine .seq (steady_founding hy (T := []) store_keeps (by simp) (by simp)) fun amount d y seen hy => ?_
  exact steady_create hy fun hr hk hs => hs.insert_line hr hk rfl

theorem steady_createFreshLine {lines : List FreshLine} {a : AssessmentObject}
    (h : x.Steady Summed (Founding r bill rolls (lines.map FreshLine.id)) c) :
    Prog.Steadies L Summed (createFreshLine bill lines a)
      (fun lines => Founding r bill rolls (lines.map FreshLine.id)) c x seen := by
  refine .seq (steady_createLine h) fun k d y seen hy => ?_
  refine .seq (steady_founding hy (setAssessmentStatus_keeps id) (by simp) (by simp)) fun _ d y seen hy => .ret ?_
  simpa using hy

-- The bills that have been locked are open bills of the payer.
structure Rollable (r : IssueRequest) (bill : ℕ) (open_ : List (Loaded Bill)) (d : Db) : Prop where
  prior : ∀ p ∈ open_, p.id ≠ bill ∧ (d.table .bill).get p.id = some p.row ∧ p.row.payer = r.payer.id ∧
    p.row.status.terminal = false

theorem steady_lockOpenBill {acc : List (Loaded Bill)} (hk : k ≠ bill)
    (h : x.Steady Summed (fun d s => Founding r bill false fresh d s ∧ Rollable r bill acc d) c) :
    Prog.Steadies L Summed (lockOpenBill r.payer.id acc k)
      (fun acc d s => Founding r bill false fresh d s ∧ Rollable r bill acc d) c x seen := by
  refine .seq (K := fun found d s => (Founding r bill false fresh d s ∧ Rollable r bill acc d) ∧
      ∀ p, found = some p → (d.table .bill).get k = some p)
    (steady_selectForUpdate h (fun {p d s} hp hs => ⟨hs, fun _ he => Option.some.inj he ▸ ?_⟩)
      fun hs => ⟨hs, fun _ he => by contradiction⟩) fun found d y seen hy => ?_
  · rcases hs.1.others k hk with hsame | ⟨hf, _⟩
    · rw [← hsame, hp]
    · contradiction
  · cases found with
    | none => exact .ret <| hy.imp And.left
    | some p =>
      refine .ret <| hy.imp fun ⟨⟨hs, hacc⟩, hp⟩ => ⟨hs, ?_⟩
      split
      case isFalse => exact hacc
      case isTrue hopen =>
        simp only [Bool.and_eq_true, decide_eq_true_eq] at hopen
        refine ⟨fun q hq => ?_⟩
        rcases List.mem_append.mp hq with hq | hq
        · exact hacc.prior q hq
        · rw [List.mem_singleton.mp hq]
          exact ⟨hk, hp p rfl, hopen.1, BillStatus.not_terminal_of_isOpen hopen.2⟩

theorem steady_rollBill {acc : List Arrears} {prior : Loaded Bill} {open_ : List (Loaded Bill)}
    (h : x.Steady Summed (fun d s => Founding r bill true fresh d s ∧ Rollable r bill (prior :: open_) d) c) :
    Prog.Steadies L Summed (rollBill today bill acc prior)
      (fun _ d s => Founding r bill true fresh d s ∧ Rollable r bill open_ d) c x seen := by
  refine .seq (K := fun _ d s => Founding r bill true fresh d s ∧ Rollable r bill open_ d)
    (steady_save h fun {_ d s} _ ⟨hs, hopen⟩ => ⟨?_, ⟨fun p hp => hopen.prior p <| .tail _ hp⟩⟩)
    fun _ d y seen hy => ?_
  · obtain ⟨hne, hget, hpayer, hlive⟩ := hopen.prior prior <| .head _
    exact hs.supersede hne hget hpayer hlive
  · refine .of_keeps (P := Database.Only [Name.debtCase]) hy ?_ fun ht hs => ⟨hs.1.only ht (by simp) (by simp), hs.2⟩
    exact .bind closeDebtCaseForBill_only fun _ => .bind keeps_select fun _ => .foldlM fun _ _ => rollLine_keeps

theorem steady_placeArrears {lines : List FreshLine} {position : ℕ} {a : Arrears}
    (h : x.Steady Summed (Founding r bill rolls (lines.map FreshLine.id)) c) :
    Prog.Steadies L Summed (placeArrears bill lines position a)
      (fun _ => Founding r bill rolls (lines.map FreshLine.id)) c x seen := by
  unfold placeArrears
  split
  case h_1 line hfound =>
    have hmem : line.id ∈ lines.map FreshLine.id := List.mem_map.mpr ⟨line, List.mem_of_find?_eq_some hfound, rfl⟩
    refine .seq (steady_founding h (T := []) store_keeps (by simp) (by simp)) fun arrears d y seen hy => ?_
    refine .seq (steady_founding hy (T := []) store_keeps (by simp) (by simp)) fun amount d y seen hy => ?_
    refine .seq (K := fun _ => Founding r bill rolls (lines.map FreshLine.id))
      (steady_save hy fun _ hs => hs.modify_line hmem fun _ => rfl) fun _ d y seen hy => .ret hy
  case h_2 => exact .seq (steady_createLine h) fun k d y seen hy => .ret <| hy.imp fun hs => hs.mono <| by simp

theorem steady_rollArrears {lines : List FreshLine}
    (h : x.Steady Summed (Founding r bill false (lines.map FreshLine.id)) c) :
    Prog.Steadies L Summed (rollArrears today r.payer.id bill lines) (fun _ => Founding r bill true []) c x seen := by
  refine .seq (steady_select (J := fun found d s => (∀ k ∈ found, k ≠ bill) ∧
    Founding r bill false (lines.map FreshLine.id) d s) <| h.imp fun hs => ⟨fun k hk => openBills_ne hk, hs⟩)
    fun found d y seen hy => ?_
  refine .seq (.foldlM (K := fun acc found d s => (∀ k ∈ found, k ≠ bill) ∧
    Founding r bill false (lines.map FreshLine.id) d s ∧ Rollable r bill acc d) (fun hy => ?lock) ?start)
    fun open_ d y seen hy => ?_
  case lock =>
    have hne := hy.self.1
    refine (steady_lockOpenBill (hne _ <| .head _) <| hy.imp And.right).imp fun hs => ⟨fun k hk => ?_, hs⟩
    exact hne k <| .tail _ hk
  case start => exact hy.imp fun hs => ⟨hs.1, hs.2, ⟨fun _ hp => by contradiction⟩⟩
  refine .seq (.foldlM (K := fun _ open_ d s => Founding r bill true (lines.map FreshLine.id) d s ∧
    Rollable r bill open_ d) (fun hy => steady_rollBill hy) <| hy.imp fun hs => ⟨hs.2.1.rolling, hs.2.2⟩)
    fun arrears d y seen hy => ?_
  refine .seq (.foldlM (K := fun _ _ => Founding r bill true (lines.map FreshLine.id))
    (fun hy => steady_placeArrears hy) <| hy.imp And.left) fun _ d y seen hy => .ret ?_
  exact hy.imp fun hs => hs.mono <| by simp

-- The totals of the bill are those of its lines, too.
structure Founded (r : IssueRequest) (bill : ℕ) (rolls : Bool) (d s : Db) : Prop
    extends Founding r bill rolls [] d s where
  totals : ∀ {b}, (s.table .bill).get bill = some b →
    b.totalAmount.units = s.lineTotal bill ∧ b.arrearsAmount.units = s.arrearsTotal bill

-- A bill that is not committed has the lines that the call has inserted.
theorem Founding.lines_fixed (h : x.Steady Summed (Founding r bill rolls fresh) c)
    (hagree : ∀ row, x.held row → Agree row c d) (hd : Summed d) :
    Db.lineTotal (x.pend d) bill = Db.lineTotal (x.pend c) bill ∧
      Db.arrearsTotal (x.pend d) bill = Db.arrearsTotal (x.pend c) bill := by
  have habsent : ∀ {e : Db}, Summed e → (e.table .bill).get bill = none → ∀ {i l}, l.bill = bill →
      (e.table .line).get i ≠ some l := by
    intro e he hnone i l hl hget
    have href : (.bill, l.bill) ∈ relational.refs .line l := .head _
    obtain ⟨b, hb⟩ := valid_ref he.valid hget href
    simp [hl, hnone] at hb
  have hsame (i : ℕ) (l : BillLine) (hl : l.bill = bill) :
      (Database.table (x.pend d) .line).get i = some l ↔ (Database.table (x.pend c) .line).get i = some l := by
    cases hx : x.held (.row .line i) with
    | true =>
      have hrow : Agree (Row.row (R := relational) Name.line i) (x.pend c) (x.pend d) := x.det hagree _ hx
      rw [hrow.1]
    | false =>
      have hc : Agree (Row.row (R := relational) Name.line i) c (x.pend c) := x.frame c hx
      have hd' : Agree (Row.row (R := relational) Name.line i) d (x.pend d) := x.frame d hx
      rw [← hc.1, ← hd'.1]
      exact iff_of_false (habsent hd (h.makes d hagree hd).absent hl) (habsent h.holds h.self.absent hl)
  constructor <;> refine Table.sum_eq_of_iff fun i l hl => hsame i l ?_
  all_goals
    split at hl
    case isTrue hlk => exact hlk
    case isFalse => contradiction

theorem steady_recompute_own {row : Bill} (hrow : row.status.terminal = false)
    (h : x.Steady Summed (Founding r bill rolls fresh) c) :
    Prog.Steadies L Summed (recomputeBill today ⟨bill, row⟩ paid) (fun _ => Founded r bill rolls) c x seen := by
  refine .seq (steady_select (J := fun sums (d s : Db) => sums = (s.arrearsTotal bill, s.lineTotal bill) ∧
    Founding r bill rolls fresh d s) ⟨h.holds, fun d hd hs => ⟨?_, h.makes d hd hs⟩⟩) fun sums d y seen hy => ?_
  · obtain ⟨htotal, harrears⟩ := Founding.lines_fixed h hd hs
    rw [htotal, harrears]
  have money {z : ℤ} {m : Money} (hm : m.units = roundHalfAway (kobo z * 10 ^ 2)) : m.units = z :=
    hm.trans <| cents_kobo z
  extract_lets status
  have hlive : status.terminal = false := statusOf_terminal.trans hrow
  refine .seq (steady_store (n := 2) hy fun hm hs => And.intro (money hm) hs) fun total d y seen hy => ?_
  refine .seq (steady_store (n := 2) hy fun hm hs => And.intro (money hm) hs) fun arrears d y seen hy => ?_
  refine .seq (K := fun _ => Founded r bill rolls) (steady_save hy ?_) fun _ d y seen hy => .ret hy
  rintro b d s hb ⟨harrears, htotal, rfl, hs⟩
  refine ⟨(hs.modify_bill (g := fun b => { b with totalAmount := total, arrearsAmount := arrears, status })
    fun _ => ⟨rfl, fun _ => hlive⟩).mono <| by simp, fun hb' => ?_⟩
  rw [modify_table, Table.get_modify, if_pos rfl, hb, Option.map_some, Option.some.injEq] at hb'
  exact hb' ▸ ⟨htotal, harrears⟩

theorem steady_finalizeBill {row : Bill} (hrow : row.status.terminal = false)
    (h : x.Steady Summed (Founding r bill rolls fresh) c) :
    Prog.Steadies L Summed (finalizeBill today ⟨bill, row⟩) (fun _ => Founded r bill rolls) c x seen := by
  refine .seq (steady_founding h (T := []) load_keeps (by simp) (by simp)) fun config d y seen hy => ?_
  refine .seq (K := fun _ => Founding r bill rolls fresh)
    (steady_save hy fun _ hs => hs.modify_bill fun _ => ⟨rfl, id⟩) fun _ d y seen hy => ?_
  exact .seq (steady_recompute_own hrow hy) fun _ _ _ _ hy => .ret hy

theorem steady_writeBill {assessments : List AssessmentObject} {dueDate : Date}
    (h : x.Steady Summed (fun d s => Summed d ∧ Database.Only [Name.assessment] d s) c) :
    Prog.Steadies L Summed (writeBill today r assessments dueDate) (fun out => Founded r out.1 r.rollArrears) c x seen := by
  refine .seq (K := fun bill => Founding r bill false [])
    (steady_create h fun hr hk hs => .start hs.1 hs.2 hr hk rfl rfl) fun bill d y seen hy => ?_
  refine .seq (.foldlM (K := fun lines _ => Founding r bill false (lines.map FreshLine.id))
    (fun hy => steady_createFreshLine hy) hy) fun lines d y seen hy => ?_
  refine .seq (K := fun _ => Founding r bill r.rollArrears []) ?roll fun n d y seen hy => ?_
  case roll =>
    split
    case isTrue hroll => exact hroll ▸ steady_rollArrears hy
    case isFalse => exact .ret <| hy.imp fun hs => (hs.mono <| by simp).rolling
  exact .seq (steady_finalizeBill rfl hy) fun _ _ _ _ hy => .ret hy

theorem steady_issueBill (h : x.Steady Summed (fun d s => s = d ∧ Summed d) c) :
    Prog.Steadies L Summed (issueBill today r) (fun out => Founded r out.1 r.rollArrears) c x seen := by
  refine .seq (steady_getForUpdate (J := fun _ d s => s = d ∧ Summed d) h fun _ hs => hs) fun _ d y seen hy => ?_
  have rest {d y seen} (hy : Txn.Steady Summed (fun d s : Db => s = d ∧ Summed d) d y) : Prog.Steadies L Summed (do
      let assessments ← mergedAssessments r
      if assessments.isEmpty && !r.rollArrears then refuse .emptyBill
      let dueDate ← dueDateOf today r
      writeBill today r assessments dueDate : Service (ℕ × ℕ)) (fun out => Founded r out.1 r.rollArrears) d y seen := by
    refine .seq (.of_keeps (P := Database.Only [Name.assessment])
      (hy.imp (J := fun d s : Db => Summed d ∧ Database.Only [Name.assessment] d s) ?_) (mergedAssessments_keeps id)
      fun ht hs => ⟨hs.1, IsTrans.trans _ _ _ hs.2 ht⟩) fun assessments d y seen hy => ?_
    · rintro d s ⟨rfl, hs⟩
      exact ⟨hs, Std.Refl.refl _⟩
    refine steady_guard fun _ => ?_
    exact .seq (.of_keeps (P := Eq) hy dueDateOf_keeps fun he hs => he ▸ hs) fun dueDate d y seen hy =>
      steady_writeBill hy
  split
  case isTrue => exact rest hy
  case isFalse => exact .seq (.of_keeps (P := Eq) hy checkDuplicate_keeps fun he hs => he ▸ hs) fun _ _ _ _ => rest

end Founding

section Runs

variable {ι : Type} {i : ι} {request : Request} {c₀ : Db}

-- The requests that lock the bills that they work on.
def Request.Locking : Request → Prop
  | .issueBill _ | .postPayment .. | .reverse _ => True
  | _                                           => False

-- The request has rolled the bill over into a new one of its payer.
def Supersedes (request : Request) (k : ℕ) (c d : Db) : Prop :=
  ∃ r bill row, request = .issueBill r ∧ r.rollArrears ∧ Replaced r bill k c d ∧ (c.table .bill).get bill = none ∧
    (d.table .bill).get bill = some row ∧ row.payer = r.payer.id

-- What becomes of the bills when a request is served.
structure Turns (request : Request) (c d : Db) : Prop where
  summed  : Summed d
  endures : Endures c d
  ended   : ∀ {k b b'}, (c.table .bill).get k = some b → (d.table .bill).get k = some b' → b.status.terminal = false →
    b'.status.terminal → Supersedes request k c d
  opened  : ∀ {k b}, (c.table .bill).get k = none → (d.table .bill).get k = some b → b.status.terminal = false

namespace Turns

theorem refl (h : Summed c) : Turns request c c where
  summed  := h
  endures := .refl
  ended hb hb' hlive hend := by
    obtain rfl := Option.some.inj <| hb.symm.trans hb'
    simp [hlive] at hend
  opened hnone hb := by simp [hnone] at hb

theorem of_touches (h : Touches d s) (hv : Database.valid s) : Turns request d s := by
  obtain ⟨b, row, h⟩ := h
  obtain ⟨row', hrow', -, hterminal⟩ := h.own
  refine ⟨⟨h.totals, hv⟩, h.endures, fun {k r r'} hr hr' hlive hend => ?_, fun {k r} hnone hr => ?_⟩
  all_goals by_cases hk : k = b
  · subst hk
    obtain rfl := Option.some.inj <| h.bill.symm.trans hr
    obtain rfl := Option.some.inj <| hrow'.symm.trans hr'
    simp [hterminal, hlive] at hend
  · rw [h.others k hk, hr] at hr'
    obtain rfl := Option.some.inj hr'
    simp [hlive] at hend
  · subst hk
    simp [h.bill] at hnone
  · simp [h.others k hk, hnone] at hr

theorem of_founded {r : IssueRequest} {bill : ℕ} (h : Founded r bill r.rollArrears d s) (hv : Database.valid s) :
    Turns (.issueBill r) d s := by
  obtain ⟨row, hrow, hpayer, hlive⟩ := h.row
  have hne {k : ℕ} {b : Bill} (hb : (d.table .bill).get k = some b) : k ≠ bill := by
    rintro rfl
    simp [h.absent] at hb
  have hcommitted {i : ℕ} {l : BillLine} (hl : (d.table .line).get i = some l) : l.bill ≠ bill := by
    have href : (.bill, l.bill) ∈ relational.refs .line l := .head _
    obtain ⟨b, hb⟩ := valid_ref h.summed.valid hl href
    exact hne hb
  refine ⟨⟨?totals, hv⟩, ⟨?bills, ?lines, ?new⟩, ?ended, ?opened⟩
  case totals =>
    intro k b hb
    by_cases hk : k = bill
    case pos => exact hk ▸ h.totals (hk ▸ hb)
    case neg =>
      rw [h.lines.lineTotal hk, h.lines.arrearsTotal hk]
      rcases h.others k hk with hsame | ⟨-, p, hp, -, -, hsuper⟩
      · exact h.summed.totals <| hsame ▸ hb
      · obtain rfl := Option.some.inj <| hsuper.symm.trans hb
        have hsums := h.summed.totals hp
        exact hsums
  case bills =>
    intro k b hb
    rcases h.others k (hne hb) with hsame | ⟨-, p, hp, -, hend, hsuper⟩
    · exact ⟨b, hsame.trans hb, .refl⟩
    · obtain rfl := Option.some.inj <| hb.symm.trans hp
      exact ⟨_, hsuper, rfl, fun he => by simp [hend] at he⟩
  case lines => exact fun hl => (h.lines _ _ <| hcommitted hl).mpr hl
  case new =>
    intro i l hl hnone
    by_cases hk : l.bill = bill
    case pos => rw [hk, h.absent]
    case neg => simp [(h.lines i l hk).mp hl] at hnone
  case ended =>
    intro k b b' hb hb' hstart hend
    rcases h.others k (hne hb) with hsame | ⟨hroll, hreplaced⟩
    · obtain rfl := Option.some.inj <| (hsame.trans hb).symm.trans hb'
      simp [hstart] at hend
    · exact ⟨r, bill, row, rfl, hroll, hreplaced, h.absent, hrow, hpayer⟩
  case opened =>
    intro k b hnone hb
    by_cases hk : k = bill
    case pos =>
      subst hk
      exact Option.some.inj (hrow.symm.trans hb) ▸ hlive
    case neg =>
      rcases h.others k hk with hsame | ⟨-, p, hp, -⟩
      · simp [hsame, hnone] at hb
      · simp [hnone] at hp

end Turns

-- What a call has come to when it ends.
structure Outcomes (request : Request) (c₀ : Db) (e : Event relational.schema ι Unit) : Prop where
  turns : Summed e.before → Turns request e.before e.after
  paid  : ∀ {pk r b}, request = .postPayment pk r → (c₀.table .bill).get pk = some b → b.status.terminal →
    e.result ≠ .ok ()

theorem Outcomes.error {err : relational.Exn} {held : relational.Row → Bool} :
    Outcomes request c₀ (⟨i, .error err, c, c, held⟩ : Event relational.schema ι Unit) where
  turns h          := .refl h
  paid _ _ _ h     := by contradiction

theorem wp_outcomes {p : Service Unit} {J : Unit → Db → Db → Prop} (h : p.Steadies lasting Summed J c x seen)
    (hj : ∀ {a d s}, J a d s → Database.valid s → Turns request d s)
    (hpaid : p.Wp lasting (fun out _ _ _ => ∀ pk r b, request = .postPayment pk r → (c₀.table .bill).get pk = some b →
      b.status.terminal → out ≠ .ok ()) c x seen) :
    p.Wp lasting (Sys.Ended lasting (Outcomes request c₀) i) c x seen := by
  refine (Prog.Wp.and h hpaid).mono fun out d y _ ⟨hy, hout⟩ => ?_
  cases out with
  | error e => exact .error
  | ok a => exact ⟨fun _ hv => ⟨fun _ => hj (hy a rfl).self hv, fun hr hb => hout _ _ _ hr hb⟩, .error⟩

-- What the view reads is no older than the start.
theorem wp_paid {pk : ℕ} {r : PaymentRequest} (h : Endures c₀ c) :
    (createPaymentView today pk r).Wp lasting (fun out _ _ _ => ∀ b, (c₀.table .bill).get pk = some b →
      b.status.terminal → ∃ err, out = .error err) c .start [] := by
  refine .bind <| wp_getObject (fun row hrow _ d hd => ?_) fun err _ _ _ _ _ => ⟨err, rfl⟩
  refine wp_guard (fun err _ _ _ => ⟨err, rfl⟩) fun hsuperseded => ?_
  refine wp_guard (fun err _ _ _ => ⟨err, rfl⟩) fun hcancelled => ?_
  refine .of_forall fun _ _ _ _ b hb hend => ?_
  obtain ⟨b', hb', hgo⟩ := h.bills hb
  obtain rfl := Option.some.inj <| hb'.symm.trans hrow
  have hended := hgo.terminal hend
  dsimp only at hsuperseded hcancelled
  cases hstatus : b'.status <;> simp_all [BillStatus.terminal]

theorem wp_serve_outcomes (hr : request.Locking) (hc : Summed c) (h₀ : Endures c₀ c) :
    (request.serve today).Wp lasting (Sys.Ended lasting (Outcomes request c₀) i) c .start [] := by
  have hstart : Txn.Steady (S := relational.schema) Summed (fun d s => s = d ∧ Summed d) c .start :=
    ⟨hc, fun _ _ hh => ⟨rfl, hh⟩⟩
  have hview {n : Name} {pk : ℕ} {p : Rec n → Bool} {sees : List Facet} :
      Prog.Steadies lasting Summed (getObject n pk p sees) (fun _ d s => s = d ∧ Summed d) c .start [] :=
    .of_keeps (P := Eq) hstart getObject_keeps fun he hs => he ▸ hs
  cases request with
  | issueBill r =>
    refine wp_outcomes (J := fun _ d s => ∃ bill, Founded r bill r.rollArrears d s)
      (.seq (steady_issueBill hstart) fun out d y seen hy => .ret <| hy.imp fun hs => ⟨_, hs⟩)
      (fun ⟨_, hs⟩ hv => .of_founded hs hv) <| .of_forall fun _ _ _ _ _ _ _ he => by contradiction
  | postPayment pk r =>
    refine wp_outcomes (J := fun _ => Touches)
      (.seq (.seq hview fun bill d y seen hy => touches_postPayment hy) fun _ _ _ _ hy => .ret hy)
      (fun hs hv => .of_touches hs hv) ?_
    refine .bind <| (wp_paid h₀).mono fun out d y seen hout => ?_
    cases out with
    | error err => exact fun _ _ _ _ _ _ h => by contradiction
    | ok k =>
      refine .ret fun pk' r' b hr hb hend => ?_
      cases hr
      obtain ⟨err, herr⟩ := hout b hb hend
      contradiction
  | reverse pk =>
    refine wp_outcomes (J := fun _ => Touches) (.seq hview fun payment d y seen hy => touches_reversePayment hy)
      (fun hs hv => .of_touches hs hv) <| .of_forall fun _ _ _ _ _ _ _ he => by contradiction
  | addLine => exact hr.elim
  | putLine => exact hr.elim
  | deleteLine => exact hr.elim

-- The bills and their lines are what they have been issued as. A bill that has ended has ended for good, it has been
-- rolled over into another if it ended on the way, and whoever has paid it since had seen it before.
structure Lifecycle (calls : ι → Request) (c : Db) (s : Sys relational.schema ι Unit) : Prop where
  summed  : Summed s.committed
  endures : Endures c s.committed
  since   : ∀ e ∈ s.log, Endures e.after s.committed
  ended   : ∀ e ∈ s.log, ∀ {k b b'}, (e.before.table .bill).get k = some b → (e.after.table .bill).get k = some b' →
    b.status.terminal = false → b'.status.terminal → Supersedes (calls e.who) k e.before e.after
  paid    : ∀ e ∈ s.log, ∀ {pk r b}, calls e.who = .postPayment pk r → e.result = .ok () →
    (e.before.table .bill).get pk = some b → b.status.terminal →
    ∃ e' ∈ s.log, Supersedes (calls e'.who) pk e'.before e'.after

-- This holds of every schedule.
theorem lifecycle_concurrently [DecidableEq ι] [Fintype ι] {calls : ι → Request} {days : ι → Date} {n : Name → ℕ}
    {s : Sys relational.schema ι Unit} (hcalls : ∀ i, (calls i).Locking) (hc : Summed c)
    (h : Sys.Run (fun _ _ _ => True) (Sys.start c n fun i => (calls i).serve (days i)) s) : Lifecycle calls c s := by
  have outcomes : ∀ e ∈ s.log, Outcomes (calls e.who) c e :=
    h.sound (L := fun _ => lasting) (fun _ _ he _ _ hs => ⟨(he.turns hs).summed, (he.turns hs).endures⟩)
      (fun _ _ _ _ => ⟨fun _ _ _ _ _ => trivial, fun _ _ _ _ => trivial, fun _ _ hf => hf.elim⟩)
      fun i d hd => (wp_serve_outcomes (hcalls i) (hd.guar hc).1 (hd.guar hc).2).mono
        fun r _ _ _ h => by cases r <;> exact h
  have hsummed := h.linked.before (P := Summed) hc fun e he hs => ((outcomes e he).turns hs).summed
  have turns (e) (he : e ∈ s.log) : Turns (calls e.who) e.before e.after := (outcomes e he).turns <| hsummed e he
  refine ⟨h.linked.preserves (P := Summed) hc fun e he _ => (turns e he).summed, ?_, fun e he => ?_,
    fun e he _ _ _ => (turns e he).ended, fun e he pk r b hcall hok hb hend => ?_⟩
  · exact h.linked.preserves (P := Endures c) .refl fun e he hs => hs.trans (turns e he).endures
  · exact h.linked.lasts (P := Endures e.after) (fun e' he' hs => hs.trans (turns e' he').endures) e he .refl
  · -- The bill has been live until one of the calls has ended it.
    have hlive := h.linked.before (P := fun d : Db => ∀ b, (d.table .bill).get pk = some b → b.status.terminal = false ∨
      ∃ e' ∈ s.log, Supersedes (calls e'.who) pk e'.before e'.after) ?start ?step e he b hb
    · exact hlive.resolve_left <| by simp [hend]
    case start =>
      intro b hb
      by_contra hboth
      simp only [not_or, Bool.not_eq_false] at hboth
      exact (outcomes e he).paid hcall hb hboth.1 hok
    case step =>
      intro e' he' hbefore b' hb'
      cases hend' : b'.status.terminal with
      | false => exact .inl rfl
      | true =>
        cases hwas : (e'.before.table .bill).get pk with
        | none => simp [(turns e' he').opened hwas hb'] at hend'
        | some b₀ =>
          rcases hbefore b₀ hwas with hlive | hsuper
          · exact .inr ⟨e', he', (turns e' he').ended hwas hb' hlive hend'⟩
          · exact .inr hsuper

end Runs

namespace Sample

theorem issued_summed : Summed issued.1 where
  totals := by
    have h : issued.1.Reachable fun _ _ => True := reachable_issued trivial
    exact h.tallied.totals
  valid  := issued_booked.valid

-- The bill is rolled over between the two times that the payment looks at it.
def overtaken : Bool → Request
  | true  => pay 1 15
  | false => .issueBill roll

def payingLate : Sys relational.schema Bool Unit :=
  (Sys.start issued.1 issued.2 fun i => (overtaken i).serve day).exec
    (true :: List.replicate 60 false ++ List.replicate 60 true)

end Sample

set_option maxRecDepth 20000 in
theorem sample_lifecycle : Lifecycle Sample.overtaken Sample.issued.1 Sample.payingLate ∧
    Sample.payingLate.log.map (·.result.toOption) = [some (), some ()] ∧
    ((Sample.payingLate.committed.table .bill).rows.map fun b =>
      (b.2.status, b.2.amountPaid.units, b.2.totalAmount.units)) = [(.superseded, 1500, 2000), (.issued, 0, 2000)] := by
  refine ⟨lifecycle_concurrently (fun i => ?_) Sample.issued_summed <| .exec .start _, by decide +kernel, by decide +kernel⟩
  cases i <;> trivial

namespace Sample

-- A line is edited meanwhile.
def editing : Bool → Request
  | true  => .putLine 1 1 10
  | false => .issueBill roll

def editingLate : Sys relational.schema Bool Unit :=
  (Sys.start issued.1 issued.2 fun i => (editing i).serve day).exec
    (List.replicate 6 true ++ List.replicate 60 false ++ List.replicate 60 true)

end Sample

set_option maxRecDepth 20000 in
-- A request that does not lock the bill brings it back to life, though it has been rolled over.
theorem not_endures_of_edited : Sample.editingLate.log.map (·.result.toOption) = [some (), some ()] ∧
    ¬∀ e ∈ Sample.editingLate.log, Endures e.before e.after := by
  refine ⟨by decide +kernel, fun h => ?_⟩
  have hlog : Sample.editingLate.log.head?.map (fun e => (((e.before.table .bill).get 1).map (·.status.terminal),
      ((e.after.table .bill).get 1).map (·.status.terminal))) = some (some true, some false) := by
    decide +kernel
  obtain ⟨e, he, hstatus⟩ := Option.map_eq_some_iff.mp hlog
  obtain ⟨hbefore, hafter⟩ := Prod.mk.inj hstatus
  obtain ⟨b, hb, hend⟩ := Option.map_eq_some_iff.mp hbefore
  obtain ⟨b', hb', hgo⟩ := (h e <| List.mem_of_head? he).bills hb
  rw [hb', Option.map_some, hgo.terminal hend] at hafter
  contradiction

end ACRev360
