import ACRev360.Theorems.Agreement

namespace ACRev360

open Relational Relational.Database

variable {s t u : Db} {b k council : ℕ} {today : Date} {bs bs' : ℕ → Prop}

section Closing

-- The debt cases of the bills `bs` have been closed, and the others are as they were.
def Shut (bs : ℕ → Prop) (s t : Db) : Prop :=
  ∀ ⦃k c'⦄, (t.table .debtCase).get k = some c' → ∃ c, (s.table .debtCase).get k = some c ∧
    c'.bill = c.bill ∧ (bs c.bill → c'.enforcementStage = .closed) ∧ (¬bs c.bill → c' = c)

-- A bill has at most one debt case.
abbrev Db.OneCase (s : Db) : Prop :=
  Unique (R := relational) .debtCase s

theorem Db.OneCase.eq (hs : s.OneCase) {i j : ℕ} {c c' : DebtCase}
    (hc : (s.table .debtCase).get i = some c) (hc' : (s.table .debtCase).get j = some c')
    (h : c.bill = c'.bill) : i = j :=
  hs (u := UniqueKey.debtCase c.bill) ⟨c, hc, .head _⟩ ⟨c', hc', h ▸ .head _⟩

namespace Shut

theorem of_eq (h : t.table .debtCase = s.table .debtCase) : Shut (fun _ => False) s t :=
  fun _ c' hc' => ⟨c', h ▸ hc', rfl, False.elim, fun _ => rfl⟩

theorem trans (h₁ : Shut bs s t) (h₂ : Shut bs' t u) : Shut (fun b => bs b ∨ bs' b) s u := by
  intro k c'' hc''
  have ⟨c', hc', hbill', hin', hout'⟩ := h₂ hc''
  have ⟨c, hc, hbill, hin, hout⟩ := h₁ hc'
  rw [hbill] at hbill' hin' hout'
  refine ⟨c, hc, hbill', fun h => ?_, fun h => ?_⟩
  · by_cases hb : bs' c.bill
    case pos => exact hin' hb
    case neg => exact hout' hb ▸ hin (h.resolve_right hb)
  · have ⟨hb, hb'⟩ := not_or.mp h
    exact (hout' hb').trans <| hout hb

theorem congr (h : Shut bs s t) (hb : ∀ b, bs b ↔ bs' b) : Shut bs' s t :=
  funext (fun b => propext (hb b)) ▸ h

theorem after (hs : u.table .debtCase = s.table .debtCase) (h : Shut bs u t) : Shut bs s t := by
  simpa only [Shut, hs] using h

theorem before (h : Shut bs s t) (hu : u.table .debtCase = t.table .debtCase) : Shut bs s u := by
  simpa only [Shut, hu] using h

theorem unique (h : Shut bs s t) (hs : s.OneCase) : Db.OneCase t := by
  have holds : ∀ {u k}, Holds t u .debtCase k → Holds s u .debtCase k := fun ⟨c', hc', hu⟩ => by
    have ⟨c, hc, hbill, _⟩ := h hc'
    refine ⟨c, hc, ?_⟩
    simpa only [uniqueKeys, hbill] using hu
  exact fun _ _ _ hj hk => hs (holds hj) (holds hk)

end Shut

theorem debtCaseOf_some {case : Loaded DebtCase} (h : s.debtCaseOf b = some case) :
    (s.table .debtCase).get case.id = some case.row ∧ case.row.bill = b := by
  have ⟨⟨i, c⟩, hfirst, hcase⟩ := Option.map_eq_some_iff.mp h
  have ⟨hget, hbill⟩ := Table.first_some hfirst
  exact hcase ▸ ⟨hget, by simpa using hbill⟩

theorem debtCaseOf_none {c : DebtCase} (h : s.debtCaseOf b = none)
    (hc : (s.table .debtCase).get k = some c) : c.bill ≠ b := by
  have := Table.first_none (Option.map_eq_none_iff.mp h) hc
  simpa using this

theorem post_closeDebtCaseForBill (hs : s.OneCase) :
    Prog.Post (closeDebtCaseForBill today b) s <| Prog.OnReturn fun _ t =>
      Shut (· = b) s t ∧ Database.Only [Name.debtCase] s t := by
  refine .both ?_ closeDebtCaseForBill_only.returns
  refine .bind <| post_select ?_
  cases hcase : s.debtCaseOf b with
  | none => exact .ret fun k c hc => ⟨c, hc, rfl, fun h => absurd h <| debtCaseOf_none hcase hc, fun _ => rfl⟩
  | some case =>
    have ⟨hget, hbill⟩ := debtCaseOf_some hcase
    have only : ∀ {k c}, (s.table .debtCase).get k = some c → c.bill = b → k = case.id ∧ c = case.row := by
      intro k c hc hb
      obtain rfl := hs.eq hc hget <| hb.trans hbill.symm
      exact ⟨rfl, by simpa [hget] using hc.symm⟩
    simp only
    split
    case isTrue =>
      refine post_save (fun _ _ k c' hc' => ?_) fun _ => trivial
      rw [modify_table, Table.get_modify] at hc'
      split at hc'
      case isTrue hk =>
        rw [hget, Option.map_some, Option.some.injEq] at hc'
        subst hk hc'
        exact ⟨case.row, hget, rfl, fun _ => rfl, fun h => absurd hbill h⟩
      case isFalse hk => exact ⟨c', hc', rfl, fun h => absurd (only hc' h).1 hk, fun _ => rfl⟩
    case isFalse hclosed =>
      refine .ret fun k c hc => ⟨c, hc, rfl, fun h => ?_, fun _ => rfl⟩
      rw [(only hc h).2]
      exact not_not.mp hclosed

theorem post_rollBill_shut {acc : List Arrears} {prior : Loaded Bill} (hs : s.OneCase) :
    Prog.Post (rollBill today b acc prior) s <| Prog.OnReturn fun _ t => Shut (· = prior.id) s t := by
  refine .bind <| post_save (fun _ _ => ?_) fun _ => trivial
  have hsame : (s.modify .bill prior.id (supersede b)).table .debtCase = s.table .debtCase :=
    modify_table_ne (by decide)
  refine .seq (post_closeDebtCaseForBill <| hs.congr hsame) fun _ t ⟨ht, _⟩ => .bind <| post_select ?_
  refine .imp (Prog.Keeps.foldlM (P := Eq) fun _ _ => rollLine_keeps).returns fun _ u hu => ?_
  exact hu ▸ ht.after hsame

theorem post_rollBills_shut {bills : List (Loaded Bill)} (hs : s.OneCase) :
    Prog.Post (bills.foldlM (rollBill today b) []) s <| Prog.OnReturn fun _ t =>
      Shut (· ∈ bills.map Loaded.id) s t := by
  let I (_ : List Arrears) (rest : List (Loaded Bill)) (t : Db) :=
    ∃ past, past ++ rest = bills ∧ Shut (· ∈ past.map Loaded.id) s t
  refine .imp (Prog.Post.foldlM (S := relational.schema) (I := I) (fun h => ?step) ?start)
    fun _ t ⟨past, hpast, ht⟩ => by rwa [← hpast, List.append_nil]
  case start => exact ⟨[], rfl, (Shut.of_eq rfl).congr (by simp)⟩
  case step =>
    obtain ⟨past, hpast, ht⟩ := h
    refine .imp (post_rollBill_shut <| ht.unique hs) fun _ u hu => ?_
    exact ⟨past ++ [_], by rw [← hpast, List.append_assoc]; rfl, (ht.trans hu).congr (by simp)⟩

theorem post_rollArrears_shut {payer : ℕ} {fresh : List FreshLine} (hs : s.OneCase) :
    Prog.Post (rollArrears today payer b fresh) s <| Prog.OnReturn fun _ t =>
      Shut (· ∈ openBills s payer b) s t := by
  refine .bind <| post_select <| .seq post_lockOpenBills fun bills s₁ ⟨hs₁, hbills⟩ => ?_
  subst hs₁
  refine .seq (post_rollBills_shut hs) fun arrears s₂ h₂ => ?_
  have place : (arrears.foldlM (placeArrears b fresh) fresh.length).Keeps (Database.Only [Name.line]) :=
    .foldlM fun _ _ => placeArrears_keeps (P := Database.Only [Name.line])
      (fun _ => only_insert <| .head _) fun _ _ => only_modify <| .head _
  refine .seq place.returns fun _ s₃ ho => .ret ?_
  exact hbills ▸ h₂.before (ho .debtCase (by simp))

theorem post_writeBill_shut {r : IssueRequest} {assessments : List AssessmentObject} {dueDate : Date}
    (hs : s.OneCase) : Prog.Post (writeBill today r assessments dueDate) s <| Prog.OnReturn fun out t =>
      Shut (· ∈ r.rolled s out.1) s t := by
  refine .bind <| post_create (fun bill hbill => ?_) fun _ => trivial
  obtain ⟨hr, _, _⟩ := conflicts_false hbill
  refine .seq (post_createFreshLines fun items => ⟨.nil, by simp⟩) fun fresh s₂ hpost => ?_
  obtain ⟨_, _, _, ho₂⟩ := hpost
  have hcase : s₂.table .debtCase = s.table .debtCase :=
    (ho₂ .debtCase (by simp)).trans <| insert_table_ne (by decide)
  have hopen : openBills s₂ r.payer.id bill = openBills s r.payer.id bill := by
    rw [openBills, ho₂ .bill (by simp)]
    exact openBills_insert hr
  have roll : Prog.Post (if r.rollArrears then rollArrears today r.payer.id bill fresh
      else pure 0 : Service ℕ) s₂ <| Prog.OnReturn fun _ t => Shut (· ∈ r.rolled s bill) s₂ t := by
    unfold IssueRequest.rolled
    split
    · exact hopen ▸ post_rollArrears_shut <| Unique.congr hs hcase
    · exact .ret <| (Shut.of_eq rfl).congr (by simp)
  refine .seq roll fun count s₃ h₃ => .seq post_finalizeBill fun _ t h₄ => .ret ?_
  obtain ⟨_, _, _, _, _, _, _, _, ho₄⟩ := h₄
  exact (h₃.after hcase).before (ho₄ .debtCase (by simp))

-- The cases of the bills that a bill supersedes are closed.
theorem post_issueBill_shut {r : IssueRequest} (hs : s.OneCase) :
    Prog.Post (issueBill today r) s <| Prog.OnReturn fun out t => Shut (· ∈ r.rolled s out.1) s t := by
  refine .bind <| post_getForUpdate (fun _ _ => ?_) fun _ => trivial
  have rest : Prog.Post (do
      let assessments ← mergedAssessments r
      if assessments.isEmpty && !r.rollArrears then refuse .emptyBill
      let dueDate ← dueDateOf today r
      writeBill today r assessments dueDate) s (Prog.OnReturn fun out t =>
        Shut (· ∈ r.rolled s out.1) s t) := by
    refine .seq (mergedAssessments_keeps id).returns fun assessments s₁ h₁ => ?_
    refine post_guard (fun _ => trivial) fun _ => ?_
    refine .seq (dueDateOf_keeps (P := Eq)).returns fun dueDate s₂ h₂ => ?_
    subst h₂
    have hcase : s₁.table .debtCase = s.table .debtCase := h₁ .debtCase (by simp)
    refine .imp (post_writeBill_shut <| Unique.congr hs hcase) fun out t ht => ?_
    have hrolled : r.rolled s₁ out.1 = r.rolled s out.1 := by
      simp only [IssueRequest.rolled, openBills, h₁ .bill (by simp)]
    exact (hrolled ▸ ht).after hcase
  refine post_unless (fun _ => rest) fun _ => ?_
  refine .seq (checkDuplicate_keeps (P := Eq)).returns fun _ s₁ h₁ => ?_
  exact h₁ ▸ rest

-- The bill is paid.
def Db.PaidOff (s : Db) (b : ℕ) : Prop :=
  ∃ r, (s.table .bill).get b = some r ∧ r.status = .paid

-- A payment that pays the bill off closes its case.
theorem post_postPayment_shut {bill : Loaded Bill} {r : PaymentRequest} (hs : s.OneCase) :
    Prog.Post (postPayment today bill r) s <| Prog.OnReturn fun _ t =>
      Shut (fun b => b = bill.id ∧ Db.PaidOff t b) s t := by
  refine post_guard (fun _ => trivial) fun _ => post_guard (fun _ => trivial) fun _ => ?_
  refine .bind <| post_getForUpdate (fun row hrow => ?_) fun _ => trivial
  refine .seq post_createPayment_row fun payment s₁ ⟨_, _, _, ho₁⟩ => ?_
  refine .seq (allocateFifo_keeps id).returns fun ⟨applied, leftover⟩ s₂ ho₂ => ?_
  refine .bind <| post_store (fun x _ => .bind ?_) fun _ => trivial
  refine post_save (fun _ _ => ?_) fun _ => trivial
  refine .seq post_recomputeBill fun status s₃ ⟨_, total, arrears, _, _, hs₃⟩ => ?_
  have hcase : s₃.table .debtCase = s.table .debtCase := by
    rw [hs₃, modify_table_ne (by decide), modify_table_ne (by decide), ho₂ .debtCase (by simp),
      ho₁ .debtCase (by simp)]
  have hstatus : ((s₃.table .bill).get bill.id).map (·.status) = some status := by
    rw [hs₃, modify_table, Table.get_modify, if_pos rfl, modify_table, Table.get_modify, if_pos rfl,
      ho₂ .bill (by simp), ho₁ .bill (by simp), hrow]
    rfl
  have rest : ∀ {u}, Database.Only [Name.payer] s₃ u → Prog.Post (do
      createReceipt r.council payment
      if status = BillStatus.paid then closeDebtCaseForBill today bill.id
      return payment : Service ℕ) u (Prog.OnReturn fun _ t =>
        Shut (fun b => b = bill.id ∧ Db.PaidOff t b) s t) := by
    intro u hu
    refine .seq (createReceipt_keeps id).returns fun _ s₄ ho₄ => ?_
    have ho : Database.Only [Name.payer, Name.receipt] s₃ s₄ :=
      IsTrans.trans _ _ _ (hu.mono <| by simp) (ho₄.mono <| by simp)
    have hcase₄ : s₄.table .debtCase = s.table .debtCase := (ho .debtCase (by simp)).trans hcase
    have hpaid : ∀ t : Db, t.table .bill = s₄.table .bill → (t.PaidOff bill.id ↔ status = .paid) := by
      intro t ht
      rw [← ho .bill (by simp), ← ht] at hstatus
      have ⟨r', hr', he⟩ := Option.map_eq_some_iff.mp hstatus
      simp [Db.PaidOff, hr', he]
    refine post_when (fun hp => ?paid) fun hp => .ret ?unpaid
    case paid =>
      refine .seq (post_closeDebtCaseForBill <| Unique.congr hs hcase₄) fun _ t ⟨ht, ho'⟩ => .ret ?_
      change Shut (fun b => b = bill.id ∧ Db.PaidOff t b) s t
      refine (ht.after hcase₄).congr fun b => ?_
      have := (hpaid t (ho' .bill (by simp))).mpr hp
      exact ⟨fun h => ⟨h, h ▸ this⟩, And.left⟩
    case unpaid =>
      change Shut (fun b => b = bill.id ∧ Db.PaidOff s₄ b) s s₄
      refine (Shut.of_eq hcase₄).congr fun b => ?_
      exact ⟨False.elim, fun ⟨he, h⟩ => hp <| (hpaid s₄ rfl).mp <| he ▸ h⟩
  refine post_when (fun _ => ?_) fun _ => rest <| Std.Refl.refl _
  exact .seq (addCredit_keeps id).returns fun _ _ hu => rest hu

end Closing

section Editing

-- What a charge makes the lines of a bill come to more.
def Db.chargeOf (s : Db) (bill : ℕ) (e : LineEntry) : ℤ :=
  let price := (priceOf s e).getD 0
  match matchingLine s bill e.item.id (e.rateBand.map (·.id)) (e.rateTier.map (·.id)) with
  | none      => cents price
  | some line =>
    let assessed := (((s.table .assessment).get line.row.assessment).map (·.amount.toRat)).getD 0
    cents (Decimal.round (Decimal.round (assessed + price) + line.row.arrearsAmount.toRat)) -
      line.row.lineAmount.units

def Db.lineAmountOf (s : Db) (line : ℕ) : ℤ :=
  (((s.table .line).get line).map (·.lineAmount.units)).getD 0

namespace Request

-- The requests that change what a bill comes to or what it has been paid, and leave its case alone.
def Edits : Request → Prop
  | issueBill _ | postPayment _ _ => False
  | _ => True

-- What the lines of the bill come to with the edit.
def comesTo (s : Db) (b : ℕ) : Request → ℤ
  | addLine _ _ e         => s.lineTotal b + s.chargeOf b e
  | putLine _ line amount => s.lineTotal b + (cents amount - s.lineAmountOf line)
  | deleteLine _ line     => s.lineTotal b - s.lineAmountOf line
  | _                     => s.lineTotal b

-- The bill is paid with the edit, or with the payment.
def PaysOff (s : Db) (b : ℕ) (bill : Bill) (r : Request) : Prop :=
  kobo (r.comesTo s b) ≤ r.paidOn s bill ∧ 0 < r.comesTo s b

end Request

theorem chargeOf_eq {bill : ℕ} {e : LineEntry} (hs : Assessed s)
    (h : (∃ (line : Loaded BillLine) (current amount : Money),
        (s.table .line).get line.id = some line.row ∧ line.row.bill = bill ∧
        (Assessed s → Merged s bill e line amount.units) ∧
        t.table .line = (s.table .line).modify line.id
          fun l => { l with currentAmount := current, lineAmount := amount }) ∨
      ∃ k l, (s.table .line).get k = none ∧ Added s bill e l ∧
        (Assessed s → matchingLine s bill e.item.id (e.rateBand.map (·.id)) (e.rateTier.map (·.id)) = none) ∧
        t.table .line = (s.table .line).insert k l) :
    Db.lineTotal t bill = s.lineTotal bill + s.chargeOf bill e := by
  rcases h with ⟨line, current, amount, hline, hbill, hmerged, hlines⟩ | ⟨k, l, hk, hadded, hnone, hlines⟩
  case inl =>
    obtain ⟨hfound, a, p, ha, hp, hamount⟩ := hmerged hs
    rw [Db.lineTotal, hlines, Table.sum_modify hline, if_pos hbill, if_pos hbill, Db.chargeOf, hfound]
    simp only [ha, hp, Option.map_some, Option.getD_some, hamount, Db.lineTotal]
  case inr =>
    obtain ⟨p, hp, hcents⟩ := hadded.comes
    rw [Db.lineTotal, hlines, Table.sum_insert hk, if_pos hadded.bill, hcents, Db.chargeOf, hnone hs, hp,
      add_comm, Db.lineTotal]
    rfl

theorem post_serve_edits {r : Request} (hs : Tallied s) (hr : r.Edits) :
    Prog.Post (r.serve today) s <| Prog.OnReturn fun _ t => t.table .debtCase = s.table .debtCase ∧
      ∀ {b}, r.billOf s = some b → Db.lineTotal t b = r.comesTo s b := by
  have reline : ∀ {b t}, Relined today b s t → t.table .debtCase = s.table .debtCase :=
    fun ht => ht.only .debtCase (by simp)
  cases r with
  | issueBill | postPayment => contradiction
  | addLine pk actor e =>
    refine .seq (.bind <| post_getObject (fun bill hbill _ => ?_) fun _ => trivial) fun _ _ ht => .ret ht
    refine .imp (post_addBillLine hbill) fun _ t hpost => ?_
    obtain ⟨ht, hcases⟩ := hpost
    refine ⟨reline ht, fun hb => ?_⟩
    cases hb
    exact chargeOf_eq hs.assessed hcases
  | putLine pk lineId lineAmount =>
    refine .bind <| post_getObject (fun bill hbill _ => .bind ?_) fun _ => trivial
    refine post_getObject (fun line hline hpk => ?_) fun _ => trivial
    refine .imp (post_updateBillLine hline) fun _ t hpost => ?_
    obtain ⟨ht, _, amount, hamount, hlines⟩ := hpost
    refine ⟨reline ht, fun hb => ?_⟩
    cases hb
    have hpk : line.bill = pk := by simpa using hpk
    rw [Db.lineTotal, hlines, Table.sum_modify hline, if_pos hpk, if_pos hpk, hamount, Request.comesTo,
      Db.lineAmountOf, hline]
    rfl
  | deleteLine pk lineId =>
    refine .bind <| post_getObject (fun bill hbill _ => .bind ?_) fun _ => trivial
    refine post_getObject (fun line hline hpk => .bind ?_) fun _ => trivial
    refine post_select <| post_guard (fun _ => trivial) fun _ => ?_
    refine .imp (post_deleteBillLine hline) fun _ t hpost => ?_
    obtain ⟨ht, hlines, _⟩ := hpost
    refine ⟨reline ht, fun hb => ?_⟩
    cases hb
    have hpk : line.bill = pk := by simpa using hpk
    rw [Db.lineTotal, hlines, Request.comesTo, Db.lineAmountOf, hline, Db.lineTotal,
      Table.sum_eq_erase hline, if_pos hpk]
    simp
  | reverse pk =>
    refine .bind <| post_getObject (fun q hq _ => ?_) fun _ => trivial
    refine .imp (post_reversePayment_reckoned hq) fun _ t ht => ⟨ht.only .debtCase (by simp), fun hb => ?_⟩
    rw [Db.lineTotal_congr (ht.only .line (by simp))]
    rfl

end Editing

section Ageing

-- The bills `bills` of `s` have been aged: they are overdue and have a case, with the bucket of their
-- days overdue unless it is closed.
structure Renewed (today : Date) (bills : List (Loaded Bill)) (s t : Db) : Prop where
  bill   : ∀ k, (t.table .bill).get k = ((s.table .bill).get k).map fun r =>
    if k ∈ bills.map Loaded.id then { r with status := .overdue } else r
  case   : ∀ x ∈ bills, ∃ k c, (t.table .debtCase).get k = some c ∧ c.bill = x.id ∧
    (c.enforcementStage ≠ .closed → c.ageingBucket = bucketFor (today - x.row.dueDate))
  others : ∀ k c, c.bill ∉ bills.map Loaded.id →
    ((t.table .debtCase).get k = some c ↔ (s.table .debtCase).get k = some c)
  closed : ∀ k c, c.enforcementStage = .closed →
    ((t.table .debtCase).get k = some c ↔ (s.table .debtCase).get k = some c)
  one    : Db.OneCase t
  only   : Database.Only [Name.bill, Name.debtCase] s t

namespace Renewed

variable {bills : List (Loaded Bill)} {x : Loaded Bill}

theorem nil (hs : s.OneCase) : Renewed today [] s s where
  bill k   := by simp
  case     := by simp
  others _ _ _ := .rfl
  closed _ _ _ := .rfl
  one      := hs
  only     := Std.Refl.refl _

theorem append (h : Renewed today bills s t) (hx : x.id ∉ bills.map Loaded.id)
    (h' : Renewed today [x] t u) : Renewed today (bills ++ [x]) s u where
  bill k := by
    rw [h'.bill, h.bill]
    cases (s.table .bill).get k with
    | none => rfl
    | some r => by_cases hk : k = x.id <;> simp [hk, hx]
  case y hy := by
    rcases List.mem_append.mp hy with hy | hy
    · have ⟨k, c, hc, hbill, hbucket⟩ := h.case y hy
      have hne : c.bill ∉ [x].map Loaded.id := by
        rw [List.map_singleton, List.mem_singleton, hbill]
        exact fun he => hx <| he ▸ List.mem_map_of_mem hy
      exact ⟨k, c, (h'.others k c hne).mpr hc, hbill, hbucket⟩
    · exact List.mem_singleton.mp hy ▸ h'.case x (.head _)
  others k c hc := by
    rw [List.map_append, List.mem_append, not_or] at hc
    exact (h'.others k c hc.2).trans (h.others k c hc.1)
  closed k c hc := (h'.closed k c hc).trans (h.closed k c hc)
  one           := h'.one
  only          := IsTrans.trans _ _ _ h.only h'.only

end Renewed

-- The bill is overdue in `u`, and `t` has its case.
theorem Renewed.of_case {x : Loaded Bill} (hu : Database.Only [Name.bill] s u)
    (hbill : ∀ k, (u.table .bill).get k = ((s.table .bill).get k).map fun r =>
      if k ∈ [x].map Loaded.id then { r with status := .overdue } else r)
    (ht : Database.Only [Name.debtCase] u t) (hone : Db.OneCase t) {c : DebtCase}
    (hc : (t.table .debtCase).get k = some c) (hb : c.bill = x.id)
    (hbucket : c.enforcementStage ≠ .closed → c.ageingBucket = bucketFor (today - x.row.dueDate))
    (hother : ∀ i c', c'.bill ≠ x.id ∨ c'.enforcementStage = .closed →
      ((t.table .debtCase).get i = some c' ↔ (s.table .debtCase).get i = some c')) :
    Renewed today [x] s t where
  bill i := ht .bill (by simp) ▸ hbill i
  case y hy := ⟨k, c, hc, by rw [List.mem_singleton.mp hy]; exact ⟨hb, hbucket⟩⟩
  others i c' hc' := hother i c' <| .inl <| by simpa using hc'
  closed i c' hc' := hother i c' <| .inr hc'
  one := hone
  only := IsTrans.trans _ _ _ (hu.mono <| by simp) (ht.mono <| by simp)

theorem post_ageBill {x : Loaded Bill} {n : ℕ × ℕ} (hs : s.OneCase)
    (hx : (s.table .bill).get x.id = some x.row) :
    Prog.Post (ageBill council today n x) s <| Prog.OnReturn fun _ t => Renewed today [x] s t := by
  refine post_when_seq (R := fun u => Database.Only [Name.bill] s u ∧ ∀ k, (u.table .bill).get k =
      ((s.table .bill).get k).map fun r => if k ∈ [x].map Loaded.id then { r with status := .overdue } else r)
    (fun _ => post_save (fun _ _ => ⟨only_modify <| .head _, fun k => ?marked⟩) fun _ => trivial)
    (fun hstatus => ⟨Std.Refl.refl _, fun k => ?overdue⟩) fun u hpost => ?aged
  case marked =>
    rw [modify_table, Table.get_modify]
    split
    case isTrue hk => simp [hk]
    case isFalse hk => simp [hk]
  case overdue =>
    by_cases hk : k = x.id
    case neg => simp [hk]
    case pos =>
      have : ({ x.row with status := .overdue } : Bill) = x.row := by rw [← not_not.mp hstatus]
      simp [hk, hx, this]
  case aged =>
    obtain ⟨hu, hbill⟩ := hpost
    have hcase : u.table .debtCase = s.table .debtCase := hu .debtCase (by simp)
    have hone : Db.OneCase u := Unique.congr hs hcase
    refine .bind <| post_select ?_
    cases hfind : Db.debtCaseOf u x.id with
    | none =>
      refine .bind <| post_create (fun k hk => .ret ?_) fun _ => trivial
      obtain ⟨hr, hnone, _⟩ := conflicts_false hk
      refine .of_case hu hbill (only_insert <| .head _) (hone.insert hk) (k := k)
        (c := ⟨council, x.id, bucketFor (today - x.row.dueDate), .firstNotice, 0, none⟩)
        ?_ rfl (fun _ => rfl) fun i c' hc' => ?_
      · rw [insert_table hr, Table.get_insert_self hnone]
      · rw [insert_table hr, hcase, Table.get_insert]
        split
        case isFalse => rfl
        case isTrue hi =>
          rw [hcase] at hnone
          rw [hi, hnone, Option.getD_none, Option.some.injEq]
          refine iff_of_false (fun he => ?_) (by simp)
          subst he
          simp at hc'
    | some case =>
      obtain ⟨hget, hb⟩ := debtCaseOf_some hfind
      simp only
      split
      case isTrue hstale =>
        obtain ⟨_, hopen⟩ := Bool.and_eq_true_iff.mp hstale
        have hopen : case.row.enforcementStage ≠ .closed := by simpa using hopen
        refine .bind <| post_save (fun _ _ => .ret ?_) fun _ => trivial
        refine .of_case hu hbill (only_modify <| .head _) (hone.modify ⟨fun _ => rfl, fun _ => rfl⟩)
          (k := case.id) (c := { case.row with ageingBucket := bucketFor (today - x.row.dueDate) })
          ?_ hb (fun _ => rfl) fun i c' hc' => ?_
        · rw [modify_table, Table.get_modify, if_pos rfl, hget]
          rfl
        · rw [modify_table, Table.get_modify, ← hcase]
          split
          case isFalse => rfl
          case isTrue hi =>
            rw [hi, hget, Option.map_some, Option.some.injEq, Option.some.injEq]
            constructor <;> rintro rfl <;> simp_all
      case isFalse hfresh =>
        refine .ret <| .of_case hu hbill (Std.Refl.refl _) hone hget hb (fun hopen => ?_) fun i c' _ => ?_
        · simpa [hopen] using hfresh
        · rw [hcase]

theorem mem_overdueBills {x : Loaded Bill} : x ∈ overdueBills s council today ↔
    (s.table .bill).get x.id = some x.row ∧ x.row.council = council ∧ x.row.status.isOpen ∧
      x.row.dueDate < today := by
  have : ∀ y : ℕ × Bill, (⟨y.1, y.2⟩ : Loaded Bill) = x ↔ y = (x.id, x.row) := by
    rintro ⟨k, r⟩
    cases x
    simp
  simp [overdueBills, this, Table.mem_filter_iff, and_assoc]

theorem post_refreshDebt (hs : s.OneCase) :
    Prog.Post (refreshDebt council today) s <| Prog.OnReturn fun _ t =>
      Renewed today (overdueBills s council today) s t := by
  have hnodup : ((overdueBills s council today).map Loaded.id).Nodup := by
    rw [overdueBills, List.map_map]
    have hsorted := (s.table .bill).sorted.sublist (List.filter_sublist (p := fun r =>
      r.2.council = council && r.2.status.isOpen && r.2.dueDate < today))
    exact List.pairwise_map.mpr <| hsorted.imp fun h => h.ne
  let I (_ : ℕ × ℕ) (rest : List (Loaded Bill)) (t : Db) :=
    ∃ past, past ++ rest = overdueBills s council today ∧ Renewed today past s t
  refine .bind <| post_select <| .imp (Prog.Post.foldlM (S := relational.schema) (I := I)
    (fun {_ x rest t} h => ?step) ⟨[], rfl, .nil hs⟩) fun _ t ⟨past, hpast, ht⟩ => ?done
  case step =>
    obtain ⟨past, hpast, ht⟩ := h
    rw [← hpast, List.map_append, List.map_cons] at hnodup
    have hx : x.id ∉ past.map Loaded.id := fun hmem =>
      List.disjoint_of_nodup_append hnodup hmem <| .head _
    have hget := (mem_overdueBills.mp <| hpast ▸ List.mem_append_right past (.head rest)).1
    have hget' : (t.table .bill).get x.id = some x.row := by rw [ht.bill, hget, Option.map_some, if_neg hx]
    refine .imp (post_ageBill ht.one hget') fun _ u hu => ⟨past ++ [x], ?_, ht.append hx hu⟩
    rw [← hpast, List.append_assoc]
    rfl
  case done => rwa [← hpast, List.append_nil]

end Ageing

-- The cases of the bills that are paid or superseded are closed.
def CasesClosed (s : Db) : Prop :=
  ∀ ⦃k c r⦄, (s.table .debtCase).get k = some c → (s.table .bill).get c.bill = some r →
    r.status = .paid ∨ r.status = .superseded → c.enforcementStage = .closed

-- The bills of the council that are due are overdue, and have a case with the bucket of their days
-- overdue that is not closed unless it has been `escalated`.
def Aged (today : Date) (council : ℕ) (escalated : ℕ → Prop) (s : Db) : Prop :=
  ∀ ⦃b r⦄, (s.table .bill).get b = some r → r.council = council → r.status.isOpen → r.dueDate < today →
    r.status = .overdue ∧ ∃ k c, (s.table .debtCase).get k = some c ∧ c.bill = b ∧
      c.ageingBucket = bucketFor (today - r.dueDate) ∧ (c.enforcementStage = .closed → escalated k)

-- An edit leaves a bill with the case that it is to have: a closed one if the bill is paid with it, and
-- if it no longer is, one that is not closed unless it has been `escalated`.
def Request.Mirrors (escalated : ℕ → Prop) (s : Db) (r : Request) : Prop :=
  r.Edits → ∀ ⦃k c bill⦄, (s.table .debtCase).get k = some c → r.billOf s = some c.bill →
    (s.table .bill).get c.bill = some bill → bill.status.terminal = false →
      (r.PaysOff s c.bill bill → c.enforcementStage = .closed) ∧
      (bill.status = .paid → ¬r.PaysOff s c.bill bill → c.enforcementStage = .closed → escalated k)

theorem Money.fits {x : Money} (h : 0 ≤ x.units) : Decimal.Fits x.toRat := by
  have ⟨m, hm⟩ := Int.eq_ofNat_of_zero_le h
  have hbound := x.bound
  refine ⟨2, m, le_rfl, ?_, by rw [Numeric.toRat, hm]; rfl⟩
  rw [Decimal.precision]
  omega

theorem BillStatus.isOpen_of_live {st : BillStatus} (h : st.terminal = false) (hp : st ≠ .paid) :
    st.isOpen := by
  cases st <;> simp_all [isOpen, terminal]

namespace Reckoned

variable {paid : ℚ} {r r' : Bill}

theorem get_eq (h : Reckoned today b paid s t) (hr : (s.table .bill).get b = some r)
    (hr' : (t.table .bill).get b = some r') :
    r'.status = statusOf today r.status paid (kobo (t.lineTotal b)) r.dueDate ∧
      r'.totalAmount.units = t.lineTotal b ∧ r'.amountPaid.units = cents paid := by
  have ⟨r₀, x, total, arrears, hr₀, hx, htotal, _, hget⟩ := h.row
  rw [hr, Option.some.injEq] at hr₀
  rw [hr', Option.some.injEq] at hget
  subst hr₀ hget
  exact ⟨rfl, htotal, hx⟩

theorem terminal_eq (h : Reckoned today b paid s t) (hr : (s.table .bill).get b = some r)
    (hr' : (t.table .bill).get b = some r') : r'.status.terminal = r.status.terminal := by
  rw [(h.get_eq hr hr').1, statusOf_terminal]

theorem status_eq (h : Reckoned today b paid s t) (hr : (s.table .bill).get b = some r)
    (hr' : (t.table .bill).get b = some r') (hterminal : r.status.terminal) : r'.status = r.status := by
  rw [(h.get_eq hr hr').1, statusOf, if_pos hterminal]

theorem paid_iff (h : Reckoned today b paid s t) (hr : (s.table .bill).get b = some r)
    (hr' : (t.table .bill).get b = some r') (hlive : r.status.terminal = false) :
    r'.status = .paid ↔ kobo (t.lineTotal b) ≤ paid ∧ 0 < t.lineTotal b := by
  rw [(h.get_eq hr hr').1, statusOf, if_neg (by simp [hlive]), ← kobo_pos_iff]
  split
  · simp_all
  · repeat' split
    all_goals simp_all

theorem isPaid (h : Reckoned today b paid s t) (hr : (s.table .bill).get b = some r)
    (hr' : (t.table .bill).get b = some r') (hp : r'.status = .paid) : r'.isPaid := by
  have hlive : r.status.terminal = false := by rw [← h.terminal_eq hr hr', hp]; rfl
  have ⟨_, htotal, hpaid⟩ := h.get_eq hr hr'
  have ⟨hle, hpos⟩ := (h.paid_iff hr hr' hlive).mp hp
  have := cents_le (kobo_pos hpos).le hle
  rw [cents_kobo] at this
  rw [Bill.isPaid, htotal, hpaid]
  exact ⟨this, hpos⟩

-- What is paid in addition keeps a paid bill paid.
theorem stays_paid {amount : ℚ} (hs : Totals s) (hr : (s.table .bill).get b = some r)
    (hr' : (t.table .bill).get b = some r')
    (h : Reckoned today b (Decimal.round (r.amountPaid.toRat + s.applied b amount)) s t)
    (htotal : t.lineTotal b = s.lineTotal b) (hlive : r.status.terminal = false) (hpaid : r.isPaid) :
    r'.status = .paid := by
  have ⟨hle, hpos⟩ := hpaid
  have hfits := Money.fits hpos.le
  rw [(hs hr).1, ← htotal] at hpos
  refine (h.paid_iff hr hr' hlive).mpr ⟨?_, hpos⟩
  rw [htotal, ← (hs hr).1, ← Money.toRat_eq_kobo, ← hfits.round_eq]
  refine Decimal.round_mono hfits.nonneg ?_
  have happlied : 0 ≤ (fifo (s.outstandings b) amount 0).1 := fifo_nonneg le_rfl
  have := Numeric.toRat_le_iff.mpr hle
  rw [Db.applied]
  linarith

end Reckoned

-- The bills that are paid have been paid what they come to.
def PaidUp (s : Db) : Prop :=
  ∀ ⦃b r⦄, (s.table .bill).get b = some r → r.status = .paid → r.isPaid

theorem PaidUp.issued {r : IssueRequest} {rolled : List ℕ} (h : PaidUp s) (hi : Issued r b rolled s t) :
    PaidUp t := by
  intro k x hx hpaid
  by_cases hk : k = b
  case pos => exact absurd hpaid <| hi.unpaid <| hk ▸ hx
  case neg =>
    rw [hi.others k hk] at hx
    have ⟨x₀, hx₀, he⟩ := Option.map_eq_some_iff.mp hx
    split at he
    case isTrue => simp [← he, supersede] at hpaid
    case isFalse => exact h (he ▸ hx₀) hpaid

theorem PaidUp.reckoned {paid : ℚ} {r : Bill} (h : PaidUp s) (hr : (s.table .bill).get b = some r)
    (ht : Reckoned today b paid s t) : PaidUp t := by
  intro k x hx hpaid
  by_cases hk : k = b
  case pos =>
    subst hk
    exact ht.isPaid hr hx hpaid
  case neg => exact h (ht.others k hk ▸ hx) hpaid

-- What carries the two from one request to the next.
structure Mirrored (escalated : ℕ → Prop) (s : Db) : Prop where
  tallied : Tallied s
  one     : s.OneCase
  bill    : ∀ {k c}, (s.table .debtCase).get k = some c → ∃ r, (s.table .bill).get c.bill = some r
  paid    : PaidUp s
  settled : CasesClosed s
  reopens : ∀ {k c r}, (s.table .debtCase).get k = some c → (s.table .bill).get c.bill = some r →
    r.status.isOpen → c.enforcementStage = .closed → escalated k

namespace Mirrored

variable {escalated escalated' : ℕ → Prop}

theorem mono (h : Mirrored escalated s) (he : ∀ k, escalated k → escalated' k) : Mirrored escalated' s :=
  { h with reopens := fun hc hr hopen hclosed => he _ <| h.reopens hc hr hopen hclosed }

-- The references are there in every state that is committed.
theorem of_valid (hv : Database.valid t) (ht : Totals t) (hone : t.OneCase)
    (hpaid : PaidUp t)
    (hcase : ∀ {k c r}, (t.table .debtCase).get k = some c → (t.table .bill).get c.bill = some r →
      (r.status = .paid ∨ r.status = .superseded → c.enforcementStage = .closed) ∧
      (r.status.isOpen → c.enforcementStage = .closed → escalated k)) : Mirrored escalated t where
  tallied := ht.tallied hv
  one     := hone
  bill hc := valid_ref hv hc (.head _)
  paid    := hpaid
  settled _ _ _ hc hr := (hcase hc hr).1
  reopens hc hr       := (hcase hc hr).2

theorem issueBill {r : IssueRequest} (h : Mirrored escalated s) (hv : Database.valid t)
    (hi : Issued r b (r.rolled s b) s t) (hshut : Shut (· ∈ r.rolled s b) s t) : Mirrored escalated t := by
  refine .of_valid hv (hi.totals h.tallied.totals) (hshut.unique h.one) (h.paid.issued hi)
    fun {k c' x} hc' hx => ?_
  have ⟨c, hc, hbill, hin, hout⟩ := hshut hc'
  have ⟨x₀, hx₀⟩ := h.bill hc
  have hne : c.bill ≠ b := fun he => by simp [he, hi.absent] at hx₀
  rw [hbill, hi.others _ hne, hx₀, Option.map_some, Option.some.injEq] at hx
  by_cases hmem : c.bill ∈ r.rolled s b
  case pos =>
    rw [if_pos hmem] at hx
    refine ⟨fun _ => hin hmem, fun hopen => ?_⟩
    simp [← hx, supersede, BillStatus.isOpen] at hopen
  case neg =>
    rw [if_neg hmem] at hx
    rw [hout hmem]
    exact hx ▸ ⟨h.settled hc hx₀, h.reopens hc hx₀⟩

variable {paid : ℚ} {bill : Bill}

theorem reckoned (h : Mirrored escalated s) (hv : Database.valid t) (hl : LinesOff b s t)
    (hbill : (s.table .bill).get b = some bill) (ht : Reckoned today b paid s t) (hshut : Shut bs s t)
    (hbs : ∀ k, bs k → k = b)
    (hcase : ∀ {k c r'}, (s.table .debtCase).get k = some c → c.bill = b →
      (t.table .bill).get b = some r' → bill.status.terminal = false →
        (r'.status = .paid → bs b ∨ c.enforcementStage = .closed) ∧
        (r'.status ≠ .paid → ¬bs b ∧ (c.enforcementStage = .closed → escalated k))) :
    Mirrored escalated t := by
  refine .of_valid hv (ht.totals hl h.tallied.totals) (hshut.unique h.one) (h.paid.reckoned hbill ht)
    fun {k c' x} hc' hx => ?_
  obtain ⟨c, hc, hb, hin, hout⟩ := hshut hc'
  rw [hb] at hx
  by_cases hk : c.bill = b
  case neg =>
    rw [ht.others _ hk] at hx
    rw [hout fun hmem => hk <| hbs _ hmem]
    exact ⟨h.settled hc hx, h.reopens hc hx⟩
  case pos =>
    have hx' := hk ▸ hx
    cases hlive : bill.status.terminal with
    | true =>
      have hstatus := ht.status_eq hbill hx' hlive
      refine ⟨fun hsettled => ?_, fun hopen => ?_⟩
      · have hclosed := h.settled hc (hk ▸ hbill) <| hstatus ▸ hsettled
        by_cases hmem : bs c.bill
        · exact hin hmem
        · exact hout hmem ▸ hclosed
      · rw [BillStatus.not_terminal_of_isOpen (hstatus ▸ hopen)] at hlive
        contradiction
    | false =>
      obtain ⟨hpaid, hunpaid⟩ := hcase hc hk hx' hlive
      have hlive' := (ht.terminal_eq hbill hx').trans hlive
      rw [hk] at hin hout
      refine ⟨fun hsettled => ?_, fun hopen => ?_⟩
      · rcases hsettled with hp | hp
        · by_cases hmem : bs b
          · exact hin hmem
          · exact hout hmem ▸ (hpaid hp).resolve_left hmem
        · simp [hp, BillStatus.terminal] at hlive'
      · have hne : x.status ≠ .paid := fun hp => by simp [hp, BillStatus.isOpen] at hopen
        obtain ⟨hmem, hclosed⟩ := hunpaid hne
        exact hout hmem ▸ hclosed

theorem edit {r : Request} (h : Mirrored escalated s) (hv : Database.valid t) (hr : r.Edits)
    (hm : r.Mirrors escalated s) (hb : r.billOf s = some b) (hl : LinesOff b s t)
    (hbill : (s.table .bill).get b = some bill) (ht : Reckoned today b (r.paidOn s bill) s t)
    (hcase : t.table .debtCase = s.table .debtCase) (htotal : t.lineTotal b = r.comesTo s b) :
    Mirrored escalated t := by
  refine h.reckoned hv hl hbill ht (.of_eq hcase) (fun _ => False.elim) fun {k c r'} hc hk hr' hlive => ?_
  subst hk
  have hpaid : r'.status = .paid ↔ r.PaysOff s c.bill bill := by
    rw [ht.paid_iff hbill hr' hlive, htotal]
    rfl
  have ⟨hcloses, hreopens⟩ := hm hr hc hb hbill hlive
  refine ⟨fun hp => .inr <| hcloses <| hpaid.mp hp, fun hp => ⟨id, fun hclosed => ?_⟩⟩
  by_cases hpaid' : bill.status = .paid
  · exact hreopens hpaid' (fun h => hp <| hpaid.mpr h) hclosed
  · exact h.reopens hc hbill (BillStatus.isOpen_of_live hlive hpaid') hclosed

theorem pay {r : PaymentRequest} (h : Mirrored escalated s) (hv : Database.valid t) (hl : LinesOff b s t)
    (hbill : (s.table .bill).get b = some bill)
    (ht : Reckoned today b (Decimal.round (bill.amountPaid.toRat + s.applied b r.amount)) s t)
    (hshut : Shut (fun k => k = b ∧ Db.PaidOff t k) s t) (htotal : t.lineTotal b = s.lineTotal b) :
    Mirrored escalated t := by
  refine h.reckoned hv hl hbill ht hshut (fun _ => And.left) fun {k c r'} hc hk hr' hlive => ?_
  refine ⟨fun hp => .inl ⟨rfl, r', hr', hp⟩, fun hp => ⟨fun ⟨_, x, hx, hx'⟩ => ?_, fun hclosed => ?_⟩⟩
  · rw [hr', Option.some.injEq] at hx
    exact hp <| hx ▸ hx'
  · by_cases hpaid : bill.status = .paid
    case neg => exact h.reopens hc (hk ▸ hbill) (BillStatus.isOpen_of_live hlive hpaid) hclosed
    case pos =>
      exact absurd (Reckoned.stays_paid h.tallied.totals hbill hr' ht htotal hlive <| h.paid hbill hpaid) hp

theorem serve_edit {r : Request} (h : Mirrored escalated s) (hr : r.Edits) (hm : r.Mirrors escalated s) :
    Prog.Post (r.serve today) s <| Prog.OnReturn fun _ t => Database.valid t → Mirrored escalated t := by
  have recomputed : Prog.Post (r.serve today) s <| Prog.OnReturn fun _ t => ∃ b bill,
      r.billOf s = some b ∧ LinesOff b s t ∧ (s.table .bill).get b = some bill ∧
      Reckoned today b (r.paidOn s bill) s t := by
    refine post_serve_cases h.tallied.sourced (fun he _ => ?_) fun hb hl hbill ht => ⟨_, _, hb, hl, hbill, ht⟩
    subst he
    contradiction
  refine .imp (.both (post_serve_edits h.tallied hr) recomputed) fun _ t ⟨⟨hcase, htotal⟩, ht⟩ hv => ?_
  have ⟨b, bill, hb, hl, hbill, hreckoned⟩ := ht
  exact h.edit hv hr hm hb hl hbill hreckoned hcase <| htotal hb

theorem serve {r : Request} (h : Mirrored escalated s) (hm : r.Mirrors escalated s) :
    Prog.Post (r.serve today) s <| Prog.OnReturn fun _ t => Database.valid t → Mirrored escalated t := by
  cases r with
  | issueBill q =>
    refine .seq (.both post_issueBill (post_issueBill_shut h.one)) fun _ t ⟨hi, hshut⟩ => .ret ?_
    exact fun hv => h.issueBill hv hi hshut
  | postPayment pk q =>
    refine .seq (.bind <| post_getObject (fun bill hbill _ => ?_) fun _ => trivial) fun _ _ ht => .ret ht
    refine .imp (.both (post_postPayment_reckoned h.tallied.sourced) (post_postPayment_shut h.one))
      fun _ t ⟨ht, hshut⟩ hv => ?_
    have ⟨bill', hbill', hreckoned⟩ := ht.bill
    have hline : t.table .line = s.table .line := ht.only .line (by simp)
    exact h.pay hv (.of_only ht.only (by simp)) hbill' hreckoned hshut <| congrFun (Db.lineTotal_congr hline) _
  | _ => exact h.serve_edit trivial hm

-- Ageing opens no bill, and leaves the closed cases as they are.
theorem refresh (h : Mirrored escalated s) (hv : Database.valid t)
    (ht : Renewed today (overdueBills s council today) s t) : Mirrored escalated t := by
  have hbills : ∀ {b r'}, (t.table .bill).get b = some r' → ∃ r, (s.table .bill).get b = some r ∧
      (r'.status = .overdue ∧ r.status.isOpen ∨ r' = r ∧ b ∉ (overdueBills s council today).map Loaded.id) ∧
      r'.totalAmount = r.totalAmount ∧ r'.arrearsAmount = r.arrearsAmount := by
    intro b r' hr'
    rw [ht.bill] at hr'
    have ⟨r, hr, he⟩ := Option.map_eq_some_iff.mp hr'
    refine ⟨r, hr, ?_⟩
    split at he
    case isTrue hmem =>
      have ⟨x, hx, hid⟩ := List.mem_map.mp hmem
      have ⟨hget, _, hopen, _⟩ := mem_overdueBills.mp hx
      rw [hid, hr, Option.some.injEq] at hget
      exact he ▸ ⟨.inl ⟨rfl, hget ▸ hopen⟩, rfl, rfl⟩
    case isFalse hmem => exact he ▸ ⟨.inr ⟨rfl, hmem⟩, rfl, rfl⟩
  have hline : t.table .line = s.table .line := ht.only .line (by simp)
  refine .of_valid hv (fun b r' hr' => ?totals) ht.one (fun b r' hr' hpaid => ?paid)
    fun {k c r'} hc hr' => ?case
  case totals =>
    have ⟨r, hr, _, htotal, harrears⟩ := hbills hr'
    rw [htotal, harrears, Db.lineTotal_congr hline, Db.arrearsTotal_congr hline]
    exact h.tallied.totals hr
  case paid =>
    have ⟨r, hr, hcases, _⟩ := hbills hr'
    rcases hcases with ⟨hoverdue, _⟩ | ⟨rfl, _⟩
    · simp [hpaid] at hoverdue
    · exact h.paid hr hpaid
  case case =>
    have ⟨r, hr, hcases, _⟩ := hbills hr'
    refine ⟨fun hsettled => ?_, fun hopen hclosed => ?_⟩
    · rcases hcases with ⟨hoverdue, _⟩ | ⟨rfl, hmem⟩
      · simp [hoverdue] at hsettled
      · exact h.settled ((ht.others k c hmem).mp hc) hr hsettled
    · refine h.reopens ((ht.closed k c hclosed).mp hc) hr ?_ hclosed
      rcases hcases with ⟨_, hopen'⟩ | ⟨rfl, _⟩
      · exact hopen'
      · exact hopen

theorem aged (h : Mirrored escalated s) (ht : Renewed today (overdueBills s council today) s t)
    (hm : ∀ {k c r}, (s.table .debtCase).get k = some c → (s.table .bill).get c.bill = some r →
      r.council = council → r.status.isOpen → r.dueDate < today → c.enforcementStage = .closed →
        c.ageingBucket = bucketFor (today - r.dueDate)) : Aged today council escalated t := by
  intro b r' hr' hcouncil hopen hdue
  rw [ht.bill] at hr'
  have ⟨r, hr, he⟩ := Option.map_eq_some_iff.mp hr'
  by_cases hmem : b ∈ (overdueBills s council today).map Loaded.id
  case neg =>
    rw [if_neg hmem] at he
    subst he
    exact absurd (List.mem_map.mpr ⟨⟨b, r⟩, mem_overdueBills.mpr ⟨hr, hcouncil, hopen, hdue⟩, rfl⟩) hmem
  case pos =>
    rw [if_pos hmem] at he
    have ⟨x, hx, hid⟩ := List.mem_map.mp hmem
    have ⟨hget, hxcouncil, hxopen, hxdue⟩ := mem_overdueBills.mp hx
    rw [hid, hr, Option.some.injEq] at hget
    subst hget he
    have ⟨k, c, hc, hb, hbucket⟩ := ht.case x hx
    rw [hid] at hb
    have hx' : (s.table .bill).get c.bill = some x.row := by rw [hb, hr]
    refine ⟨rfl, k, c, hc, hb, ?_, fun hclosed => ?_⟩
    · by_cases hclosed : c.enforcementStage = .closed
      case neg => exact hbucket hclosed
      case pos =>
        have hbucket' := hm ((ht.closed k c hclosed).mp hc) hx' hxcouncil hxopen hxdue hclosed
        exact hbucket'
    · exact h.reopens ((ht.closed k c hclosed).mp hc) hx' hxopen hclosed

end Mirrored

section Runs

-- What has been served, the last first.
abbrev DebtHistory :=
  List (Prog.Served relational.schema (Date × DebtRequest))

-- An operator has escalated the case to CLOSED.
def Escalated (past : DebtHistory) (k : ℕ) : Prop :=
  ∃ x ∈ past, (∃ council, x.request.2 = .escalate council k) ∧
    (∃ c, (x.before.table .debtCase).get k = some c ∧ c.enforcementStage ≠ .closed) ∧
    ∃ c, (x.after.table .debtCase).get k = some c ∧ c.enforcementStage = .closed

-- An edit leaves its bill with the case that it is to have, and a case is closed by an operator only as
-- long as its bill stays in the bucket it has.
def DebtRequest.Mirrors (past : DebtHistory) (s : Db) (today : Date) : DebtRequest → Prop
  | billing r      => r.Mirrors (Escalated past) s
  | refresh council => ∀ ⦃k c r⦄, (s.table .debtCase).get k = some c →
    (s.table .bill).get c.bill = some r → r.council = council → r.status.isOpen → r.dueDate < today →
      c.enforcementStage = .closed → c.ageingBucket = bucketFor (today - r.dueDate)
  | escalate _ _   => True

-- The runs of requests that work on bills and debt cases, from the time before any bill is issued.
abbrev DebtSession (ok : DebtHistory → Db → Date × DebtRequest → Prop) : DebtHistory → Db → Prop :=
  Prog.Session (fun s => Db.Initial s ∧ Database.table s .debtCase = .empty)
    (fun r : Date × DebtRequest => r.2.serve r.1) ok

theorem Escalated.cons {past : DebtHistory} {x : Prog.Served relational.schema (Date × DebtRequest)}
    (h : Escalated past k) : Escalated (x :: past) k := by
  have ⟨y, hy, hrest⟩ := h
  exact ⟨y, .tail _ hy, hrest⟩

theorem post_escalate {pk : ℕ} : Prog.Post (escalateView today council pk) s <|
    Prog.OnReturn fun _ t => ∃ c, (s.table .debtCase).get pk = some c ∧ c.enforcementStage ≠ .closed ∧
      ∃ stage reminderCount closedAt, t = s.modify .debtCase pk fun c =>
        { c with enforcementStage := stage, reminderCount, closedAt } := by
  refine .bind <| post_getObject (fun c hc _ => ?_) fun _ => trivial
  refine post_guard (fun _ => trivial) fun hladder => post_save (fun _ _ => ?_) fun _ => trivial
  refine ⟨c, hc, fun hclosed => hladder ?_, _, _, _, rfl⟩
  simp only [hclosed]
  decide

theorem Mirrored.escalate {past : DebtHistory} {pk : ℕ} (h : Mirrored (Escalated past) s) :
    Prog.Post (escalateView today council pk) s <| Prog.OnReturn fun _ t => Database.valid t →
      Mirrored (Escalated (⟨(today, .escalate council pk), s, t⟩ :: past)) t := by
  refine .imp post_escalate fun _ t ⟨c₀, hc₀, hopen, stage, reminderCount, closedAt, ht⟩ hv => ?_
  have ho : Database.Only [Name.debtCase] s t := ht ▸ only_modify (.head _)
  have hbill : t.table .bill = s.table .bill := ho .bill (by simp)
  have hcases : t.table .debtCase = (s.table .debtCase).modify pk fun c =>
      { c with enforcementStage := stage, reminderCount, closedAt } := ht ▸ modify_table
  refine .of_valid hv (fun b r hr => ?totals) ?one (fun _ _ hr => h.paid (hbill ▸ hr)) fun {k c' r} hc' hr => ?case
  case totals =>
    rw [Db.lineTotal_congr (ho .line (by simp)), Db.arrearsTotal_congr (ho .line (by simp))]
    exact h.tallied.totals (hbill ▸ hr)
  case one => exact ht ▸ Unique.modify h.one ⟨fun _ => rfl, fun _ => rfl⟩
  case case =>
    have hget := hc'
    rw [hcases, Table.get_modify] at hc'
    rw [hbill] at hr
    split at hc'
    case isTrue hk =>
      subst hk
      rw [hc₀, Option.map_some, Option.some.injEq] at hc'
      have hb : c'.bill = c₀.bill := hc' ▸ rfl
      rw [hb] at hr
      refine ⟨fun hsettled => absurd (h.settled hc₀ hr hsettled) hopen, fun _ hclosed => ?_⟩
      exact ⟨_, .head _, ⟨council, rfl⟩, ⟨c₀, hc₀, hopen⟩, c', hget, hclosed⟩
    case isFalse =>
      exact ⟨h.settled hc' hr, fun hopen' hclosed => (h.reopens hc' hr hopen' hclosed).cons⟩

theorem DebtSession.mirrored {past : DebtHistory}
    (h : DebtSession (fun past s r => r.2.Mirrors past s r.1) past s) : Mirrored (Escalated past) s := by
  refine Prog.Session.preserves h (P := fun past s => Mirrored (Escalated past) s) (fun {s} ⟨hi, hc⟩ => ?start)
    (fun {past s r} hp hok => ?serve) fun hp => hp.mono fun _ => .cons
  case start =>
    have hnone : ∀ k, (s.table .debtCase).get k = none := fun k => hc ▸ Table.get_empty
    exact {
      tallied := hi.tallied
      one     := fun _ _ _ ⟨_, hj, _⟩ => by simp [hnone] at hj
      bill    := fun hk => by simp [hnone] at hk
      paid    := fun _ _ hr => by simp [hi.bill] at hr
      settled := fun _ _ _ hk => by simp [hnone] at hk
      reopens := fun hk => by simp [hnone] at hk }
  case serve =>
    obtain ⟨today, r⟩ := r
    cases r with
    | billing r => exact .imp (hp.serve hok) fun _ t ht hv => (ht hv).mono fun _ => .cons
    | refresh council =>
      refine .seq (post_refreshDebt hp.one) fun _ t ht => .ret fun hv => ?_
      exact (hp.refresh hv ht).mono fun _ => .cons
    | escalate council pk => exact hp.escalate

namespace Sample

-- The state and the sequences after the request.
def debts (s : Db × (Name → ℕ)) (today : Date) (r : DebtRequest) : Db × (Name → ℕ) :=
  ((r.serve today).call s.1 s.2).2

-- The bills of `day` have been due for ten days.
def late : Date :=
  day + 40

-- One of the two lines of the bill is paid when it is due.
def halfPaid : Db × (Name → ℕ) :=
  debts (debts start day <| .billing <| issue [1, 2] false) day <| .billing <| pay 1 20

def inDebt : Db × (Name → ℕ) :=
  debts halfPaid late <| .refresh 1

-- The line that is not paid is deleted.
def acquitted : Db × (Name → ℕ) :=
  debts inDebt late <| .billing <| .deleteLine 1 2

theorem debtSession_start {ok : DebtHistory → Db → Date × DebtRequest → Prop} : DebtSession ok [] start.1 :=
  .start ⟨council_initial, rfl⟩

theorem debtSession_debts {ok : DebtHistory → Db → Date × DebtRequest → Prop} {past : DebtHistory}
    {s : Db × (Name → ℕ)} {today : Date} {r : DebtRequest} (h : DebtSession ok past s.1)
    (hr : ok past s.1 (today, r)) :
    DebtSession ok (⟨(today, r), s.1, (debts s today r).1⟩ :: past) (debts s today r).1 :=
  .serve (n := s.2) (today, r) h hr rfl

end Sample

-- In every run in which edits leave their bills with the cases they are to have, debt cases mirror the
-- debt.
theorem debts_mirrored {past : DebtHistory}
    (h : DebtSession (fun past s r => r.2.Mirrors past s r.1) past s) :
    CasesClosed s ∧ ∀ {today council n t m out}, (DebtRequest.refresh council).Mirrors past s today →
      (refreshDebt council today).call s n = (.ok out, t, m) → Aged today council (Escalated past) t := by
  have hs := DebtSession.mirrored h
  refine ⟨hs.settled, fun hm hc => ?_⟩
  exact hs.aged (Prog.call_ok (post_refreshDebt hs.one) hc).1 fun hc hr h₁ h₂ h₃ h₄ => hm hc hr h₁ h₂ h₃ h₄

set_option maxRecDepth 20000 in
theorem sample_mirrored : ∃ past, CasesClosed Sample.halfPaid.1 ∧
    Aged Sample.late 1 (Escalated past)
      ((refreshDebt 1 Sample.late).call Sample.halfPaid.1 Sample.halfPaid.2).2.1 := by
  have hc := Sample.call_returns (p := refreshDebt 1 Sample.late) (s := Sample.halfPaid) (a := (1, 0))
    (by decide +kernel)
  have hs : DebtSession (fun past s r => r.2.Mirrors past s r.1) _ Sample.halfPaid.1 :=
    Sample.debtSession_debts (Sample.debtSession_debts Sample.debtSession_start False.elim) False.elim
  refine ⟨_, (debts_mirrored hs).1, (debts_mirrored hs).2 (fun k c r hk => ?_) hc⟩
  have hnone : (Sample.halfPaid.1.table .debtCase) = .empty := by decide +kernel
  change (Sample.halfPaid.1.table .debtCase).get k = some c at hk
  simp [hnone] at hk

set_option maxRecDepth 20000 in
-- The bill is paid without its case being closed.
theorem not_casesClosed_of_deleted : ∃ (past : DebtHistory) (s : Db),
    DebtSession (fun _ _ _ => True) past s ∧ ¬CasesClosed s := by
  refine ⟨_, Sample.acquitted.1, Sample.debtSession_debts (Sample.debtSession_debts (Sample.debtSession_debts
    (Sample.debtSession_debts Sample.debtSession_start trivial) trivial) trivial) trivial, fun h => ?_⟩
  have hcase : ((Sample.acquitted.1.table .debtCase).get 1).any fun c =>
      c.bill = 1 ∧ c.enforcementStage = .firstNotice := by decide +kernel
  have hbill : ((Sample.acquitted.1.table .bill).get 1).any (·.status = .paid) := by decide +kernel
  have ⟨c, hc, hany⟩ := Option.any_eq_true _ _ |>.mp hcase
  have ⟨r, hr, hpaid⟩ := Option.any_eq_true _ _ |>.mp hbill
  have ⟨hb, hstage⟩ := of_decide_eq_true hany
  have := h hc (hb ▸ hr) (.inl <| of_decide_eq_true hpaid)
  rw [hstage] at this
  contradiction

end Runs

end ACRev360
