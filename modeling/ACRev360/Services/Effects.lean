import ACRev360.Objects.Rules
import ACRev360.Services.Channels
import ACRev360.Services.Requests

namespace ACRev360

open Relational

-- What the services write. Each service keeps a relation between states that each of its statements
-- keeps.

variable {α : Type} {P : Db → Db → Prop}

variable [Std.Refl P]

section Assessments

section Draft

variable {payer council actor : ℕ} {e : LineEntry}
variable (hi : ∀ {k a s}, a.item = e.item.id → P s (s.insert .assessment k a))
include hi

theorem createAssessment_keeps {rateSchedule rateBand rateTier : Option ℕ} {amount : ℚ} :
    (createAssessment payer council actor e rateSchedule rateBand rateTier amount).Keeps P :=
  .bind store_keeps fun _ => .bind store_keeps fun _ =>
    .bind (keeps_create fun _ _ => hi rfl) fun _ => .ret

theorem createDraftAssessment_keeps : (createDraftAssessment payer council actor e).Keeps P := by
  unfold createDraftAssessment
  refine when_keeps keeps_refuse <| .bind keeps_select fun banded => ?_
  split
  case isTrue =>
    split
    · refine when_keeps keeps_refuse ?_
      split
      · exact keeps_refuse
      · exact createAssessment_keeps hi
    · exact keeps_refuse
  case isFalse =>
    refine .bind keeps_select fun rate => ?_
    split
    · exact createAssessment_keeps hi
    · exact keeps_refuse

end Draft

variable (hP : ∀ {s t}, Database.Only [Name.assessment] s t → P s t)
include hP

theorem saveAssessment_keeps {a : AssessmentObject} : (saveAssessment a).Keeps P :=
  .bind store_keeps fun _ => .bind store_keeps fun _ =>
    keeps_save fun _ => hP <| only_modify <| by simp

theorem setAssessmentStatus_keeps {status : AssessmentStatus} {a : ℕ} :
    (setAssessmentStatus status a).Keeps P :=
  keeps_save fun _ => hP <| only_modify <| by simp

end Assessments

-- What is written to a case that is closed.
abbrev closing (today : Date) (c : DebtCase) : DebtCase :=
  { c with enforcementStage := .closed, closedAt := some today }

theorem closeDebtCaseForBill_keeps {today : Date} {bill : ℕ}
    (hP : ∀ {k s}, P s (s.modify .debtCase k (closing today))) :
    (closeDebtCaseForBill today bill).Keeps P := by
  refine .bind keeps_select fun case => ?_
  split
  · split
    · exact keeps_save fun _ => hP
    · exact .ret
  · exact .ret

theorem closeDebtCaseForBill_only {today : Date} {bill : ℕ} :
    (closeDebtCaseForBill today bill).Keeps (Database.Only [Name.debtCase]) :=
  closeDebtCaseForBill_keeps <| only_modify <| .head _

theorem createReceipt_keeps {council payment : ℕ}
    (hP : ∀ {s t}, Database.Only [Name.receipt] s t → P s t) :
    (createReceipt council payment).Keeps P :=
  .bind (keeps_create fun _ _ => hP <| only_insert <| by simp) fun _ =>
    keeps_save fun _ => hP <| only_modify <| by simp

theorem addCredit_keeps {payer : ℕ} {amount : ℚ}
    (hP : ∀ {s t}, Database.Only [Name.payer] s t → P s t) : (addCredit payer amount).Keeps P := by
  refine .bind (keeps_update fun _ => hP <| only_modify <| by simp) fun _ => ?_
  split
  · exact keeps_abort
  · exact .ret

-- A change of a bill that leaves its payer and its money as they are.
def KeepsMoney (g : Bill → Bill) : Prop :=
  ∀ b, (g b).payer = b.payer ∧ (g b).amountPaid = b.amountPaid

-- A change of a line that leaves it on its bill, at its position.
def KeepsPlace (g : BillLine → BillLine) : Prop :=
  ∀ l, (g l).bill = l.bill ∧ (g l).position = l.position

-- A change of a payment that leaves what was paid, when, on which bill and by which reference.
abbrev KeepsTerms (g : Payment → Payment) : Prop :=
  relational.Keeping .payment g

theorem recomputeBill_keeps {today : Date} {bill : Loaded Bill} {amountPaid : ℚ}
    (hb : ∀ {g s}, KeepsMoney g → P s (s.modify .bill bill.id g)) :
    (recomputeBill today bill amountPaid).Keeps P :=
  .bind keeps_select fun _ => .bind store_keeps fun _ => .bind store_keeps fun _ =>
    .bind (keeps_save fun _ => hb fun _ => ⟨rfl, rfl⟩) fun _ => .ret

-- The totals become those of the stored lines, and the status the one that they and the object of the
-- caller have.
theorem post_recomputeBill {today : Date} {bill : Loaded Bill} {amountPaid : ℚ} {s : Db} :
    Prog.Post (recomputeBill today bill amountPaid) s <| Prog.OnReturn fun status t =>
      status = statusOf today bill.row.status amountPaid (kobo (s.lineTotal bill.id)) bill.row.dueDate ∧
      ∃ totalAmount arrearsAmount : Money, totalAmount.units = s.lineTotal bill.id ∧
        arrearsAmount.units = s.arrearsTotal bill.id ∧
        t = s.modify .bill bill.id fun b => { b with totalAmount, arrearsAmount, status } := by
  refine .bind <| post_select <| .bind <| post_store (fun total htotal => .bind ?_) fun _ => trivial
  refine post_store (fun arrears harrears => .bind ?_) fun _ => trivial
  refine post_save (fun _ _ => .ret ⟨rfl, total, arrears, ?_, ?_, rfl⟩) fun _ => trivial
  · exact htotal.trans <| cents_kobo _
  · exact harrears.trans <| cents_kobo _

theorem createLine_keeps {bill assessment position : ℕ} {current arrears amount : ℚ}
    (hl : ∀ {k r s}, r.bill = bill → P s (s.insert .line k r)) :
    (createLine bill assessment current arrears amount position).Keeps P :=
  .bind store_keeps fun _ => .bind store_keeps fun _ => .bind store_keeps fun _ =>
    keeps_create fun _ _ => hl rfl

theorem createFreshLine_keeps {bill : ℕ} {fresh : List FreshLine} {a : AssessmentObject}
    (hA : ∀ {s t}, Database.Only [Name.assessment] s t → P s t)
    (hl : ∀ {k r s}, r.bill = bill → P s (s.insert .line k r)) :
    (createFreshLine bill fresh a).Keeps P :=
  .bind (createLine_keeps hl) fun _ => .bind (setAssessmentStatus_keeps hA) fun _ => .ret

theorem lockOpenBill_keeps {payer k : ℕ} {acc : List (Loaded Bill)} :
    (lockOpenBill payer acc k).Keeps P := by
  refine .bind keeps_selectForUpdate fun prior => ?_
  split <;> exact .ret

theorem rollLine_keeps {acc : List Arrears} {line : Loaded BillLine} :
    (rollLine acc line).Keeps P := by
  refine .bind keeps_select fun paid => ?_
  simp only
  split
  · exact .ret
  · exact .bind load_keeps fun _ => .ret

theorem rollBill_keeps {today : Date} {bill : ℕ} {acc : List Arrears} {prior : Loaded Bill}
    (hD : ∀ {k s}, P s (s.modify .debtCase k (closing today)))
    (hb : ∀ {g s}, KeepsMoney g → P s (s.modify .bill prior.id g)) :
    (rollBill today bill acc prior).Keeps P :=
  .bind (keeps_save fun _ => hb fun _ => ⟨rfl, rfl⟩) fun _ =>
    .bind (closeDebtCaseForBill_keeps hD) fun _ =>
      .bind keeps_select fun _ => .foldlM fun _ _ => rollLine_keeps

theorem placeArrears_keeps {bill position : ℕ} {fresh : List FreshLine} {a : Arrears}
    (hl : ∀ {k r s}, r.bill = bill → P s (s.insert .line k r))
    (hs : ∀ {k g s}, k ∈ fresh.map FreshLine.id → KeepsPlace g → P s (s.modify .line k g)) :
    (placeArrears bill fresh position a).Keeps P := by
  unfold placeArrears
  split
  case h_1 line hf =>
    have : line.id ∈ fresh.map FreshLine.id :=
      List.mem_map.mpr ⟨line, List.mem_of_find?_eq_some hf, rfl⟩
    exact .bind store_keeps fun _ => .bind store_keeps fun _ =>
      .bind (keeps_save fun _ => hs this fun _ => ⟨rfl, rfl⟩) fun _ => .ret
  case h_2 => exact .bind (createLine_keeps hl) fun _ => .ret

theorem rollArrears_keeps {today : Date} {payer bill : ℕ} {fresh : List FreshLine}
    (hD : ∀ {k s}, P s (s.modify .debtCase k (closing today)))
    (hb : ∀ {k g s}, KeepsMoney g → P s (s.modify .bill k g))
    (hl : ∀ {k r s}, r.bill = bill → P s (s.insert .line k r))
    (hs : ∀ {k g s}, KeepsPlace g → P s (s.modify .line k g)) :
    (rollArrears today payer bill fresh).Keeps P :=
  .bind keeps_select fun _ => .bind (.foldlM fun _ _ => lockOpenBill_keeps) fun _ =>
    .bind (.foldlM fun _ _ => rollBill_keeps hD hb) fun _ =>
      .bind (.foldlM fun _ _ => placeArrears_keeps hl fun _ => hs) fun _ => .ret

theorem mergedAssessments_keeps {r : IssueRequest}
    (hA : ∀ {s t}, Database.Only [Name.assessment] s t → P s t) :
    (mergedAssessments r).Keeps P :=
  .bind (.foldlM fun _ _ => .bind (createDraftAssessment_keeps fun _ => hA <| only_insert <| by simp)
    fun _ => .ret) fun _ => .bind keeps_select fun _ =>
      .bind (forM_keeps fun _ _ => saveAssessment_keeps hA) fun _ =>
        .bind (forM_keeps fun _ _ => setAssessmentStatus_keeps hA) fun _ => .ret

theorem checkDuplicate_keeps {today : Date} {r : IssueRequest} : (checkDuplicate today r).Keeps P := by
  refine .bind keeps_select fun existing => ?_
  split
  · split
    · exact .ret
    · exact keeps_refuse
  · exact .ret

theorem dueDateOf_keeps {today : Date} {r : IssueRequest} : (dueDateOf today r).Keeps P := by
  unfold dueDateOf
  split
  · exact .ret
  · exact .bind load_keeps fun _ => .ret

theorem finalizeBill_keeps {today : Date} {bill : Loaded Bill}
    (hb : ∀ {g s}, KeepsMoney g → P s (s.modify .bill bill.id g)) :
    (finalizeBill today bill).Keeps P :=
  .bind load_keeps fun _ => .bind (keeps_save fun _ => hb fun _ => ⟨rfl, rfl⟩) fun _ =>
    .bind (recomputeBill_keeps hb) fun _ => .ret

section Issue

variable {today : Date} {r : IssueRequest}
variable (hA : ∀ {s t}, Database.Only [Name.assessment] s t → P s t)
variable (hD : ∀ {k s}, P s (s.modify .debtCase k (closing today)))
variable (hn : ∀ {k b s}, b.amountPaid = 0 → P s (s.insert .bill k b))
variable (hb : ∀ {k g s}, KeepsMoney g → P s (s.modify .bill k g))
variable (hl : ∀ {k l s}, P s (s.insert .line k l))
variable (hs : ∀ {k g s}, KeepsPlace g → P s (s.modify .line k g))
include hA hD hn hb hl hs

theorem writeBill_keeps {assessments : List AssessmentObject} {dueDate : Date} :
    (writeBill today r assessments dueDate).Keeps P := by
  refine .bind (keeps_create fun _ _ => hn rfl) fun bill => ?_
  refine .bind (.foldlM fun _ _ => createFreshLine_keeps hA fun _ => hl) fun fresh => ?_
  refine .bind ?roll fun _ => .bind (finalizeBill_keeps hb) fun _ => .ret
  split
  · exact rollArrears_keeps hD hb (fun _ => hl) hs
  · exact .ret

theorem issueBill_keeps : (issueBill today r).Keeps P := by
  refine .bind getForUpdate_keeps fun _ => unless_keeps checkDuplicate_keeps ?_
  refine .bind (mergedAssessments_keeps hA) fun assessments => when_keeps keeps_refuse ?_
  exact .bind dueDateOf_keeps fun _ => writeBill_keeps hA hD hn hb hl hs

end Issue

section Lines

variable {today : Date}
variable (hA : ∀ {s t}, Database.Only [Name.assessment] s t → P s t)
include hA

theorem addBillLine_keeps {bill : Loaded Bill} {actor : ℕ} {e : LineEntry}
    (hb : ∀ {g s}, KeepsMoney g → P s (s.modify .bill bill.id g))
    (hl : ∀ {k r s}, r.bill = bill.id → P s (s.insert .line k r))
    (hs : ∀ {k g s}, KeepsPlace g → P s (s.modify .line k g)) :
    (addBillLine today bill actor e).Keeps P := by
  refine .bind load_keeps fun _ => .bind (createDraftAssessment_keeps fun _ => ?_) fun _ => ?_
  case refine_1 => exact hA <| only_insert <| by simp
  refine .bind keeps_select fun line => ?_
  split
  · refine .bind load_keeps fun _ => .bind store_keeps fun _ => .bind store_keeps fun _ => ?_
    refine .bind (keeps_save fun _ => hA <| only_modify <| by simp) fun _ => ?_
    refine .bind store_keeps fun _ => .bind store_keeps fun _ => ?_
    refine .bind (keeps_save fun _ => hs fun _ => ⟨rfl, rfl⟩) fun _ => ?_
    exact .bind (setAssessmentStatus_keeps hA) fun _ => .bind (recomputeBill_keeps hb) fun _ => .ret
  · refine .bind (setAssessmentStatus_keeps hA) fun _ => .bind keeps_select fun _ => ?_
    exact .bind (createLine_keeps hl) fun _ => .bind (recomputeBill_keeps hb) fun _ => .ret

theorem updateBillLine_keeps {line : Loaded BillLine} {lineAmount : ℚ}
    (hb : ∀ {g s}, KeepsMoney g → P s (s.modify .bill line.row.bill g))
    (hs : ∀ {g s}, KeepsPlace g → P s (s.modify .line line.id g)) :
    (updateBillLine today line lineAmount).Keeps P := by
  refine when_keeps keeps_refuse <| when_keeps keeps_refuse ?_
  refine .bind store_keeps fun _ => .bind store_keeps fun _ => ?_
  refine .bind (keeps_save fun _ => hs fun _ => ⟨rfl, rfl⟩) fun _ => .bind load_keeps fun _ => ?_
  refine .bind (keeps_save fun _ => hA <| only_modify <| by simp) fun _ => .bind load_keeps fun _ => ?_
  exact .bind (recomputeBill_keeps hb) fun _ => .ret

theorem deleteBillLine_keeps {line : Loaded BillLine}
    (hb : ∀ {g s}, KeepsMoney g → P s (s.modify .bill line.row.bill g))
    (he : ∀ {s}, P s (s.erase .line line.id)) : (deleteBillLine today line).Keeps P := by
  refine .bind load_keeps fun _ => .bind keeps_select fun _ => when_keeps keeps_refuse ?_
  refine .bind keeps_select fun _ => when_keeps keeps_refuse ?_
  refine .bind load_keeps fun _ => .bind (setAssessmentStatus_keeps hA) fun _ => ?_
  refine .bind keeps_select fun _ => when_keeps keeps_refuse ?_
  exact .bind (keeps_delete fun _ => he) fun _ => .bind (recomputeBill_keeps hb) fun _ => .ret

end Lines

section Payments

variable {today : Date}

theorem lockLine_keeps {bill k : ℕ} {acc : List (Loaded BillLine)} : (lockLine bill acc k).Keeps P := by
  refine .bind keeps_selectForUpdate fun line => ?_
  split <;> exact .ret

theorem allocate_keeps {payment : ℕ} {paid : ℕ → ℤ} {lines : List (Loaded BillLine)}
    {remaining applied : ℚ} (hP : ∀ {s t}, Database.Only [Name.allocation] s t → P s t) :
    (allocate payment paid lines remaining applied).Keeps P := by
  induction lines generalizing remaining applied with
  | nil => exact .ret
  | cons line lines hi =>
    unfold allocate
    split
    case isTrue => exact .ret
    case isFalse =>
      simp only
      split
      case isTrue => exact hi
      case isFalse =>
        exact .bind store_keeps fun _ => .bind (keeps_create fun _ _ => hP <| only_insert <| by simp) fun _ => hi

theorem allocateFifo_keeps {payment bill : ℕ} {amount : ℚ}
    (hP : ∀ {s t}, Database.Only [Name.allocation] s t → P s t) :
    (allocateFifo payment amount bill).Keeps P :=
  .bind keeps_select fun _ => .bind (.foldlM fun _ _ => lockLine_keeps) fun _ =>
    .bind keeps_select fun _ => allocate_keeps hP

variable (hi : ∀ {k q s}, P s (s.insert .payment k q))
variable (hm : ∀ {k g s}, KeepsTerms g → P s (s.modify .payment k g))
include hi hm

theorem createPayment_keeps {bill : ℕ} {r : PaymentRequest} : (createPayment today bill r).Keeps P := by
  refine .bind ?geo fun _ => .bind store_keeps fun _ => .bind storeText_keeps fun _ => ?create
  case geo => split; exacts [.ret, keeps_abort]
  case create =>
    refine .bind (keeps_create fun _ _ => hi) fun _ => .bind (keeps_save fun _ => hm ?_) fun _ => .ret
    exact ⟨fun _ => rfl, fun _ => rfl⟩

theorem postPayment_keeps {bill : Loaded Bill} {r : PaymentRequest}
    (hP : ∀ {s t}, Database.Only [Name.allocation, Name.bill, Name.payer, Name.receipt] s t → P s t)
    (hD : ∀ {k s}, P s (s.modify .debtCase k (closing today))) : (postPayment today bill r).Keeps P := by
  refine when_keeps keeps_refuse <| when_keeps keeps_refuse <| .bind getForUpdate_keeps fun _ => ?_
  refine .bind (createPayment_keeps hi hm) fun _ => ?_
  refine .bind (allocateFifo_keeps fun h => hP <| h.mono <| by simp) fun _ => .bind store_keeps fun _ => ?_
  refine .bind (keeps_save fun _ => hP <| only_modify <| by simp) fun _ => ?_
  refine .bind (recomputeBill_keeps fun _ => hP <| only_modify <| by simp) fun _ => ?_
  refine when_keeps (addCredit_keeps fun h => hP <| h.mono <| by simp) ?_
  refine .bind (createReceipt_keeps fun h => hP <| h.mono <| by simp) fun _ => ?_
  exact when_keeps (closeDebtCaseForBill_keeps hD) .ret

omit hi in
theorem reversePayment_keeps {payment : Loaded Payment}
    (hP : ∀ {s t}, Database.Only [Name.bill, Name.payer] s t → P s t) :
    (reversePayment today payment).Keeps P := by
  refine when_keeps keeps_refuse <| .bind getForUpdate_keeps fun _ => .bind getForUpdate_keeps fun _ => ?_
  refine .bind keeps_select fun _ => .bind (keeps_save fun _ => hm ⟨fun _ => rfl, fun _ => rfl⟩) fun _ => ?_
  refine .bind store_keeps fun _ => .bind (keeps_save fun _ => hP <| only_modify <| by simp) fun _ => ?_
  refine .bind (recomputeBill_keeps fun _ => hP <| only_modify <| by simp) fun _ => ?_
  split
  · exact addCredit_keeps fun h => hP <| h.mono <| by simp
  · exact .ret

-- What a payment does besides recording itself is in other tables.
omit [Std.Refl P] hi hm in
theorem postPayment_maintains {I : Db → Prop} {bill : Loaded Bill} {r : PaymentRequest}
    (hc : (createPayment today bill.id r).Maintains I)
    (hP : ∀ {s t : Db}, Database.Only [Name.allocation, Name.bill, Name.payer, Name.receipt,
      Name.debtCase] s t → Preserves (S := relational.schema) I s t) :
    (postPayment today bill r).Maintains I := by
  refine when_maintains (.of_keeps keeps_refuse) <| when_maintains (.of_keeps keeps_refuse) ?_
  refine .bind (.of_keeps getForUpdate_keeps) fun _ => .bind hc fun _ => .of_keeps ?_
  refine .bind (allocateFifo_keeps fun h => hP <| h.mono <| by simp) fun _ => .bind store_keeps fun _ => ?_
  refine .bind (keeps_save fun _ => hP <| only_modify <| by simp) fun _ => ?_
  refine .bind (recomputeBill_keeps fun _ => hP <| only_modify <| by simp) fun _ => ?_
  refine when_keeps (addCredit_keeps fun h => hP <| h.mono <| by simp) ?_
  refine .bind (createReceipt_keeps fun h => hP <| h.mono <| by simp) fun _ => ?_
  exact when_keeps (closeDebtCaseForBill_keeps <| hP <| only_modify <| by simp) .ret

end Payments

section Registry

theorem createPayer_keeps {council actor : ℕ} {items : List (Loaded RevenueItem)} {force : Bool}
    {enumeratedBy : Option ℕ} {fields : PayerFields} {extra : Bool}
    (hi : ∀ {k p s}, p.assignedAgent = none → p.council = council → p.phone = fields.phone →
      P s (s.insert .payer k p))
    (hm : ∀ {k payerRef s}, P s (s.modify .payer k fun p => { p with payerRef }))
    (hA : ∀ item ∈ items, ∀ {k a s}, a.item = item.id → P s (s.insert .assessment k a)) :
    (createPayer council actor items force enumeratedBy fields extra).Keeps P := by
  unfold createPayer
  extract_lets fields' insert unlessExtra
  have hphone : fields'.phone = fields.phone := by
    simp only [fields']
    split <;> rfl
  have create_keeps : ∀ u, (unlessExtra u).Keeps P := by
    intro u
    refine when_keeps keeps_refuse <| .bind (keeps_create fun _ _ => hi rfl rfl hphone) fun _ => ?_
    refine .bind (keeps_save fun _ => hm) fun _ => .bind (forM_keeps fun item hitem => ?_) fun _ => .ret
    exact .bind (createDraftAssessment_keeps <| hA item hitem) fun _ => .ret
  split
  case isTrue =>
    refine .bind keeps_select fun existing => ?_
    split
    · exact .bind keeps_refuse create_keeps
    · exact create_keeps ()
  case isFalse => exact create_keeps ()

theorem createAsset_keeps {fw : Framework} {council payer ward : ℕ} {lat lng : Json}
    (hP : ∀ {s t : Db}, Database.Only [Name.asset] s t → P s t) :
    (createAsset fw council payer ward lat lng).Keeps P := by
  unfold createAsset
  split
  · exact .bind (keeps_create fun _ _ => hP <| only_insert <| by simp) fun _ => .ret
  · exact keeps_abort

-- What the replay of a payload hands to the registration.
def Registers (fw : Framework) (agent : Agent) (payload : Json) (data : PayerForm) : Prop :=
  ∃ members, payload = .obj members ∧
    agent.assignedWard.any (Json.getField (members.filter (·.1 ≠ "geo")) "ward").strEq ∧
    fw.createPayer (members.filter (·.1 ≠ "geo")) = some data

theorem replayPayer_keeps {fw : Framework} {council actor : ℕ} {agent : Agent} {payload : Json}
    (hi : ∀ {data k p s}, Registers fw agent payload data → p.assignedAgent = none →
      p.council = council → p.phone = data.phone → P s (s.insert .payer k p))
    (hm : ∀ {k payerRef s}, P s (s.modify .payer k fun p => { p with payerRef }))
    (hP : ∀ {s t : Db}, Database.Only [Name.assessment, Name.asset] s t → P s t) :
    (replayPayer fw council agent actor payload).Keeps P := by
  unfold replayPayer
  split
  case h_2 => exact keeps_refuse
  case h_1 members =>
    extract_lets geo body
    clear_value geo
    split
    case isTrue => exact .ret
    case isFalse hward =>
      split
      case h_2 => exact .ret
      case h_1 data hdata =>
        have hdata : Registers fw agent (.obj members) data :=
          ⟨members, rfl, by simpa [body] using hward, hdata⟩
        refine .bind keeps_select fun items => ?_
        extract_lets registration
        refine .bind (.attempt <| .atomic <| createPayer_keeps (hi hdata) hm fun _ _ _ _ _ _ =>
          hP <| only_insert <| by simp) fun r => ?_
        split
        case h_1 =>
          split
          · exact .ret
          · split
            · exact .ret
            · exact .raise
        case h_2 =>
          split
          case h_2 => exact keeps_refuse
          extract_lets lat lng accept
          exact unless_keeps (createAsset_keeps fun h => hP <| h.mono <| by simp) .ret

theorem getOrCreateChannel_keeps {code : ChannelCode}
    (hP : ∀ {s t : Db}, Database.Only [Name.channel] s t → P s t) :
    (getOrCreateChannel code).Keeps P := by
  refine .bind keeps_select fun channel => ?_
  split
  · exact .ret
  · refine .bind (.attempt <| .atomic <| keeps_create fun _ _ => hP <| only_insert <| by simp) fun r => ?_
    split
    · exact .ret
    · refine when_keeps .raise <| .bind keeps_select fun channel => ?_
      split
      · exact .ret
      · exact .raise

theorem createSyncRecord_keeps {record : MobileSyncRecord}
    (hP : ∀ {k s}, P s (s.insert .syncRecord k record)) : (createSyncRecord record).Keeps P :=
  when_keeps keeps_abort <| keeps_create fun _ _ => hP

theorem replaySyncRecord_keeps {fw : Framework} {today : Date} {r : SyncRequest}
    (hr : (replay fw today r).Keeps P) (hP : ∀ {k a s}, P s (s.insert .syncRecord k a)) :
    (replaySyncRecord fw today r).Keeps P := by
  refine .bind keeps_select fun existing => ?_
  split
  case h_1 => exact .ret
  refine .bind (.attempt hr) fun outcome => ?_
  extract_lets again enter
  have hrecord : ∀ outcome, (enter outcome).Keeps P := by
    intro outcome
    refine .bind (.attempt <| .atomic <| createSyncRecord_keeps hP) fun r => ?_
    split
    · exact .ret
    · refine when_keeps .raise <| .bind keeps_select fun existing => ?_
      split
      · exact .ret
      · exact keeps_refuse
  split
  · exact .bind .ret hrecord
  · exact when_keeps keeps_abort <| .bind .ret hrecord

omit [Std.Refl P] in
theorem replaySyncRecord_maintains {I : Db → Prop} {fw : Framework} {today : Date} {r : SyncRequest}
    (hr : (replay fw today r).Maintains I)
    (hP : ∀ {s t : Db}, Database.Only [Name.syncRecord] s t → Preserves (S := relational.schema) I s t) :
    (replaySyncRecord fw today r).Maintains I := by
  refine .bind (.of_keeps keeps_select) fun existing => ?_
  split
  case h_1 => exact .ret
  refine .bind (.attempt hr) fun outcome => ?_
  extract_lets again enter
  have hrecord : ∀ outcome, (enter outcome).Maintains I := by
    intro outcome
    refine .bind (.attempt <| .atomic <| .of_keeps <| createSyncRecord_keeps <| hP <|
      only_insert <| by simp) fun r => ?_
    split
    · exact .ret
    · refine when_maintains .raise <| .bind (.of_keeps keeps_select) fun existing => ?_
      split
      · exact .ret
      · exact .of_keeps keeps_refuse
  split
  · exact .bind .ret hrecord
  · exact when_maintains (.of_keeps keeps_abort) <| .bind .ret hrecord

end Registry

section Channels

variable {β : Type} {gw : Gateway} {council channel : ℕ}

theorem lookupText_keeps {text : String} {f : Db → β} : (lookupText text f).Keeps P :=
  when_keeps keeps_refuse keeps_select

omit [Std.Refl P] in
theorem post_lookupText {s : Db} {text : String} {f : Db → β} {Q : Except relational.Exn β → Db → Prop}
    (h : Char.ofNat 0 ∉ text.toList → Q (.ok (f s)) s)
    (he : Char.ofNat 0 ∈ text.toList → Q (.error ⟨.dataError, false⟩) s) :
    Prog.Post (lookupText text f) s Q :=
  post_when (fun hn => .bind <| post_refuse <| he hn) fun hn => post_select <| h hn

omit [Std.Refl P] in
theorem runs_lookupText {s : Db} {text : String} {f : Db → β} {Q : Except relational.Exn β → Db → Prop}
    (h : Char.ofNat 0 ∉ text.toList → Q (.ok (f s)) s)
    (he : Char.ofNat 0 ∈ text.toList → Q (.error ⟨.dataError, false⟩) s) :
    Runs (lookupText text f) s Q :=
  runs_when (fun hn => .bind <| .raise <| he hn) fun hn => runs_select <| h hn

omit [Std.Refl P] in
theorem post_getOrCreateChannel {s : Db} {code : ChannelCode} {Q : Except relational.Exn ℕ → Db → Prop}
    (h : ∀ k, channelByCode s code = some k → Q (.ok k) s)
    (hn : channelByCode s code = none → ∀ k, Database.conflicts s .channel k { code } = false →
      Q (.ok k) (Database.insert s .channel k { code }))
    (he : channelByCode s code = none → ∀ e, e.aborted = false → Q (.error e) s) :
    Prog.Post (getOrCreateChannel code) s Q := by
  refine .bind <| post_select ?_
  simp only
  cases hf : channelByCode s code with
  | some k => exact .ret <| h k hf
  | none =>
    refine .bind <| .attempt <| .atomic <| post_create (fun k hc => .ret <| hn hf k hc) fun e => ?_
    refine post_when (fun _ => .bind <| .raise <| he hf _ rfl) fun _ => .bind <| post_select ?_
    rw [hf]
    exact .raise <| he hf _ rfl

theorem channelByCode_some {s : Db} {code : ChannelCode} {k : ℕ} (h : channelByCode s code = some k) :
    Database.Has s (.channel, k) := by
  obtain ⟨⟨k, c⟩, hf, rfl⟩ := Option.map_eq_some_iff.mp h
  exact ⟨c, (Table.first_some hf).1⟩

theorem channelByCode_insert {s : Db} {code : ChannelCode} {k : ℕ} (hr : k ∉ s.retired .channel)
    (hn : channelByCode s code = none) (hk : (s.table .channel).get k = none) :
    channelByCode (Database.insert s .channel k { code }) code = some k := by
  have hget : ((Database.insert s .channel k { code }).table .channel).get k = some { code } := by
    rw [Database.insert_table hr, Table.get_insert_self hk]
  cases hf : ((Database.insert s .channel k { code }).table .channel).first fun _ c => c.code = code with
  | none => simpa using Table.first_none hf hget
  | some r =>
    have ⟨hr, hc⟩ := Table.first_some hf
    rcases Database.get_insert_cases hr with ⟨hi, _⟩ | hr
    · rw [channelByCode, hf, ← hi]
      rfl
    · exact absurd hc <| Table.first_none (Option.map_eq_none_iff.mp hn) hr

omit [Std.Refl P] in
-- Alone, a channel that is not there can be created.
theorem runs_getOrCreateChannel {s : Db} {code : ChannelCode} {Q : Except relational.Exn ℕ → Db → Prop}
    (h : ∀ k, channelByCode s code = some k → Q (.ok k) s)
    (hn : channelByCode s code = none → ∀ k, k ∉ s.retired .channel → (s.table .channel).get k = none →
      Q (.ok k) (Database.insert s .channel k { code })) :
    Runs (getOrCreateChannel code) s Q := by
  refine .bind <| runs_select ?_
  simp only
  cases hf : channelByCode s code with
  | some k => exact .ret <| h k hf
  | none =>
    refine .bind <| .attempt <| .atomic <| runs_create (by simp) (fun _ k hr hk => .ret <| hn hf k hr hk) ?_
    intro u hu t i ⟨c, hc, hu'⟩
    obtain rfl := List.mem_singleton.mp hu
    cases t with
    | channel => exact absurd (by simpa [eq_comm] using hu') <| Table.first_none (Option.map_eq_none_iff.mp hf) hc
    | payment =>
      simp only [uniqueKeys] at hu'
      split at hu' <;> simp at hu'
    | _ => simp at hu'

theorem authenticateWebhookClient_keeps {now : ℕ} {rawBody : String} {signature : Option String}
    (hP : ∀ {s t : Db}, Database.Only [Name.apiClient] s t → P s t) :
    (authenticateWebhookClient gw now council channel rawBody signature).Keeps P := by
  refine .bind keeps_select fun client => ?_
  split
  · exact .bind (keeps_update fun _ => hP <| only_modify <| by simp) fun _ => .ret
  · exact .ret

variable (hP : ∀ {s t : Db}, Database.Only [Name.feed] s t → P s t)
include hP

theorem receiveFeed_keeps {today : Date} {payload : Json} {n : Normalised} :
    (receiveFeed today council channel payload n).Keeps P := by
  refine .bind lookupText_keeps fun _ => getOrCreate_keeps ?_
  refine when_keeps keeps_abort <| .bind storeText_keeps fun _ => .bind store_keeps fun _ => ?_
  exact keeps_create fun _ _ => hP <| only_insert <| by simp

theorem setMatchStatus_keeps {feed : ℕ} {status : MatchStatus} : (setMatchStatus feed status).Keeps P :=
  keeps_save fun _ => hP <| only_modify <| by simp

theorem matchPayment_keeps {feed payment : ℕ} : (matchPayment feed payment).Keeps P :=
  keeps_save fun _ => hP <| only_modify <| by simp

end Channels

section Intakes

variable {I : Db → Prop} {gw : Gateway} {fw : Framework} {today : Date}

-- What keeps `I` when payments do.
theorem replay_maintains {r : SyncRequest} (hpost : ∀ {bill r}, (postPayment today bill r).Maintains I)
    (hP : ∀ {s t : Db}, Database.Only [Name.payer, Name.assessment, Name.asset, Name.channel] s t →
      Preserves (S := relational.schema) I s t) : (replay fw today r).Maintains I := by
  unfold replay
  split
  case h_2 =>
    exact .of_keeps <| replayPayer_keeps (fun _ _ _ _ => hP <| only_insert <| by simp)
      (hP <| only_modify <| by simp) fun h => hP <| h.mono <| by simp
  case h_1 =>
    unfold replayPayment
    split
    case h_2 => exact .ret
    refine .bind (.of_keeps keeps_select) fun bill => ?_
    split
    case h_2 => exact .ret
    refine .bind (.of_keeps load_keeps) fun payer => ?_
    split
    case isTrue => exact .ret
    refine .bind (.of_keeps <| getOrCreateChannel_keeps fun h => hP <| h.mono <| by simp) fun _ => ?_
    refine .bind (.of_keeps keeps_select) fun _ => .bind (.attempt <| .atomic hpost) fun r => ?_
    split
    · exact .ret
    · split
      · exact .ret
      · exact .raise

theorem sync_maintains {records : List SyncRequest} (hpost : ∀ {bill r}, (postPayment today bill r).Maintains I)
    (hP : ∀ {s t : Db}, Database.Only [Name.payer, Name.assessment, Name.asset, Name.channel, Name.syncRecord] s t →
      Preserves (S := relational.schema) I s t) : (sync fw today records).Maintains I :=
  .foldlM fun _ _ => .bind (.atomic <| replaySyncRecord_maintains
    (replay_maintains hpost fun h => hP <| h.mono <| by simp) fun h => hP <| h.mono <| by simp) fun _ => .ret

theorem createPaymentFrom_maintains {council actor : ℕ} {portfolio : ℕ → Bill → Bool} {data : PaymentForm}
    (hpost : ∀ {bill r}, (postPayment today bill r).Maintains I)
    (hP : ∀ {s t : Db}, Database.Only [Name.channel] s t → Preserves (S := relational.schema) I s t) :
    (createPaymentFrom fw today council actor portfolio data).Maintains I := by
  refine .bind (.of_keeps keeps_select) fun bill => ?_
  split
  case h_2 => exact .of_keeps keeps_refuse
  refine .bind (.of_keeps <| getOrCreateChannel_keeps hP) fun channel => .bind (.of_keeps keeps_select) fun terminal => ?_
  refine when_maintains (.of_keeps keeps_refuse) <| .bind (.attempt <| .atomic hpost) fun r => ?_
  split
  · exact .ret
  · split
    · exact .ret
    · split
      · exact .ret
      · exact .raise

end Intakes

-- Payments are recorded and keep their terms, and what else a request writes is in other tables.
theorem Request.serve_keeps {today : Date} {r : Request}
    (hi : ∀ {k q s}, P s (s.insert .payment k q))
    (hm : ∀ {k g s}, KeepsTerms g → P s (s.modify .payment k g))
    (hP : ∀ {s t}, Database.Only [Name.payer, Name.assessment, Name.bill, Name.line, Name.allocation,
      Name.receipt] s t → P s t)
    (hD : ∀ {k s}, P s (s.modify .debtCase k (closing today))) : (r.serve today).Keeps P := by
  have hA : ∀ {s t : Db}, Database.Only [Name.assessment] s t → P s t := fun h => hP <| h.mono <| by simp
  have hb : ∀ {k g} {s : Db}, P s (s.modify .bill k g) := hP <| only_modify <| by simp
  have hl : ∀ {k l} {s : Db}, P s (s.insert .line k l) := hP <| only_insert <| by simp
  have hs : ∀ {k g} {s : Db}, P s (s.modify .line k g) := hP <| only_modify <| by simp
  cases r with
  | issueBill r =>
    have hn : ∀ {k b} {s : Db}, P s (s.insert .bill k b) := hP <| only_insert <| by simp
    exact .bind (issueBill_keeps hA hD (fun _ => hn) (fun _ => hb) hl fun _ => hs) fun _ => .ret
  | addLine pk actor e =>
    refine .bind (.bind getObject_keeps fun _ => ?_) fun _ => .ret
    exact addBillLine_keeps hA (fun _ => hb) (fun _ => hl) fun _ => hs
  | putLine pk lineId amount =>
    refine .bind getObject_keeps fun _ => .bind getObject_keeps fun _ => ?_
    exact updateBillLine_keeps hA (fun _ => hb) fun _ => hs
  | deleteLine pk lineId =>
    refine .bind getObject_keeps fun _ => .bind getObject_keeps fun _ => .bind keeps_select fun _ => ?_
    exact when_keeps keeps_refuse <| deleteBillLine_keeps hA (fun _ => hb) <| hP <| only_erase <| by simp
  | postPayment pk r =>
    refine .bind (.bind getObject_keeps fun _ => ?_) fun _ => .ret
    exact postPayment_keeps hi hm (fun h => hP <| h.mono <| by simp) hD
  | reverse pk =>
    exact .bind getObject_keeps fun _ => reversePayment_keeps hm fun h => hP <| h.mono <| by simp

end ACRev360
