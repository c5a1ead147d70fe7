import ACRev360.Services.ReadModels

namespace ACRev360

section Congr

variable {d e : Rows}

theorem visible_congr (hu : d .appUser = e .appUser) (ha : d .fieldAgent = e .fieldAgent) :
    d.visible = e.visible := by
  have hf : d.firmOf = e.firmOf := by
    funext user
    rw [Rows.firmOf, Rows.firmOf, hu]
  have hw : d.wardOf = e.wardOf := by
    funext user
    rw [Rows.wardOf, Rows.wardOf, ha]
  funext v p
  cases v <;> simp only [Rows.visible, hf, hw]

theorem summary_congr {viewer : Viewer} {today : Date}
    (h : ∀ m ∈ View.models (.summary 0 viewer today), d m = e m) : d.summary viewer today = e.summary viewer today := by
  simp only [View.models, List.forall_mem_cons] at h
  obtain ⟨hbill, hline, hassessment, hpayment, hchannel, hpayer, huser, hagent, hitem, -⟩ := h
  have hv := visible_congr huser hagent
  have hpv : d.payerVisible = e.payerVisible := by
    funext v p
    rw [Rows.payerVisible, Rows.payerVisible, hv, hpayer]
  have hb : d.liveBills = e.liveBills := by
    funext v
    rw [Rows.liveBills, Rows.liveBills, hbill, hpv]
  have hp : d.collectedFrom = e.collectedFrom := by
    funext v
    simp only [Rows.collectedFrom, Rows.payerOf, hpayment, hbill, hpayer, hv]
  have hf : d.firmOf = e.firmOf := by
    funext u
    rw [Rows.firmOf, Rows.firmOf, huser]
  unfold Rows.summary
  rw [hb, hp, hv, hpv, hf, hline, hassessment, hchannel, hpayer, hagent, hitem]

theorem dashboardGlobal_congr {level : AccessLevel}
    (h : ∀ m ∈ View.models (.dashboardGlobal 0 level), d m = e m) : d.dashboardGlobal level = e.dashboardGlobal level := by
  simp only [View.models, List.forall_mem_cons] at h
  obtain ⟨hpayment, hbill, hpayer, huser, hconsultant, hsettlement, hward, -⟩ := h
  have hf : d.consultantOf = e.consultantOf := by
    funext p
    rw [Rows.consultantOf, Rows.consultantOf, Rows.firmOf, Rows.firmOf, huser, hconsultant]
  have hp : d.payerOf = e.payerOf := by
    funext p
    rw [Rows.payerOf, Rows.payerOf, hbill, hpayer]
  simp only [Rows.dashboardGlobal, hf, hp, hpayment, hbill, hpayer, hconsultant, hsettlement, hward]

theorem catalogue_congr {scope : CatalogueScope} {department : Option ℕ} {page : ℕ}
    (h : ∀ m ∈ View.models (.catalogue 0 scope department page), d m = e m) :
    d.catalogue scope department page = e.catalogue scope department page := by
  simp only [View.models, List.forall_mem_cons] at h
  obtain ⟨hitem, hcategory, hdepartment, hrate, hband, htier, hconsultant, hagent, hfa, -⟩ := h
  have he : d.entry = e.entry := by
    funext i
    simp only [Rows.entry, hcategory, hdepartment, hrate, hband, htier]
  have hs : d.inScope = e.inScope := by
    funext i scope
    have hg : d.granted = e.granted := by
      funext c i
      rw [Rows.granted, Rows.granted, hconsultant]
    have ha : d.agentGranted = e.agentGranted := by
      funext u p
      rw [Rows.agentGranted, Rows.agentGranted, hagent, hfa]
    unfold Rows.inScope
    rw [hg, ha, hconsultant]
  simp only [Rows.catalogue, he, hs, hitem]

end Congr

-- A payload depends on no other models than those that it is computed from.
theorem compute_congr {v : View} {d e : Rows} (h : ∀ m ∈ v.models, d m = e m) : v.compute d = v.compute e := by
  cases v with
  | summary => exact congrArg Payload.summary <| summary_congr h
  | dashboardGlobal => exact congrArg Payload.dashboardGlobal <| dashboardGlobal_congr h
  | catalogue => rw [View.compute, View.compute, catalogue_congr h]

-- The cached read models of a process: its committed rows are those of all councils, by council and model.
abbrev readModels : Memo where
  Place       := ℕ × Model
  Content p   := p.2.Content
  Key         := Namespace
  View        := View
  Value       := Payload
  key         := View.tokenOf
  bump p      := bumped p.1 p.2
  compute v d := v.compute fun m => d (v.council, m)
  reads v     := v.models.map (v.council, ·)
  congr h     := compute_congr fun m hm => h (_, m) <| List.mem_map.mpr ⟨m, hm, rfl⟩

-- Every read that has returned gives what computing afresh gave at some time since it started.
def AllFresh (s : readModels.State) : Prop :=
  ∀ ⦃r v a since⦄, s.readers r = .returned v a since → Memo.Fresh v a since

namespace Sample

-- A council with a consultant, whose user has registered a payer who has paid a bill.
def paidRows : Rows
  | .appUser       => Table.empty.insert 1 ⟨"ngozi", "Ngozi Eze", "ngozi@example.org", "", some 1, none, some 1⟩
  | .subConsultant => Table.empty.insert 1 ⟨⟨1, 0, .active, none⟩, "Kuje Revenue Ltd"⟩
  | .payer         => Table.empty.insert 1 {
      payerType := .individual, firstName := "Ada", middleName := "", lastName := "Obi"
      phone := "0800", email := "", address := "", ward := 1, ninBvnHash := "", tin := ""
      businessSize := none, lineOfBusiness := "", council := 1, payerRef := "IND-0000001"
      enumeratedBy := 1, assignedAgent := none, creditBalance := 0, user := none
    }
  | .wardZone      => Table.empty.insert 1 "Gaube"
  | .bill          => Table.empty.insert 1 {
      council := 1, billRef := "KAC/2017/000001", payer := 1, totalAmount := .naira 20
      amountPaid := .naira 20, arrearsAmount := 0, status := .paid, dueDate := 736360
      supersededBy := none, issuedBy := 1, createdAt := 736330
    }
  | .payment       => Table.empty.insert 1 {
      council := 1, paymentRef := "PAY-00000001", bill := 1, channel := 1, terminal := none
      amount := .naira 20, bankTxnRef := "", txnStatus := .confirmed, postedBy := some 1
      geoLat := none, geoLng := none, createdAt := 736330
    }
  | .billLine | .assessment | .paymentChannel | .fieldAgent | .commissionSettlement | .councilRevenueItem
  | .revenueCategory | .department | .rateSchedule | .rateBand | .rateTier | .consultantPortfolio
  | .agentPortfolio => Table.empty

def paid : readModels.Data :=
  fun p => paidRows p.2

def performance : View :=
  .dashboardGlobal 1 .councilAdmin

def read (r : ℕ) : List readModels.Action :=
  [.start r performance, .lookup r, .compute r, .store r]

-- SubConsultantViewSet.status_change saves the consultant.
def suspend : readModels.Save :=
  ⟨(1, .subConsultant), fun t => Table.modify t 1 fun c => { c with status := .suspended }⟩

def suspendBetween : List readModels.Action :=
  read 1 ++ [.begin 1, .save 1 suspend, .commit 1, .start 2 performance, .lookup 2]

-- The payment is reversed.
def reversal : readModels.Save :=
  ⟨(1, .payment), fun t => Table.modify t 1 fun p => { p with txnStatus := .reversed }⟩

def reading : Option readModels.State :=
  (Memo.State.initial paid).run <| read 1 ++ [.begin 1]

-- The reader before the reversal has got the payload under the token that the reversal replaces.
theorem quiet_reversal {s : readModels.State} (h : Memo.Sound s) :
    ((s.setWriter 1 (some [reversal])).replace (.dashboard 1)).Quiet [reversal] := by
  intro x v t a hx hv ht
  obtain rfl := List.mem_singleton.mp hx
  have hkey : v.tokenOf = .dashboard 1 := by
    obtain ⟨m, hm, heq⟩ := List.mem_map.mp hv
    obtain ⟨hcouncil, rfl⟩ := Prod.mk.inj heq
    cases v with
    | summary => exact congrArg Namespace.dashboard hcouncil
    | dashboardGlobal => exact congrArg Namespace.dashboard hcouncil
    | catalogue => simp [View.models] at hm
  have ht : Function.update s.tokens (.dashboard 1) (some s.next) v.tokenOf = some t := ht
  rw [hkey, Function.update_self] at ht
  exact Option.some.inj ht ▸ h.not_kept

end Sample

end ACRev360
