import ACRev360.Theorems.Reports

namespace ACRev360

section Groups

variable {α κ : Type} [DecidableEq κ] {k : κ}

theorem lastOf_map {l : List α} {key : α → κ} {f : α → ℤ} :
    lastOf (l.map fun a => (key a, f a)) k = ((l.filter (key · = k)).map f).getLast? := by
  rw [lastOf, List.filter_map, List.getLast?_map, List.getLast?_map, Option.map_map]
  rfl

-- Whichever element comes last, it is the sum of all, exactly if there is no other one or none counts.
theorem last_perm_iff {l : List α} {p : α → Bool} {f : α → ℤ} :
    (∀ l' : List α, l'.Perm l → ((l'.filter p).map f).getLast?.getD 0 = ((l.filter p).map f).sum) ↔
      (l.filter p).length ≤ 1 ∨ ∀ x ∈ l.filter p, f x = 0 := by
  constructor
  case mp =>
    intro h
    -- Each element can be the last one.
    have hsum : ∀ x ∈ l.filter p, f x = ((l.filter p).map f).sum := fun x hx => by
      obtain ⟨hmem, hpx⟩ := List.mem_filter.mp hx
      obtain ⟨a, b, rfl⟩ := List.append_of_mem hmem
      have hperm : (a ++ b ++ [x]).Perm (a ++ x :: b) :=
        (List.perm_append_singleton x _).trans List.perm_middle.symm
      rw [← h _ hperm]
      simp [List.filter_append, hpx]
    rcases Nat.lt_or_ge 1 (l.filter p).length with hlt | hge
    case inr => exact .inl hge
    case inl =>
      generalize (l.filter p) = m at *
      refine .inr fun x hx => ?_
      have hconst : m.map f = m.map fun _ => (m.map f).sum := List.map_congr_left hsum
      have htotal : (m.map f).sum = m.length * (m.map f).sum := by
        calc (m.map f).sum = (m.map fun _ => (m.map f).sum).sum := congrArg _ hconst
          _ = m.length * (m.map f).sum := by simp
      have hfactor : ((m.length : ℤ) - 1) * (m.map f).sum = 0 := by linarith
      rw [hsum x hx]
      rcases mul_eq_zero.mp hfactor with hlength | hzero
      · omega
      · exact hzero
  case mpr =>
    rintro h l' hperm
    replace hperm := hperm.filter p
    generalize l.filter p = m at *
    generalize l'.filter p = m' at *
    rcases h with hlength | hzero
    case inl =>
      match m with
      | []  => simp [hperm.eq_nil]
      | [x] => simp [List.perm_singleton.mp hperm]
    case inr =>
      rw [List.sum_eq_zero (List.forall_mem_map.mpr hzero), List.getLast?_map]
      cases hlast : m'.getLast? with
      | none => rfl
      | some x => exact hzero x <| hperm.mem_iff.mp <| List.mem_of_getLast? hlast

theorem length_le_one_iff {l : List α} (h : l.Nodup) : l.length ≤ 1 ↔ ∀ x ∈ l, ∀ y ∈ l, x = y := by
  match l with
  | []          => simp
  | [x]         => simp
  | x :: y :: l =>
    have hne : x ≠ y := fun he => (List.nodup_cons.mp h).1 <| he ▸ .head _
    simpa using fun h _ _ => absurd h hne

theorem mem_groupSums {l : List (κ × ℤ)} {m : ℤ} :
    (k, m) ∈ groupSums l ↔ k ∈ l.map (·.1) ∧ m = ((l.filter (·.1 = k)).map (·.2)).sum := by
  simp only [groupSums, List.mem_map, List.mem_dedup, Prod.mk.injEq]
  constructor
  · rintro ⟨k', hk, rfl, rfl⟩
    exact ⟨hk, rfl⟩
  · rintro ⟨hk, rfl⟩
    exact ⟨k, hk, rfl, rfl⟩

theorem groupSums_nodup {l : List (κ × ℤ)} : ((groupSums l).map (·.1)).Nodup := by
  rw [groupSums, List.map_map]
  simpa [Function.comp_def] using List.nodup_dedup _

-- Whatever groups are taken, they add up to what is in them.
theorem sum_filter_groupSums {l : List (κ × ℤ)} {p : κ → Bool} :
    (((groupSums l).filter (p ·.1)).map (·.2)).sum = ((l.filter (p ·.1)).map (·.2)).sum := by
  rw [groupSums, List.filter_map, List.map_map]
  refine Eq.trans (congrArg _ <| List.map_congr_left fun k hk => ?_) <|
    @sum_fibers _ _ _ _ _ (·.1) (·.2) _ (l.filter (p ·.1)) ((List.nodup_dedup _).filter _) fun a ha => ?_
  case refine_1 =>
    have hp : p k := (List.mem_filter.mp hk).2
    simp only [Function.comp_apply, List.filter_filter]
    congr 2
    refine List.filter_congr fun a _ => ?_
    by_cases ha : a.1 = k <;> simp [ha, hp]
  case refine_2 =>
    obtain ⟨hmem, hp⟩ := List.mem_filter.mp ha
    exact List.mem_filter.mpr ⟨List.mem_dedup.mpr <| List.mem_map_of_mem hmem, hp⟩

end Groups

section RollUp

variable {rows : List ConsultantRow} {f : ConsultantRow → ℤ}

def ConsultantRow.direct (r : ConsultantRow) : Bool :=
  r.consultantName = "Council Direct"

theorem sum_direct_add_named : ((rows.filter (·.direct)).map f).sum +
    ((rows.filter (·.consultantName ≠ "Council Direct")).map f).sum = (rows.map f).sum := by
  rw [← List.sum_append, ← List.map_append]
  refine List.Perm.sum_eq <| List.Perm.map _ ?_
  simpa [ConsultantRow.direct] using List.filter_append_perm (fun r : ConsultantRow => r.direct) rows

-- Of the rows for the council itself, the roll-up keeps the first one.
theorem sum_rollUp (hf : ∀ named : List ConsultantRow, f ⟨"Via Sub-Consultants", (named.map (·.collected)).sum,
      (named.map (·.billed)).sum, Rows.collectionRate (named.map (·.collected)).sum (named.map (·.billed)).sum,
      (named.map (·.commissionAccrued)).sum, none⟩ = (named.map f).sum) :
    ((Rows.rollUp rows).map f).sum = ((rows.filter (·.direct)).head?.toList.map f).sum +
      ((rows.filter (·.consultantName ≠ "Council Direct")).map f).sum := by
  rw [List.head?_filter, Rows.rollUp, List.map_append, List.sum_append]
  congr 1
  split
  case isTrue hempty => rw [List.isEmpty_iff.mp hempty, List.map_nil]
  case isFalse => rw [List.map_singleton, List.sum_singleton, hf]

theorem rollUp_of_length (h : (rows.filter (·.direct)).length ≤ 1) :
    (rows.filter (·.direct)).head?.toList = rows.filter (·.direct) := by
  generalize rows.filter (·.direct) = l at *
  match l with
  | []  => rfl
  | [x] => rfl

-- A row that the roll-up drops is missed, if something has been collected for each.
theorem rollUp_collected_iff (hpos : ∀ r ∈ rows, 0 < r.collected) :
    ((Rows.rollUp rows).map (·.collected)).sum = (rows.map (·.collected)).sum ↔
      (rows.filter (·.direct)).length ≤ 1 := by
  have hsplit : _ = (rows.map (·.collected)).sum := sum_direct_add_named
  rw [sum_rollUp fun _ => rfl]
  constructor
  case mpr => exact fun h => by rw [rollUp_of_length h, sum_direct_add_named]
  case mp =>
    intro h
    have hpos : ∀ r ∈ rows.filter (·.direct), 0 < r.collected := fun r hr => hpos r (List.mem_filter.mp hr).1
    generalize rows.filter (·.direct) = l at *
    match l with
    | []          => exact Nat.zero_le _
    | [x]         => exact Nat.le_refl _
    | x :: y :: l =>
      have hrest : 0 ≤ (l.map (·.collected)).sum :=
        List.sum_nonneg <| List.forall_mem_map.mpr fun r hr => (hpos r <| .tail _ <| .tail _ hr).le
      have hy := hpos y <| .tail _ <| .head _
      simp only [List.head?_cons, Option.toList_some, List.map_cons, List.map_nil, List.sum_cons, List.sum_nil]
        at h hsplit
      omega

end RollUp

namespace Rows

variable {d : Rows} {groups : List BilledGroup} {name : Option String}

-- What the live bills of the payers of every consultant of a name come to.
def billedOf (d : Rows) (name : Option String) : ℤ :=
  ((d.billedByConsultant.filter (·.1.1 = name)).map (·.2)).sum

-- The rows are complete: no payment and no bill is missing in them, nor in their roll-up.
structure Complete (d : Rows) (groups : List BilledGroup) : Prop where
  collected : ((d.consultantRows groups).map (·.collected)).sum = (d.collectedByConsultant.map (·.2)).sum
  billed    : ∀ p ∈ byAmount (groupSums d.collectedByConsultant), (d.consultantRow groups p).billed = d.billedOf p.1
  rolledUp  : ((rollUp <| d.consultantRows groups).map (·.collected)).sum =
      ((d.consultantRows groups).map (·.collected)).sum ∧
    ((rollUp <| d.consultantRows groups).map (·.billed)).sum = ((d.consultantRows groups).map (·.billed)).sum

-- The consultants of a name have one status, or what is billed for those of each status is nothing.
def OneStatus (d : Rows) (name : Option String) : Prop :=
  (∀ x ∈ d.billedByConsultant, ∀ y ∈ d.billedByConsultant, x.1.1 = name → y.1.1 = name → x.1.2 = y.1.2) ∨
    ∀ status, ((d.billedByConsultant.filter (·.1 = (name, status))).map (·.2)).sum = 0

-- How the row of a name is labelled.
def label (name : Option String) : String :=
  if name.getD "" = "" then "Council Direct" else name.getD ""

-- The names of those who have collected tell the groups apart.
structure Distinct (d : Rows) : Prop where
  statuses : ∀ x ∈ d.collectedByConsultant, d.OneStatus x.1
  direct   : ∀ x ∈ d.collectedByConsultant, ∀ y ∈ d.collectedByConsultant,
    label x.1 = "Council Direct" → label y.1 = "Council Direct" → x.1 = y.1

theorem collected_sum : ((d.consultantRows groups).map (·.collected)).sum = (d.collectedByConsultant.map (·.2)).sum := by
  rw [consultantRows, List.map_map, ← sum_groupSums, ← sum_byAmount]
  rfl

theorem consultantRow_billed {collected : ℤ} : (d.consultantRow groups (name, collected)).billed =
    ((groups.filter (·.1.1 = name)).map (·.2)).getLast?.getD 0 :=
  congrArg (·.getD 0) lastOf_map

theorem billed_iff (collected : ℤ) : (∀ groups : List BilledGroup, groups.Perm (groupSums d.billedByConsultant) →
    (d.consultantRow groups (name, collected)).billed = d.billedOf name) ↔ d.OneStatus name := by
  have hsum : d.billedOf name =
      (((groupSums d.billedByConsultant).filter (·.1.1 = name)).map (·.2)).sum :=
    (sum_filter_groupSums (p := fun k : Option String × Option ConsultantStatus => decide (k.1 = name))).symm
  simp only [consultantRow_billed, hsum]
  rw [last_perm_iff, length_le_one_iff <| (List.Nodup.of_map _ groupSums_nodup).filter _, OneStatus]
  have hgroup {key : Option String × Option ConsultantStatus} (hkey : key ∈ d.billedByConsultant.map (·.1)) :
      (key, ((d.billedByConsultant.filter (·.1 = key)).map (·.2)).sum) ∈ groupSums d.billedByConsultant :=
    mem_groupSums.mpr ⟨hkey, rfl⟩
  refine or_congr ⟨fun h x hx y hy hxn hyn => ?_, fun h x hx y hy => ?_⟩ ⟨fun h status => ?_, fun h x hx => ?_⟩
  case refine_1 =>
    have heq := h _ (List.mem_filter.mpr ⟨hgroup <| List.mem_map_of_mem hx, decide_eq_true hxn⟩) _
      (List.mem_filter.mpr ⟨hgroup <| List.mem_map_of_mem hy, decide_eq_true hyn⟩)
    exact congrArg (·.1.2) heq
  case refine_2 =>
    obtain ⟨hx, hxn⟩ := List.mem_filter.mp hx
    obtain ⟨hy, hyn⟩ := List.mem_filter.mp hy
    obtain ⟨hxkey, hxsum⟩ := mem_groupSums.mp hx
    obtain ⟨hykey, hysum⟩ := mem_groupSums.mp hy
    obtain ⟨x', hx', hxe⟩ := List.mem_map.mp hxkey
    obtain ⟨y', hy', hye⟩ := List.mem_map.mp hykey
    have hxn := of_decide_eq_true hxn
    have hyn := of_decide_eq_true hyn
    have hstatus := h x' hx' y' hy' (hxe ▸ hxn) (hye ▸ hyn)
    have hkey : x.1 = y.1 := Prod.ext (hxn.trans hyn.symm) (hxe ▸ hye ▸ hstatus)
    exact Prod.ext hkey <| by rw [hxsum, hysum, hkey]
  case refine_3 =>
    by_cases hkey : (name, status) ∈ d.billedByConsultant.map (·.1)
    case pos => exact h _ <| List.mem_filter.mpr ⟨hgroup hkey, decide_eq_true rfl⟩
    case neg =>
      have hnone : d.billedByConsultant.filter (·.1 = (name, status)) = [] := List.filter_eq_nil_iff.mpr fun x hx he =>
        hkey <| List.mem_map.mpr ⟨x, hx, of_decide_eq_true he⟩
      rw [hnone]
      rfl
  case refine_4 =>
    obtain ⟨hx, hxn⟩ := List.mem_filter.mp hx
    have hkey : x.1 = (name, x.1.2) := Prod.ext (of_decide_eq_true hxn) rfl
    rw [(mem_groupSums.mp hx).2, hkey]
    exact h x.1.2

theorem mem_totals {p : Option String × ℤ} : p ∈ byAmount (groupSums d.collectedByConsultant) ↔
    p ∈ groupSums d.collectedByConsultant :=
  (List.perm_insertionSort _ _).mem_iff

-- One row is labelled for the council itself exactly if one of the names is.
theorem direct_iff : ((d.consultantRows groups).filter (·.direct)).length ≤ 1 ↔
    ∀ x ∈ d.collectedByConsultant, ∀ y ∈ d.collectedByConsultant,
      label x.1 = "Council Direct" → label y.1 = "Council Direct" → x.1 = y.1 := by
  have hnodup : (byAmount <| groupSums d.collectedByConsultant).Nodup :=
    (List.perm_insertionSort _ _).nodup_iff.mpr <| .of_map _ groupSums_nodup
  have hgroup {x : Option String × ℤ} (hx : x ∈ d.collectedByConsultant) :
      (x.1, ((d.collectedByConsultant.filter (·.1 = x.1)).map (·.2)).sum) ∈
        byAmount (groupSums d.collectedByConsultant) :=
    mem_totals.mpr <| mem_groupSums.mpr ⟨List.mem_map_of_mem hx, rfl⟩
  rw [consultantRows, List.filter_map, List.length_map, length_le_one_iff (hnodup.filter _)]
  constructor
  case mp =>
    intro h x hx y hy hxl hyl
    have heq := h _ (List.mem_filter.mpr ⟨hgroup hx, decide_eq_true hxl⟩) _
      (List.mem_filter.mpr ⟨hgroup hy, decide_eq_true hyl⟩)
    exact congrArg (·.1) heq
  case mpr =>
    intro h x hx y hy
    obtain ⟨hx, hxl⟩ := List.mem_filter.mp hx
    obtain ⟨hy, hyl⟩ := List.mem_filter.mp hy
    obtain ⟨hxkey, hxsum⟩ := mem_groupSums.mp <| mem_totals.mp hx
    obtain ⟨hykey, hysum⟩ := mem_groupSums.mp <| mem_totals.mp hy
    obtain ⟨x', hx', hxe⟩ := List.mem_map.mp hxkey
    obtain ⟨y', hy', hye⟩ := List.mem_map.mp hykey
    have hkey := h x' hx' y' hy' (hxe ▸ of_decide_eq_true hxl) (hye ▸ of_decide_eq_true hyl)
    rw [hxe, hye] at hkey
    exact Prod.ext hkey <| by rw [hxsum, hysum, hkey]

theorem collected_pos (hpos : ∀ x ∈ d.collectedByConsultant, 0 < x.2) : ∀ r ∈ d.consultantRows groups, 0 < r.collected := by
  refine List.forall_mem_map.mpr fun p hp => ?_
  obtain ⟨hkey, hsum⟩ := mem_groupSums.mp <| mem_totals.mp hp
  obtain ⟨x, hx, hxe⟩ := List.mem_map.mp hkey
  have hmem : x.2 ∈ (d.collectedByConsultant.filter (·.1 = p.1)).map (·.2) :=
    List.mem_map_of_mem <| List.mem_filter.mpr ⟨hx, decide_eq_true hxe⟩
  show 0 < p.2
  rw [hsum]
  refine lt_of_lt_of_le (hpos x hx) <| List.single_le_sum (List.forall_mem_map.mpr fun y hy => ?_) _ hmem
  exact (hpos y (List.mem_filter.mp hy).1).le

end Rows

open Rows in
-- In whatever order the database returns the groups, the rows of the consultants are complete exactly if the
-- names of those who have collected tell the groups apart.
theorem byConsultant_complete_iff {d : Rows}
    (hpos : ∀ {k p}, (d .payment).get k = some p → p.txnStatus = .confirmed → 0 < p.amount.units) :
    (∀ groups : List BilledGroup, groups.Perm (groupSums d.billedByConsultant) → d.Complete groups) ↔ d.Distinct := by
  have hpos : ∀ x ∈ d.collectedByConsultant, 0 < x.2 := by
    refine List.forall_mem_map.mpr fun p hp => ?_
    obtain ⟨hget, hconfirmed⟩ := Table.mem_filter_iff.mp hp
    exact hpos hget <| of_decide_eq_true hconfirmed
  constructor
  case mp =>
    intro h
    constructor
    case statuses =>
      intro x hx
      have hmem : (x.1, ((d.collectedByConsultant.filter (·.1 = x.1)).map (·.2)).sum) ∈
          groupSums d.collectedByConsultant := mem_groupSums.mpr ⟨List.mem_map_of_mem hx, rfl⟩
      have hbilled (groups : List BilledGroup) (hgroups : groups.Perm (groupSums d.billedByConsultant)) :=
        (h groups hgroups).billed _ <| mem_totals.mpr hmem
      exact (billed_iff _).mp hbilled
    case direct => exact direct_iff.mp <| (rollUp_collected_iff <| collected_pos hpos).mp (h _ (.refl _)).rolledUp.1
  case mpr =>
    intro h groups hgroups
    have hdirect := (@direct_iff d groups).mpr h.direct
    constructor
    case collected => exact collected_sum
    case billed =>
      intro p hp
      obtain ⟨hkey, -⟩ := mem_groupSums.mp <| mem_totals.mp hp
      obtain ⟨x, hx, hxe⟩ := List.mem_map.mp hkey
      exact (billed_iff _).mpr (hxe ▸ h.statuses x hx) groups hgroups
    case rolledUp =>
      constructor
      · exact (rollUp_collected_iff <| collected_pos hpos).mpr hdirect
      · rw [sum_rollUp fun _ => rfl, rollUp_of_length hdirect, sum_direct_add_named]

namespace Sample

-- Two firms of one name, an active one and one that has left, have registered a payer each.
def namesakes : Rows
  | .appUser       => Table.empty.insert 1 ⟨"ngozi", "Ngozi Eze", "ngozi@example.org", "", some 1, none, some 1⟩
      |>.insert 2 ⟨"musa", "Musa Bello", "musa@example.org", "", some 1, none, some 2⟩
  | .subConsultant => Table.empty.insert 1 ⟨⟨1, 0, .active, none⟩, "Kuje Revenue Ltd"⟩
      |>.insert 2 ⟨⟨1, 0, .exited, none⟩, "Kuje Revenue Ltd"⟩
  | .payer         => (paidRows .payer).insert 2 {
      payerType := .individual, firstName := "Ife", middleName := "", lastName := "Ojo"
      phone := "0801", email := "", address := "", ward := 1, ninBvnHash := "", tin := ""
      businessSize := none, lineOfBusiness := "", council := 1, payerRef := "IND-0000002"
      enumeratedBy := 2, assignedAgent := none, creditBalance := 0, user := none
    }
  | .bill          => (paidRows .bill).insert 2 {
      council := 1, billRef := "KAC/2017/000002", payer := 2, totalAmount := .naira 50
      amountPaid := 0, arrearsAmount := 0, status := .issued, dueDate := 736360
      supersededBy := none, issuedBy := 1, createdAt := 736330
    }
  | .payment       => paidRows .payment
  | .wardZone      => paidRows .wardZone
  | .billLine | .assessment | .paymentChannel | .fieldAgent | .commissionSettlement | .councilRevenueItem
  | .revenueCategory | .department | .rateSchedule | .rateBand | .rateTier | .consultantPortfolio
  | .agentPortfolio => Table.empty

theorem positive {d : Rows} (h : (d .payment).rows.all fun r => 0 < r.2.amount.units) {k : ℕ} {p : Payment}
    (hp : (d .payment).get k = some p) (_ : p.txnStatus = .confirmed) : 0 < p.amount.units :=
  of_decide_eq_true <| List.all_eq_true.mp h (k, p) <| Table.mem_rows_iff.mpr hp

end Sample

theorem sample_complete : (∀ groups : List Rows.BilledGroup,
    groups.Perm (groupSums Sample.paidRows.billedByConsultant) → Sample.paidRows.Complete groups) ↔
      Sample.paidRows.Distinct :=
  byConsultant_complete_iff (Sample.positive <| by decide +kernel)

set_option maxRecDepth 20000 in
-- The row of the two firms has what has been billed for one of them only.
theorem namesake_overwritten : ¬∀ d : Rows,
    (∀ {k p}, (d .payment).get k = some p → p.txnStatus = .confirmed → 0 < p.amount.units) →
    d.Complete (groupSums d.billedByConsultant) := by
  intro h
  have hcomplete := h Sample.namesakes (Sample.positive <| by decide +kernel)
  have hmem : (some "Kuje Revenue Ltd", 2000) ∈ byAmount (groupSums Sample.namesakes.collectedByConsultant) := by
    decide +kernel
  have hbilled := hcomplete.billed _ hmem
  have hne : (Sample.namesakes.consultantRow (groupSums Sample.namesakes.billedByConsultant)
      (some "Kuje Revenue Ltd", 2000)).billed ≠ Sample.namesakes.billedOf (some "Kuje Revenue Ltd") := by
    decide +kernel
  exact hne hbilled

end ACRev360
