import ACRev360.Library.Grouping
import ACRev360.Services.Reports
import ACRev360.Theorems.ReadModels
import ACRev360.Theorems.Structure

namespace ACRev360

open Relational

section Sums

variable {α κ : Type} [DecidableEq κ] {l : List ℤ}

theorem sum_eq_zero_iff_of_nonneg (h : ∀ x ∈ l, 0 ≤ x) : l.sum = 0 ↔ ∀ x ∈ l, x = 0 := by
  induction l with
  | nil => simp
  | cons x l hi =>
    rw [List.forall_mem_cons] at h
    have hl := List.sum_nonneg h.2
    have hx := h.1
    rw [List.sum_cons, List.forall_mem_cons, ← hi h.2]
    omega

theorem sum_map_flatMap {β : Type} {l : List α} {f : α → List β} {g : β → ℤ} :
    ((l.flatMap f).map g).sum = (l.map fun a => ((f a).map g).sum).sum := by
  induction l with
  | nil => rfl
  | cons a l hi => rw [List.flatMap_cons, List.map_append, List.sum_append, hi, List.map_cons, List.sum_cons]

theorem sum_groupSums {l : List (κ × ℤ)} : ((groupSums l).map (·.2)).sum = (l.map (·.2)).sum := by
  rw [groupSums, List.map_map]
  exact sum_fibers (List.nodup_dedup _) fun a ha => List.mem_dedup.mpr <| List.mem_map_of_mem ha

theorem sum_byAmount {l : List (α × ℤ)} : ((byAmount l).map (·.2)).sum = (l.map (·.2)).sum :=
  ((List.perm_insertionSort _ l).map _).sum_eq

-- However the rows of a report are grouped, what is billed in them adds up to what was to be grouped.
theorem sum_aggregate {qs : List α} {groupBy : List Dimension} {label : α → Dimension → Label}
    {aggregates : List α → Measures} {amount : α → ℤ} (h : ∀ l, (aggregates l).billed = (l.map amount).sum) :
    ((aggregate qs groupBy label aggregates).map (·.measures.billed)).sum = (qs.map amount).sum := by
  rw [aggregate]
  split
  case isTrue => simp [h]
  case isFalse =>
    simp only [List.map_map, Function.comp_def, h]
    exact sum_fibers (List.nodup_dedup _) fun a ha => List.mem_dedup.mpr <| List.mem_map_of_mem ha

end Sums

-- The totals of the bills are those of their lines, which are of some item each.
structure Rows.Balanced (d : Rows) : Prop where
  total   : ∀ {k b}, (d .bill).get k = some b →
    b.totalAmount.units = ((d.linesOf k).map (·.2.lineAmount.units)).sum
  arrears : ∀ {k b}, (d .bill).get k = some b → 0 ≤ b.arrearsAmount.units
  item    : ∀ {k l}, (d .billLine).get k = some l → (d.itemOf l).isSome

section Balanced

variable {d : Rows} {user : Caller} {f : ReportFilters} {v : Viewer} {today : Date} {bills : List (ℕ × Bill)}

def billedIn (rows : List ReportRow) : ℤ :=
  (rows.map (·.measures.billed)).sum

-- What is billed does not depend on how the report is grouped.
def GroupingIrrelevant (d : Rows) (user : Caller) (f : ReportFilters) : Prop :=
  ∀ ⦃g g' rows rows'⦄, g.length ≤ 2 → g'.length ≤ 2 → d.billsReport user f g = some rows →
    d.billsReport user f g' = some rows' → billedIn rows = billedIn rows'

-- The lines of the bills bill the arrears again.
theorem sum_lines (h : d.Balanced) (hbills : ∀ b ∈ bills, (d .bill).get b.1 = some b.2) :
    (bills.map fun b => ((d.linesOf b.1).map (·.2.lineAmount.units)).sum).sum =
      (bills.map fun b => Rows.billed b.2).sum + (bills.map (·.2.arrearsAmount.units)).sum := by
  rw [← List.sum_map_add]
  refine congrArg _ <| List.map_congr_left fun b hb => ?_
  rw [← h.total (hbills b hb), Rows.billed]
  omega

theorem lines_iff (h : d.Balanced) (hbills : ∀ b ∈ bills, (d .bill).get b.1 = some b.2) :
    (bills.map fun b => ((d.linesOf b.1).map (·.2.lineAmount.units)).sum).sum = (bills.map fun b => Rows.billed b.2).sum ↔
      ∀ b ∈ bills, b.2.arrearsAmount.units = 0 := by
  have hzero := sum_eq_zero_iff_of_nonneg (l := bills.map (·.2.arrearsAmount.units)) <|
    List.forall_mem_map.mpr fun b hb => h.arrears (hbills b hb)
  rw [List.forall_mem_map] at hzero
  rw [sum_lines h hbills, ← hzero]
  omega

theorem get_of_reportBills (h : d.reportBills user f = some bills) : ∀ b ∈ bills, (d .bill).get b.1 = some b.2 := by
  obtain ⟨_, _, hbills⟩ := Option.bind_eq_some_iff.mp h
  obtain rfl := Option.some.inj hbills
  exact fun b hb => (Table.mem_filter_iff.mp hb).1

theorem exists_billsReport (h : d.reportBills user f = some bills) (g : List Dimension) :
    ∃ rows, d.billsReport user { f with revenueItemId := none } g = some rows := by
  have h : d.reportBills user { f with revenueItemId := none } = some bills := h
  rw [Rows.billsReport, h, Option.bind_eq_bind, Option.bind_some]
  split <;> exact ⟨_, rfl⟩

theorem billedIn_billsReport {g : List Dimension} {rows : List ReportRow}
    (h : d.billsReport user { f with revenueItemId := none } g = some rows) :
    ∃ bills, d.reportBills user f = some bills ∧ billedIn rows = if .revenueItem ∈ g
      then (bills.map fun b => ((d.linesOf b.1).map (·.2.lineAmount.units)).sum).sum
      else (bills.map fun b => Rows.billed b.2).sum := by
  obtain ⟨bills, hbills, hrows⟩ := Option.bind_eq_some_iff.mp h
  refine ⟨bills, hbills, ?_⟩
  simp only at hrows
  split at hrows
  case isTrue hg =>
    rw [if_pos hg, ← Option.some.inj hrows, billedIn, sum_aggregate fun _ => rfl]
    rw [sum_map_flatMap]
    refine congrArg _ <| List.map_congr_left fun b _ => ?_
    simp [byId, List.map_map, Function.comp_def]
  case isFalse hg =>
    rw [if_neg hg, ← Option.some.inj hrows, billedIn, sum_aggregate fun _ => rfl]
    simp

theorem billedByItem_sum (h : d.Balanced) : ((d.billedByItem v).map (·.2)).sum =
    ((d.liveBills v).map fun b => ((d.linesOf b.1).map (·.2.lineAmount.units)).sum).sum := by
  rw [Rows.billedByItem, sum_byAmount, sum_groupSums, sum_map_flatMap]
  refine congrArg _ <| List.map_congr_left fun b _ => ?_
  have hitems : (d.linesOf b.1).filterMap (fun l => (d.itemOf l.2).map fun i => (i.2.itemName, l.2.lineAmount.units)) =
      (d.linesOf b.1).map fun l => ((d.itemOf l.2).elim "" (·.2.itemName), l.2.lineAmount.units) := by
    rw [← List.filterMap_eq_map]
    refine List.filterMap_congr fun l hl => ?_
    obtain ⟨i, hi⟩ := Option.isSome_iff_exists.mp <| h.item (Table.mem_filter_iff.mp hl).1
    simp [hi]
  rw [hitems, List.map_map]
  rfl

-- The dashboard shows the largest of the figures per item.
theorem summary_byItem : (d.summary v today).byItem = (d.billedByItem v).take 5 := by
  have hitem (l : BillLine) : (do
      let assessment ← (d .assessment).get l.assessment
      let item ← (d .councilRevenueItem).get assessment.item
      return (item.itemName, l.lineAmount.units)) = (d.itemOf l).map fun i => (i.2.itemName, l.lineAmount.units) := by
    rw [Rows.itemOf]
    cases (d .assessment).get l.assessment with
    | none => rfl
    | some a =>
      simp only [Option.bind_eq_bind, Option.bind_some]
      cases (d .councilRevenueItem).get a.item <;> rfl
  simp only [Rows.summary, hitem]
  rfl

-- In a state that the services lead to, the rows of a council balance.
theorem Structured.balanced {s : Db} (hs : Structured s)
    (hbill : ∀ {k b}, (d .bill).get k = some b → (s.table .bill).get k = some b)
    (hline : ∀ {k b}, (d .bill).get k = some b →
      ∀ i l, l.bill = k → ((d .billLine).get i = some l ↔ (s.table .line).get i = some l))
    (hitem : ∀ {k l}, (d .billLine).get k = some l → (d.itemOf l).isSome) : d.Balanced where
  total {k b} hb := by
    rw [(hs.bill <| hbill hb).2, Db.lineTotal, Rows.linesOf]
    refine Eq.trans ?_ (Table.sum_filter (f := fun _ (l : BillLine) => l.lineAmount.units)).symm
    simp only [decide_eq_true_eq]
    refine Table.sum_eq_of_iff fun i l hl => (hline hb i l ?_).symm
    split at hl
    case isTrue hlk => exact hlk
    case isFalse => contradiction
  arrears {k b} hb := by
    rw [(hs.bill <| hbill hb).1, Db.arrearsTotal]
    refine List.sum_nonneg <| List.forall_mem_map.mpr fun r hr => ?_
    simp only
    split
    case isTrue => exact (hs.line <| Table.mem_rows_iff.mp hr).2.2
    case isFalse => exact le_rfl
  item := hitem

end Balanced

-- Grouping by item bills the arrears of consolidated bills once more, in the report and on the dashboard.
theorem billed_grouping_iff {d : Rows} {user : Caller} {f : ReportFilters} {v : Viewer} {today : Date}
    (h : d.Balanced) :
    (GroupingIrrelevant d user { f with revenueItemId := none } ↔
      ∀ bills, d.reportBills user f = some bills → ∀ b ∈ bills, b.2.arrearsAmount.units = 0) ∧
    (((d.billedByItem v).map (·.2)).sum = (d.summary v today).billed ↔
      ∀ b ∈ d.liveBills v, b.2.arrearsAmount.units = 0) := by
  constructor
  case right =>
    rw [billedByItem_sum h]
    exact lines_iff h fun b hb => (Table.mem_filter_iff.mp hb).1
  case left =>
    constructor
    case mp =>
      intro hsame bills hbills
      obtain ⟨rows, hrows₁⟩ := exists_billsReport hbills []
      obtain ⟨rows', hrows₂⟩ := exists_billsReport hbills [.revenueItem]
      obtain ⟨bills₁, hbills₁, hbilled₁⟩ := billedIn_billsReport hrows₁
      obtain ⟨bills₂, hbills₂, hbilled₂⟩ := billedIn_billsReport hrows₂
      obtain rfl := Option.some.inj <| hbills.symm.trans hbills₁
      obtain rfl := Option.some.inj <| hbills.symm.trans hbills₂
      have heq := hsame (by simp) (by simp) hrows₂ hrows₁
      rw [hbilled₁, hbilled₂] at heq
      exact (lines_iff h <| get_of_reportBills hbills).mp heq
    case mpr =>
      intro harrears g g' rows rows' _ _ hrows hrows'
      obtain ⟨bills, hbills, hbilled⟩ := billedIn_billsReport hrows
      obtain ⟨bills', hbills', hbilled'⟩ := billedIn_billsReport hrows'
      obtain rfl := Option.some.inj <| hbills.symm.trans hbills'
      have heq := (lines_iff h <| get_of_reportBills hbills).mpr <| harrears bills hbills
      rw [hbilled, hbilled', heq]
      split <;> split <;> rfl

namespace Sample

-- A bill of 20 for shops with 30 of arrears for kiosks.
def rolledRows : Rows
  | .appUser            => Table.empty.insert 1 ⟨"ngozi", "Ngozi Eze", "ngozi@example.org", "", some 1, none, some 1⟩
  | .payer              => paidRows .payer
  | .bill               => Table.empty.insert 2 {
      council := 1, billRef := "KAC/2017/000002", payer := 1, totalAmount := .naira 50, amountPaid := 0
      arrearsAmount := .naira 30, status := .issued, dueDate := 736360, supersededBy := none, issuedBy := 1
      createdAt := 736330
    }
  | .billLine           => Table.empty.insert 1 ⟨2, 1, .naira 20, .naira 20, 0, 0⟩
      |>.insert 2 ⟨2, 2, .naira 30, 0, .naira 30, 1⟩
  | .assessment         => Table.empty.insert 1 ⟨1, 1, 1, none, none, none, ⟨100, by decide⟩, .naira 20, .billed, 1⟩
      |>.insert 2 ⟨1, 1, 2, none, none, none, ⟨100, by decide⟩, .naira 30, .billed, 1⟩
  | .councilRevenueItem => Table.empty.insert 1 ⟨⟨1, "SHOP", true⟩, none, "Shop licence", 1, "Shop", none⟩
      |>.insert 2 ⟨⟨1, "KIOSK", true⟩, none, "Kiosk licence", 1, "Kiosk", none⟩
  | .wardZone           => Table.empty.insert 1 "Gaube"
  | .payment | .paymentChannel | .fieldAgent | .subConsultant | .commissionSettlement | .revenueCategory
  | .department | .rateSchedule | .rateBand | .rateTier | .consultantPortfolio | .agentPortfolio => Table.empty

def admin : Caller :=
  ⟨1, some 1, some .councilAdmin, none⟩

def noFilters : ReportFilters :=
  ⟨none, none, none, none, none⟩

set_option maxRecDepth 20000 in
theorem rolledRows_balanced : rolledRows.Balanced := by
  have htotal : (rolledRows .bill).rows.all fun r =>
      r.2.totalAmount.units = ((rolledRows.linesOf r.1).map (·.2.lineAmount.units)).sum ∧ 0 ≤ r.2.arrearsAmount.units := by
    decide +kernel
  have hitem : (rolledRows .billLine).rows.all fun r => (rolledRows.itemOf r.2).isSome := by decide +kernel
  constructor
  case total =>
    exact fun hb => (of_decide_eq_true <| List.all_eq_true.mp htotal _ <| Table.mem_rows_iff.mpr hb).1
  case arrears =>
    exact fun hb => (of_decide_eq_true <| List.all_eq_true.mp htotal _ <| Table.mem_rows_iff.mpr hb).2
  case item => exact fun hl => List.all_eq_true.mp hitem _ <| Table.mem_rows_iff.mpr hl

end Sample

theorem sample_grouping : (GroupingIrrelevant Sample.rolledRows Sample.admin { Sample.noFilters with revenueItemId := none } ↔
      ∀ bills, Sample.rolledRows.reportBills Sample.admin Sample.noFilters = some bills →
        ∀ b ∈ bills, b.2.arrearsAmount.units = 0) ∧
    (((Sample.rolledRows.billedByItem Sample.admin.viewer).map (·.2)).sum =
        (Sample.rolledRows.summary Sample.admin.viewer 736330).billed ↔
      ∀ b ∈ Sample.rolledRows.liveBills Sample.admin.viewer, b.2.arrearsAmount.units = 0) :=
  billed_grouping_iff Sample.rolledRows_balanced

set_option maxRecDepth 20000 in
-- Not grouped, the report says that 20 have been billed, and grouped by item, that 50 have.
theorem arrears_billed_again : ¬∀ (d : Rows) (user : Caller) (f : ReportFilters) (today : Date), d.Balanced →
    GroupingIrrelevant d user { f with revenueItemId := none } ∧
      ((d.billedByItem user.viewer).map (·.2)).sum = (d.summary user.viewer today).billed := by
  intro h
  have hbilled : (Sample.rolledRows.billsReport Sample.admin Sample.noFilters []).map billedIn = some 2000 := by
    decide +kernel
  have hbyItem : (Sample.rolledRows.billsReport Sample.admin Sample.noFilters [.revenueItem]).map billedIn = some 5000 := by
    decide +kernel
  obtain ⟨rows, hrows, hsum⟩ := Option.map_eq_some_iff.mp hbilled
  obtain ⟨rows', hrows', hsum'⟩ := Option.map_eq_some_iff.mp hbyItem
  have hsame := (h _ Sample.admin Sample.noFilters 736330 Sample.rolledRows_balanced).1 (by simp) (by simp) hrows hrows'
  omega

end ACRev360
