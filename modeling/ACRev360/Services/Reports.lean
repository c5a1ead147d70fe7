import ACRev360.Services.CacheKeys
import ACRev360.Services.Settlements

namespace ACRev360

-- The dimensions of a report on bills.
inductive Dimension where
  | ward | revenueItem | consultant | date
deriving DecidableEq

structure ReportFilters where
  dateFrom      : Option Date
  dateTo        : Option Date
  wardId        : Option ℤ
  consultantId  : Option ℤ
  revenueItemId : Option ℤ
deriving DecidableEq

inductive Label where
  | date (d : Date)
  | text (t : Option String)
deriving DecidableEq

-- Amounts are in kobo; a report writes them with two decimals.
structure Measures where
  count   : ℕ
  billed  : ℤ
  arrears : Option ℤ
  balance : Option ℤ
deriving DecidableEq

structure ReportRow where
  labels   : List (Dimension × Option String)
  measures : Measures
deriving DecidableEq

-- _format_row
def formatLabel : Dimension → Label → Option String
  | _, .date d                 => some d.isoformat
  | _, .text (some t)          => some t
  | .consultant, .text none    => some "Council Direct"
  | _, .text none              => none

def valuesFields (groupBy : List Dimension) : List Dimension :=
  (if .date ∈ groupBy then [.date] else []) ++ (groupBy.filter (· ≠ .date)).dedup

-- _aggregate
def aggregate {α : Type} (qs : List α) (groupBy : List Dimension) (label : α → Dimension → Label)
    (aggregates : List α → Measures) : List ReportRow :=
  if groupBy = [] then [⟨[], aggregates qs⟩]
  else
    let fields := valuesFields groupBy
    (qs.map fun a => fields.map (label a)).dedup.map fun values => {
      labels   := (fields.zip values).map fun (dim, value) => (dim, formatLabel dim value)
      measures := aggregates <| qs.filter fun a => fields.map (label a) = values
    }

-- The bounds that `date_span_bounds` gives for the dates of the filters, if there are both.
def ReportFilters.bounds (f : ReportFilters) : Option (Option Date × Option Date) := do
  let start ← f.dateFrom.mapM fun day => if day < Date.max then some day else none
  let stop ← f.dateTo.mapM fun day => if day < Date.max then some (day + 1) else none
  return (start, stop)

-- A filter by an id, which 0 leaves out.
def byId (filter : Option ℤ) (id : Option ℕ) : Bool :=
  (filter.filter (· ≠ 0)).all fun n => id.any fun k => (k : ℤ) = n

namespace Rows

variable (d : Rows)

-- The bills of a report, but for the filter by revenue item.
def reportBills (user : Caller) (f : ReportFilters) : Option (List (ℕ × Bill)) := do
  let (start, stop) ← f.bounds
  return (d .bill).filter fun _ b => !b.status.terminal &&
    ((d .payer).get b.payer).any (fun p => d.portfolioFilter user p && byId f.wardId (some p.ward) &&
      byId f.consultantId (d.firmOf p.enumeratedBy)) &&
    start.all (· ≤ b.createdAt) && stop.all (b.createdAt < ·)

def linesOf (bill : ℕ) : List (ℕ × BillLine) :=
  (d .billLine).filter fun _ l => l.bill = bill

def itemOf (l : BillLine) : Option (ℕ × CatalogueItem) := do
  let assessment ← (d .assessment).get l.assessment
  let item ← (d .councilRevenueItem).get assessment.item
  return (assessment.item, item)

def billLabel (b : Bill) (item : Option String) : Dimension → Label
  | .ward        => .text <| ((d .payer).get b.payer).bind fun p => (d .wardZone).get p.ward
  | .consultant  => .text <| (((d .payer).get b.payer).bind d.consultantOf).map (·.consultantName)
  | .revenueItem => .text item
  | .date        => .date b.createdAt

-- _bills_report
def billsReport (user : Caller) (f : ReportFilters) (groupBy : List Dimension) : Option (List ReportRow) := do
  let bills ← d.reportBills user f
  let ofItem (l : BillLine) := byId f.revenueItemId ((d.itemOf l).map (·.1))
  if .revenueItem ∈ groupBy then
    let lines := bills.flatMap fun b => ((d.linesOf b.1).filter fun l => ofItem l.2).map fun l => (b, l.2)
    return aggregate lines groupBy (fun l => d.billLabel l.1.2 <| (d.itemOf l.2).map (·.2.itemName)) fun ls => {
      count   := (ls.map (·.1.1)).dedup.length
      billed  := (ls.map (·.2.lineAmount.units)).sum
      arrears := none
      balance := none
    }
  else
    let bills := bills.filter fun b => f.revenueItemId.all (· = 0) || (d.linesOf b.1).any fun l => ofItem l.2
    return aggregate bills groupBy (fun b => d.billLabel b.2 none) fun bs => {
      count   := bs.length
      billed  := (bs.map fun b => Rows.billed b.2).sum
      arrears := some (bs.map (·.2.arrearsAmount.units)).sum
      balance := some (bs.map fun b => b.2.totalAmount.units - b.2.amountPaid.units).sum
    }

-- The dashboard's figures per item, before they are cut to the largest ones.
def billedByItem (v : Viewer) : List (String × ℤ) :=
  byAmount <| groupSums <| (d.liveBills v).flatMap fun b =>
    (d.linesOf b.1).filterMap fun l => (d.itemOf l.2).map fun i => (i.2.itemName, l.2.lineAmount.units)

end Rows

end ACRev360
