import ACRev360.Objects.Literals
import ACRev360.Services.Settlements

namespace ACRev360

-- A point in time, in microseconds since the start of the 1st of January of year 1 in UTC.
abbrev Timestamp := ℤ

def dayLength : ℤ :=
  86400000000

-- A zone with a fixed offset from UTC.
structure Zone where
  utcOffset : ℤ

namespace Zone

variable (z : Zone)

-- The local midnight a day begins with: make_aware of datetime.combine with time.min.
def midnight (day : Date) : Timestamp :=
  ((day : ℤ) - 1) * dayLength - z.utcOffset

-- date_span_bounds
def dateSpanBounds (day : Date) : Except Error (Timestamp × Timestamp) :=
  if day < Date.max then .ok (z.midnight day, z.midnight (day + 1)) else .error .overflowError

-- The window of a period, its last day included.
def window (periodStart periodEnd : Date) : Except Error (Timestamp × Timestamp) := do
  let windowStart ← z.dateSpanBounds periodStart
  let windowEnd ← z.dateSpanBounds periodEnd
  return (windowStart.1, windowEnd.2)

-- `gross` of compute_settlements, of payments that have been made at `createdAt`.
def gross (s : Db) (createdAt : ℕ → Timestamp) (council consultant : ℕ) (periodStart periodEnd : Date) :
    Except Error ℤ := do
  let w ← z.window periodStart periodEnd
  return (s.table .payment).sum fun k p =>
    if p.council = council && ((s.table .bill).get p.bill).any (·.council = council) &&
        consultantOf s p.bill = some consultant && p.txnStatus = .confirmed &&
        w.1 ≤ createdAt k && createdAt k < w.2 then p.amount.units else 0

end Zone

-- The parameters of a query string.
abbrev Params := String → Option String

-- What a filter raises: serializers.ValidationError with a text for the parameter, the ValidationError of Django,
-- and what a bound raises.
inductive FilterError where
  | validationError (name text : String)
  | djangoValidationError
  | raised (e : Error)

section Filters

variable {α : Type} (params : Params) (name : String)

-- A parameter that is absent or empty does not filter.
def parseParam (convert : String → Option α) (text : String) : Except FilterError (Option α) :=
  match params name with
  | none     => .ok none
  | some raw =>
    if raw = "" then .ok none
    else match convert raw with
      | some a => .ok <| some a
      | none   => .error <| .validationError name text

-- parse_int
def parseInt : Except FilterError (Option ℤ) :=
  parseParam params name int "Must be an integer."

-- parse_date
def parseDate : Except FilterError (Option Date) :=
  parseParam params name fromisoformat "Must be an ISO date (YYYY-MM-DD)."

-- parse_decimal
def parseDecimal : Except FilterError (Option DecimalLiteral) :=
  parseParam params name decimal "Must be a number."

-- parse_date, and date_span_bounds of the day.
def dateBound (z : Zone) : Except FilterError (Option (Timestamp × Timestamp)) := do
  match ← parseDate params name with
  | none     => return none
  | some day => (z.dateSpanBounds day |>.mapError .raised).map some

-- DecimalField.to_python
def toPython (value : DecimalLiteral) : Except FilterError DecimalLiteral :=
  if value.isFinite then .ok value else .error .djangoValidationError

-- parse_decimal, and the comparison with a DecimalField.
def decimalBound : Except FilterError (Option DecimalLiteral) := do
  match ← parseDecimal params name with
  | none       => return none
  | some value => (toPython value).map some

-- apply_date_range
def applyDateRange (z : Zone) : Except FilterError (Option Timestamp × Option Timestamp) := do
  let dateFrom ← dateBound params "date_from" z
  let dateTo ← dateBound params "date_to" z
  return (dateFrom.map (·.1), dateTo.map (·.2))

end Filters

end ACRev360
