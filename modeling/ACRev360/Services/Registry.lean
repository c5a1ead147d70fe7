import ACRev360.Objects.Json
import ACRev360.Services.Billing

namespace ACRev360

open Relational

def payerByPhone (s : Db) (council : ℕ) (phone : String) : Option ℕ :=
  (s.table .payer).first (fun _ p => p.council = council && p.phone = phone) |>.map (·.1)

def payerRef (payerType : PayerType) (payer : ℕ) : String :=
  if payerType = .individual then s!"IND-{pad 7 payer}" else s!"C-{pad 7 payer}"

-- `extra` tells that the keywords have one that is no column of a payer.
def createPayer (council actor : ℕ) (items : List (Loaded RevenueItem)) (force : Bool)
    (enumeratedBy : Option ℕ) (fields : PayerFields) (extra : Bool) : Service (ℕ × ℕ) := do
  if fields.phone ≠ "" && !force then
    if let some existing ← select (fun s => payerByPhone s council fields.phone)
        [.phone council fields.phone] then
      refuse <| .duplicatePayer existing
  let fields := if fields.payerType = .individual then { fields with businessSize := none } else fields
  if extra then refuse .typeError
  let payer ← create .payer {
    fields with
    council, payerRef := placeholderRef, enumeratedBy := enumeratedBy.getD actor, assignedAgent := none
    creditBalance := 0, user := none
  }
  save .payer payer fun p => { p with payerRef := payerRef fields.payerType payer }
  items.forM fun item => do
    let _ ← createDraftAssessment payer council actor ⟨item, 1, none, none, none⟩
  return (payer, items.length)

end ACRev360
