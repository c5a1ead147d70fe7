import ACRev360.Services.Channels

namespace ACRev360

open Relational

-- NO_FEED_EXPECTED
def ChannelCode.noFeedExpected : ChannelCode → Bool
  | cash => true
  | pos | otc | ibMb | ussd | firstmonie => false

structure ReconciliationRequest where
  council : ℕ
  channel : Loaded PaymentChannel
  runDate : Date
  actor   : ℕ

namespace ReconciliationRequest

variable (r : ReconciliationRequest)

def covers (p : Payment) : Bool :=
  p.council = r.council && p.channel = r.channel.id && p.txnStatus = .confirmed && p.createdAt = r.runDate

def payments (s : Db) : List (ℕ × Payment) :=
  (s.table .payment).filter fun _ p => r.covers p

def receives (f : ChannelTransactionFeed) : Bool :=
  f.council = r.council && f.channel = r.channel.id && f.receivedAt = r.runDate

def feedRows (s : Db) : List (ℕ × ChannelTransactionFeed) :=
  (s.table .feed).filter fun _ f => r.receives f

-- The first payment with the reference and the amount of the feed row.
def matching (s : Db) (f : ChannelTransactionFeed) : Option ℕ :=
  (s.table .payment).first (fun _ p => r.covers p && p.bankTxnRef = f.bankTxnRef.val && p.amount = f.amount)
    |>.map (·.1)

def runOf (s : Db) : Option ℕ :=
  (s.table .reconciliationRun).first (fun _ x =>
    x.council = r.council && x.channel = r.channel.id && x.runDate = r.runDate) |>.map (·.1)

end ReconciliationRequest

-- The payment of each feed row, by its primary key.
abbrev Matches := List (ℕ × Option ℕ)

-- The database adds up the amounts of the platform, and `Decimal` those of the bank.

def platformTotal (payments : List (ℕ × Payment)) : ℚ :=
  (payments.map fun p => p.2.amount.toRat).sum

def bankTotal (feedRows : List (ℕ × ChannelTransactionFeed)) : ℚ :=
  feedRows.foldl (fun total f => Decimal.round (total + f.2.amount.toRat)) 0

-- `_match_feed_rows_for_channel`
def matchFeedRowsForChannel (r : ReconciliationRequest) : Service (ℚ × Matches × List (ℕ × ChannelTransactionFeed)) := do
  let feedRows ← query r.feedRows
  let matched ← feedRows.mapM fun f => do return (f.1, ← query fun s => r.matching s f.2)
  return (bankTotal feedRows, matched, feedRows.filter fun f => (matched.lookup f.1).join.isNone)

-- `_match_feed_rows`
def matchFeedRows (r : ReconciliationRequest) :
    Service (ℚ × ℚ × Matches × List (ℕ × ChannelTransactionFeed)) := do
  let totalPlatform ← query fun s => platformTotal (r.payments s)
  let (totalBank, matched, unmatchedRows) ← matchFeedRowsForChannel r
  return (totalPlatform, totalBank, matched, unmatchedRows)

def createRun (r : ReconciliationRequest) (totalPlatform totalBank : ℚ) : Service ℕ := do
  let totalPlatform ← store totalPlatform
  let totalBank ← store totalBank
  create .reconciliationRun {
    council := r.council, channel := r.channel.id, runDate := r.runDate, totalPlatform, totalBank
    status := .opened, runBy := r.actor
  }

-- `update_or_create` of the run, which locks the one that there is.
def openRun (r : ReconciliationRequest) (totalPlatform totalBank : ℚ) : Service ℕ := do
  let (run, created) ← getOrCreate r.runOf (createRun r totalPlatform totalBank)
  if created then return run
  let _ ← forUpdate .reconciliationRun run
  let totalPlatform ← store totalPlatform
  let totalBank ← store totalBank
  save .reconciliationRun run fun x => { x with totalPlatform, totalBank, status := .opened, runBy := r.actor }
  return run

def exceptionsOf (s : Db) (run : ℕ) : List ℕ :=
  (s.table .reconciliationException).filter (fun _ x => x.run = run) |>.map (·.1)

-- The feed row is matched, or an exception, of which there are `count` before it.
def reconcileRow (r : ReconciliationRequest) (run : ℕ) (matched : Matches) (count : ℕ)
    (row : ℕ × ChannelTransactionFeed) : Service ℕ := do
  match (matched.lookup row.1).join with
  | some payment =>
    matchPayment row.1 payment
    return count
  | none =>
    setMatchStatus row.1 .exception
    let _ ← create .reconciliationException {
      council := r.council, run, feedRow := some row.1, payment := none
      note := "No matching platform payment found for this bank reference/amount"
    }
    return count + 1

def runReconciliation (r : ReconciliationRequest) : Service ℕ := do
  if r.channel.row.code.noFeedExpected then refuse <| .noFeed r.channel.row.code
  let (totalPlatform, totalBank, matched, _) ← matchFeedRows r
  let run ← openRun r totalPlatform totalBank
  let stale ← query fun s => exceptionsOf s run
  stale.forM fun k => delete .reconciliationException k
  let feedRows ← query r.feedRows
  let count ← feedRows.foldlM (reconcileRow r run matched) 0
  save .reconciliationRun run fun x => { x with status := if count = 0 then .balanced else .exceptions }
  return run

structure LiveSummary where
  runDate          : Date
  totalPlatform    : ℚ
  totalBank        : ℚ
  unmatchedCredits : List (ℕ × ChannelTransactionFeed)
deriving DecidableEq

def feedChannels (s : Db) : List (Loaded PaymentChannel) :=
  (s.table .channel).filter (fun _ c => !c.code.noFeedExpected) |>.map fun c => ⟨c.1, c.2⟩

-- The confirmed payments of the day, whatever their channel.
def paymentsOf (council : ℕ) (runDate : Date) (s : Db) : List (ℕ × Payment) :=
  (s.table .payment).filter fun _ p => p.council = council && p.txnStatus = .confirmed && p.createdAt = runDate

-- `live_reconciliation_summary`. Nobody runs anything, so the actor of the matching is immaterial.
def liveReconciliationSummary (today : Date) (council : ℕ) (runDate : Option Date) : Service LiveSummary := do
  let runDate := runDate.getD today
  let totalPlatform ← query fun s => platformTotal (paymentsOf council runDate s)
  let channels ← query feedChannels
  let (totalBank, unmatchedCredits) ← channels.foldlM (fun (totalBank, unmatchedCredits) channel => do
    let (channelBankTotal, _, unmatchedRows) ← matchFeedRowsForChannel { council, channel, runDate, actor := 0 }
    return (Decimal.round (totalBank + channelBankTotal), unmatchedCredits ++ unmatchedRows)) (0, [])
  return { runDate, totalPlatform, totalBank, unmatchedCredits }

end ACRev360
