import ACRev360.Theorems.Reconciliation

namespace ACRev360

open Relational Relational.Database

-- The live summary of a day against the runs of its channels.

variable {s t u : Db} {r r' : ReconciliationRequest} {run : ℕ}

-- Rounding leaves a whole number of kobo.
theorem exists_round_kobo (z : ℤ) : ∃ y, Decimal.round (kobo z) = kobo y := by
  by_cases hz : z.natAbs < 10 ^ 28
  case pos => exact ⟨z, round_kobo hz⟩
  case neg =>
    have hle : (10 : ℚ) ^ (26 : ℤ) ≤ |kobo z| := by
      have : ((10 : ℤ) ^ 28) ≤ |z| := by
        rw [Int.abs_eq_natAbs]
        omega
      rw [kobo, abs_div, abs_of_pos (by norm_num : (0 : ℚ) < 100), le_div_iff₀ (by norm_num)]
      have hcast : ((10 : ℚ) ^ 28) ≤ |(z : ℚ)| := by exact_mod_cast this
      norm_num at hcast ⊢
      exact hcast
    have hpos : 0 < |kobo z| := lt_of_lt_of_le (by norm_num) hle
    have hlog : 26 ≤ Int.log 10 |kobo z| := (Int.zpow_le_iff_le_log (by norm_num) hpos).mp (by exact_mod_cast hle)
    obtain ⟨n, hn⟩ := Int.eq_ofNat_of_zero_le (by omega : 0 ≤ Int.log 10 |kobo z| - (28 - 1) + 2)
    have he : Int.log 10 |kobo z| - (28 - 1) = n - 2 := by omega
    refine ⟨roundHalfEven (kobo z / 10 ^ ((n : ℤ) - 2)) * 10 ^ n, ?_⟩
    simp only [Decimal.round, Decimal.precision, Nat.cast_ofNat, he]
    generalize roundHalfEven (kobo z / 10 ^ ((n : ℤ) - 2)) = y
    rw [kobo, zpow_sub₀ (by norm_num), zpow_natCast]
    push_cast
    ring

theorem exists_bankTotal (rows : List (ℕ × ChannelTransactionFeed)) : ∃ z, bankTotal rows = kobo z := by
  unfold bankTotal
  have loop (y : ℤ) : ∃ z, rows.foldl (fun total f => Decimal.round (total + f.2.amount.toRat)) (kobo y) = kobo z := by
    induction rows generalizing y with
    | nil => exact ⟨y, rfl⟩
    | cons f rows hi =>
      have ⟨z, hz⟩ := exists_round_kobo (y + f.2.amount.units)
      rw [List.foldl_cons, Money.toRat_eq_kobo, kobo_add, hz]
      exact hi z
  rw [← kobo_zero]
  exact loop 0

section Feed

-- What a run makes of a feed row.
def ReconciliationRequest.settled (r : ReconciliationRequest) (s : Db) (f : ChannelTransactionFeed) :
    ChannelTransactionFeed :=
  if r.receives f then settle (r.matching s f) f else f

theorem ReconciliationRequest.receives_settled {f : ChannelTransactionFeed} : r'.receives (r.settled s f) = r'.receives f := by
  unfold settled
  split
  · cases r.matching s f <;> rfl
  · rfl

-- The same payments match it afterwards.
theorem ReconciliationRequest.matching_settled {f : ChannelTransactionFeed}
    (h : t.table .payment = s.table .payment) : r'.matching t (r.settled s f) = r'.matching s f := by
  unfold matching settled
  rw [h]
  split
  · cases r.matching s f <;> rfl
  · rfl

theorem ReconciliationRequest.amount_settled {f : ChannelTransactionFeed} : (r.settled s f).amount = f.amount := by
  unfold settled
  split
  · cases r.matching s f <;> rfl
  · rfl

namespace Filed

variable {rows : List (ℕ × ChannelTransactionFeed)}

theorem feedRows (h : Filed r run s t) (r' : ReconciliationRequest) :
    r'.feedRows t = (r'.feedRows s).map fun f => (f.1, r.settled s f.2) :=
  Table.filter_eq_map h.feed fun _ _ => ReconciliationRequest.receives_settled

theorem payments (h : Filed r run s t) : t.table .payment = s.table .payment :=
  h.only .payment (by simp)

-- Other runs find the same.
theorem unmatched (h : Filed r run s t) (r' : ReconciliationRequest) :
    (r'.unmatched t).map (·.1) = (r'.unmatched s).map (·.1) := by
  rw [ReconciliationRequest.unmatched, ReconciliationRequest.unmatched, h.feedRows, List.filter_map, List.map_map]
  refine congrArg _ <| List.filter_congr fun f _ => ?_
  rw [Function.comp_apply, ReconciliationRequest.matching_settled h.payments]

theorem bankTotal (h : Filed r run s t) (r' : ReconciliationRequest) :
    bankTotal (r'.feedRows t) = bankTotal (r'.feedRows s) := by
  rw [h.feedRows, ACRev360.bankTotal, ACRev360.bankTotal, List.foldl_map]
  simp only [ReconciliationRequest.amount_settled]

theorem platformTotal (h : Filed r run s t) (r' : ReconciliationRequest) :
    platformTotal (r'.payments t) = platformTotal (r'.payments s) := by
  rw [ReconciliationRequest.payments, ReconciliationRequest.payments, h.payments]

-- No run changes its council, channel or day.
theorem isOf (h : Filed r run s t) {k : ℕ} {x : ReconciliationRun} (hx : (s.table .reconciliationRun).get k = some x)
    (hk : x.isOf r') : ∃ x', (t.table .reconciliationRun).get k = some x' ∧ x'.isOf r' := by
  by_cases hkr : k = run
  case neg => exact ⟨x, (h.rows k hkr).trans hx, hk⟩
  case pos =>
    subst hkr
    have ⟨row, hrow, hcouncil, hchannel, hdate⟩ := h.row
    have ⟨hcouncil', hchannel', hdate'⟩ := h.old x hx
    exact ⟨row, hrow, hcouncil.trans <| hcouncil'.symm.trans hk.1, hchannel.trans <| hchannel'.symm.trans hk.2.1,
      hdate.trans <| hdate'.symm.trans hk.2.2⟩

end Filed

end Feed

section Runs

variable {council : ℕ} {runDate : Date} {channels : List (Loaded PaymentChannel)} {runs : List ℕ}

-- The channels are run for the day one after the other, by anyone.
inductive RanAll (council : ℕ) (runDate : Date) : List (Loaded PaymentChannel) → List ℕ → Db → Db → Prop
  | nil {s : Db} : RanAll council runDate [] [] s s
  | cons {channel : Loaded PaymentChannel} {channels : List (Loaded PaymentChannel)} {run : ℕ} {runs : List ℕ}
      {s t u : Db} {n m : Name → ℕ} (actor : ℕ) :
    (runReconciliation { council, channel, runDate, actor }).call s n = (.ok run, t, m) →
      RanAll council runDate channels runs t u → RanAll council runDate (channel :: channels) (run :: runs) s u

-- The matching of a channel. Nothing depends on who runs it.
def ofChannel (council : ℕ) (runDate : Date) (channel : Loaded PaymentChannel) : ReconciliationRequest :=
  { council, channel, runDate, actor := 0 }

-- What the run of the channel has come to.
structure RunFor (council : ℕ) (runDate : Date) (s u : Db) (channel : Loaded PaymentChannel) (run : ℕ) : Prop where
  row      : ∃ row, (u.table .reconciliationRun).get run = some row ∧ row.isOf (ofChannel council runDate channel) ∧
    row.totalPlatform.units = cents (platformTotal ((ofChannel council runDate channel).payments s)) ∧
    row.totalBank.units = cents (bankTotal ((ofChannel council runDate channel).feedRows s))
  excepted : (exceptedBy run u).Perm (((ofChannel council runDate channel).unmatched s).map fun f => some f.1)

structure AllRan (council : ℕ) (runDate : Date) (channels : List (Loaded PaymentChannel)) (runs : List ℕ) (s u : Db) :
    Prop where
  each  : List.Forall₂ (RunFor council runDate s u) channels runs
  nodup : runs.Nodup
  rows  : ∀ k ∉ runs, (u.table .reconciliationRun).get k = (s.table .reconciliationRun).get k
  rest  : ∀ j x, x.run ∉ runs →
    ((u.table .reconciliationException).get j = some x ↔ (s.table .reconciliationException).get j = some x)
  keys  : ∀ {k x} {r' : ReconciliationRequest}, (s.table .reconciliationRun).get k = some x → x.isOf r' →
    ∃ x', (u.table .reconciliationRun).get k = some x' ∧ x'.isOf r'

theorem exceptedBy_of_others (h : ∀ j x, x.run = run →
    ((t.table .reconciliationException).get j = some x ↔ (s.table .reconciliationException).get j = some x)) :
    exceptedBy run t = exceptedBy run s := by
  unfold exceptedBy
  rw [Table.filter_congr fun j x hx => h j x <| of_decide_eq_true hx]

theorem RunFor.congr {channel : Loaded PaymentChannel} (h : RunFor council runDate t u channel run)
    {r : ReconciliationRequest} {k : ℕ} (hf : Filed r k s t) : RunFor council runDate s u channel run where
  row      := by
    have hrow := h.row
    rwa [hf.platformTotal, hf.bankTotal] at hrow
  excepted := by
    have hmap {l : List (ℕ × ChannelTransactionFeed)} : l.map (fun f => some f.1) = (l.map (·.1)).map some := by
      rw [List.map_map]
      rfl
    rw [hmap, ← hf.unmatched, ← hmap]
    exact h.excepted

theorem AllRan.of_mem (h : AllRan council runDate channels runs s u) (hmem : run ∈ runs) :
    ∃ channel ∈ channels, RunFor council runDate s u channel run := by
  have ⟨i, hi, hget⟩ := List.mem_iff_getElem.mp hmem
  have hi' : i < channels.length := h.each.length_eq ▸ hi
  exact ⟨channels.get ⟨i, hi'⟩, List.get_mem _ _, hget ▸ h.each.get hi' hi⟩

theorem RanAll.all (h : RanAll council runDate channels runs s u) (hchannels : (channels.map (·.id)).Nodup) :
    AllRan council runDate channels runs s u := by
  induction h with
  | nil => exact ⟨.nil, .nil, fun _ _ => rfl, fun _ _ _ => Iff.rfl, fun hx hk => ⟨_, hx, hk⟩⟩
  | @cons channel channels run runs s t u n m actor hc _ hi =>
    have ⟨hnot, hchannels⟩ := List.nodup_cons.mp hchannels
    have hall := hi hchannels
    have ⟨⟨hreconciled, hfiled⟩, _⟩ := Prog.call_ok post_runReconciliation hc
    have ⟨row, hrow, hplatform, hbank, _⟩ := hreconciled.run
    have ⟨row', hrow', hkey⟩ := hfiled.row
    obtain rfl := Option.some.inj <| hrow.symm.trans hrow'
    -- A later run is of another channel.
    have hrun : run ∉ runs := fun hmem => by
      have ⟨x, hx, _, hchannel, _⟩ := hall.keys hrow hkey
      have ⟨channel', hmem', hfor⟩ := hall.of_mem hmem
      have ⟨x', hx', ⟨_, hchannel', _⟩, _⟩ := hfor.row
      obtain rfl := Option.some.inj <| hx.symm.trans hx'
      exact hnot <| List.mem_map.mpr ⟨channel', hmem', hchannel'.symm.trans hchannel⟩
    refine ⟨.cons ⟨⟨row, (hall.rows run hrun).trans hrow, hkey, hplatform, hbank⟩, ?excepted⟩ ?each,
      List.nodup_cons.mpr ⟨hrun, hall.nodup⟩, fun k hk => ?rows, fun j x hx => ?rest, fun hx hk => ?keys⟩
    case excepted =>
      rw [exceptedBy_of_others fun j x hx => hall.rest j x (hx ▸ hrun)]
      exact hfiled.excepted
    case each => exact hall.each.imp fun _ _ h => h.congr hfiled
    case rows =>
      rw [List.mem_cons, not_or] at hk
      rw [hall.rows k hk.2, hfiled.rows k hk.1]
    case rest =>
      rw [List.mem_cons, not_or] at hx
      exact (hall.rest j x hx.2).trans <| hfiled.others j x hx.1
    case keys =>
      have ⟨x', hx', hk'⟩ := hfiled.isOf hx hk
      exact hall.keys hx' hk'

-- The feed rows that the exceptions of the runs are for.
def exceptedByAny (runs : List ℕ) (s : Db) : List (Option ℕ) :=
  ((s.table .reconciliationException).filter fun _ x => runs.contains x.run).map fun x => x.2.feedRow

theorem exceptedByAny_cons (h : run ∉ runs) :
    (exceptedByAny (run :: runs) s).Perm (exceptedBy run s ++ exceptedByAny runs s) := by
  unfold exceptedByAny exceptedBy Table.filter
  rw [← List.map_append]
  refine .map _ <| .symm ?_
  have hsplit := List.filter_append_perm (fun x : ℕ × ReconciliationException => decide (x.2.run = run))
    ((s.table .reconciliationException).rows.filter fun x => (run :: runs).contains x.2.run)
  rw [List.filter_filter, List.filter_filter] at hsplit
  have hrun : ((s.table .reconciliationException).rows.filter fun x => decide (x.2.run = run) && (run :: runs).contains x.2.run) =
      (s.table .reconciliationException).rows.filter fun x => decide (x.2.run = run) :=
    List.filter_congr fun x _ => by by_cases hx : x.2.run = run <;> simp [hx]
  have hruns : ((s.table .reconciliationException).rows.filter fun x => !decide (x.2.run = run) && (run :: runs).contains x.2.run) =
      (s.table .reconciliationException).rows.filter fun x => runs.contains x.2.run :=
    List.filter_congr fun x _ => by
      by_cases hx : x.2.run = run
      case pos => simp [hx, h]
      case neg => simp [hx]
  rwa [hrun, hruns] at hsplit

theorem AllRan.excepted (h : AllRan council runDate channels runs s u) : (exceptedByAny runs u).Perm
    (channels.flatMap fun c => ((ofChannel council runDate c).unmatched s).map fun f => some f.1) := by
  have heach := h.each
  have hnodup := h.nodup
  clear h
  induction heach with
  | nil => simp [exceptedByAny, Table.filter]
  | cons h _ hi =>
    obtain ⟨hrun, hnodup⟩ := List.nodup_cons.mp hnodup
    rw [List.flatMap_cons]
    exact (exceptedByAny_cons hrun).trans <| h.excepted.append <| hi hnodup

end Runs

section Live

variable {today : Date} {council : ℕ} {runDate : Date} {channels : List (Loaded PaymentChannel)} {runs : List ℕ}

-- What the summary says in a state.
def liveSummary (council : ℕ) (runDate : Date) (s : Db) : LiveSummary where
  runDate
  totalPlatform    := platformTotal (paymentsOf council runDate s)
  totalBank        := (feedChannels s).foldl (fun total c =>
    Decimal.round (total + bankTotal ((ofChannel council runDate c).feedRows s))) 0
  unmatchedCredits := (feedChannels s).flatMap fun c => (ofChannel council runDate c).unmatched s

theorem post_liveReconciliationSummary {date : Option Date} :
    Prog.Post (liveReconciliationSummary today council date) s <| Prog.OnReturn fun live t =>
      t = s ∧ live = liveSummary council (date.getD today) s := by
  refine .bind <| post_select <| .bind <| post_select ?_
  have loop {channels : List (Loaded PaymentChannel)} {runDate : Date} {total : ℚ}
      {credits : List (ℕ × ChannelTransactionFeed)} :
      Prog.Post (channels.foldlM (fun totals channel => do
          let matched ← matchFeedRowsForChannel { council, channel, runDate, actor := 0 }
          return (Decimal.round (totals.1 + matched.1), totals.2 ++ matched.2.2)) (total, credits)) s <|
        Prog.OnReturn fun out t => t = s ∧ out = (channels.foldl (fun total c =>
            Decimal.round (total + bankTotal ((ofChannel council runDate c).feedRows s))) total,
          credits ++ channels.flatMap fun c => (ofChannel council runDate c).unmatched s) := by
    induction channels generalizing total credits with
    | nil => exact .ret ⟨rfl, by simp⟩
    | cons channel channels hi =>
      rw [List.foldlM_cons]
      refine .seq (Q := fun out t => t = s ∧ out = (Decimal.round (total +
        bankTotal ((ofChannel council runDate channel).feedRows s)),
          credits ++ (ofChannel council runDate channel).unmatched s)) ?_ fun out t hpost => ?_
      · refine .seq post_matchFeedRowsForChannel fun out t hpost => .ret ⟨hpost.1, ?_⟩
        rw [hpost.2]
        rfl
      · rw [hpost.1, hpost.2]
        refine .imp hi fun out t hout => ⟨hout.1, ?_⟩
        rw [hout.2, List.foldl_cons, List.flatMap_cons, List.append_assoc]
  refine .seq loop fun out t hpost => .ret ⟨hpost.1, ?_⟩
  rw [hpost.2, List.nil_append]
  rfl

theorem foldl_round_kobo {l : List ℤ} {y : ℤ} (hl : ∀ z ∈ l, z.natAbs < 10 ^ 14)
    (hy : y.natAbs + l.length * 10 ^ 14 < 10 ^ 28) :
    l.foldl (fun total z => Decimal.round (total + kobo z)) (kobo y) = kobo (y + l.sum) := by
  induction l generalizing y with
  | nil => simp
  | cons z l hi =>
    have ⟨hz, hl⟩ := List.forall_mem_cons.mp hl
    rw [List.length_cons, add_mul, one_mul] at hy
    have hadd : (y + z).natAbs ≤ y.natAbs + z.natAbs := Int.natAbs_add_le y z
    rw [List.foldl_cons, kobo_add, round_kobo (by omega), hi hl (by omega), List.sum_cons, add_assoc]

-- The confirmed payments of the day on channels that have no feed.
def noFeedPayments (council : ℕ) (runDate : Date) (s : Db) : List (ℕ × Payment) :=
  (s.table .payment).filter fun _ p => p.council = council && p.txnStatus = .confirmed && p.createdAt = runDate &&
    ((s.table .channel).get p.channel).any (·.code.noFeedExpected)

def unitsOf (payments : List (ℕ × Payment)) : ℤ :=
  (payments.map fun p => p.2.amount.units).sum

theorem sum_unitsOf (h : (channels.map (·.id)).Nodup) :
    (channels.map fun c => unitsOf ((ofChannel council runDate c).payments s)).sum =
      (s.table .payment).sum fun _ p => if p.council = council ∧ p.txnStatus = .confirmed ∧ p.createdAt = runDate ∧
        p.channel ∈ channels.map (·.id) then p.amount.units else 0 := by
  induction channels with
  | nil => exact (Table.sum_eq_zero fun _ _ _ => by simp).symm
  | cons c channels hi =>
    have ⟨hc, h⟩ := List.nodup_cons.mp h
    have hhead := Table.sum_filter (t := s.table .payment) (f := fun _ p => p.amount.units)
      (p := fun _ p => (ofChannel council runDate c).covers p)
    rw [List.map_cons, List.sum_cons, hi h]
    refine (congrArg (· + _) hhead).trans <| Table.sum_add.symm.trans <| Table.sum_congr fun k p _ => ?_
    simp only [ReconciliationRequest.covers, ofChannel, Bool.and_eq_true, decide_eq_true_eq, List.map_cons, List.mem_cons]
    by_cases hp : p.channel = c.id
    case pos => simp only [hp, hc]; split <;> split <;> grind
    case neg => simp only [hp]; split <;> split <;> grind

theorem mem_feedChannels {k : ℕ} : k ∈ (feedChannels s).map (·.id) ↔
    ∃ c, (s.table .channel).get k = some c ∧ c.code.noFeedExpected = false := by
  rw [feedChannels, List.map_map]
  constructor
  · intro hk
    obtain ⟨⟨k, c⟩, hc, rfl⟩ := List.mem_map.mp hk
    have ⟨hget, hfeed⟩ := Table.mem_filter_iff.mp hc
    exact ⟨c, hget, by simpa using hfeed⟩
  · rintro ⟨c, hget, hfeed⟩
    exact List.mem_map.mpr ⟨(k, c), Table.mem_filter_iff.mpr ⟨hget, by simp [hfeed]⟩, rfl⟩

theorem nodup_feedChannels : ((feedChannels s).map (·.id)).Nodup := by
  rw [feedChannels, List.map_map]
  exact Table.keys_nodup

-- Every payment of the day is on one channel, which has a feed or none.
theorem unitsOf_paymentsOf (h : Database.valid s) : unitsOf (paymentsOf council runDate s) =
    ((feedChannels s).map fun c => unitsOf ((ofChannel council runDate c).payments s)).sum +
      unitsOf (noFeedPayments council runDate s) := by
  have hall := Table.sum_filter (t := s.table .payment) (f := fun _ p => p.amount.units)
    (p := fun _ p => p.council = council && p.txnStatus = .confirmed && p.createdAt = runDate)
  have hnone := Table.sum_filter (t := s.table .payment) (f := fun _ p => p.amount.units)
    (p := fun _ p => p.council = council && p.txnStatus = .confirmed && p.createdAt = runDate &&
      ((s.table .channel).get p.channel).any (·.code.noFeedExpected))
  rw [sum_unitsOf nodup_feedChannels]
  refine hall.trans <| Eq.trans ?_ <| (Table.sum_add.trans <| congrArg _ hnone.symm)
  refine Table.sum_congr fun k p hp => ?_
  have hchannel : (Name.channel, p.channel) ∈ foreignKeys .payment p := by simp [foreignKeys]
  have ⟨c, hc⟩ := Database.valid_ref h hp hchannel
  have hmem : p.channel ∈ (feedChannels s).map (·.id) ↔ c.code.noFeedExpected = false := by
    rw [mem_feedChannels, hc]
    simp
  simp only [Bool.and_eq_true, decide_eq_true_eq, hmem, hc, Option.any_some]
  cases c.code.noFeedExpected <;> simp [and_assoc]

-- There are no more channels than codes.
theorem length_feedChannels (h : Unique (R := relational) .channel s) : (feedChannels s).length ≤ 6 := by
  have hnodup : ((feedChannels s).map fun c => c.row.code).Nodup := by
    rw [feedChannels, List.map_map]
    refine List.Nodup.map_on (fun x hx y hy he => ?_) (.of_map _ Table.keys_nodup)
    have ⟨hx, _⟩ := Table.mem_filter_iff.mp hx
    have ⟨hy, _⟩ := Table.mem_filter_iff.mp hy
    have hcode : x.2.code = y.2.code := he
    have hk : x.1 = y.1 := h (u := .channelCode y.2.code) ⟨x.2, hx, hcode ▸ .head _⟩ ⟨y.2, hy, .head _⟩
    rw [hk, hy] at hx
    exact Prod.ext hk (Option.some.inj hx).symm
  have hsub : ((feedChannels s).map fun c => c.row.code) ⊆ [.pos, .otc, .ibMb, .ussd, .firstmonie, .cash] :=
    fun code _ => by cases code <;> simp
  have := (List.subperm_of_subset hnodup hsub).length_le
  simpa using this

-- The summary says what the runs have come to.
structure LiveSummary.Agrees (live : LiveSummary) (council : ℕ) (runDate : Date) (runs : List ℕ) (s u : Db) : Prop where
  credits : (exceptedByAny runs u).Perm (live.unmatchedCredits.map fun f => some f.1)
  totals  : ∃ rows : List ReconciliationRun,
    List.Forall₂ (fun run row => (u.table .reconciliationRun).get run = some row) runs rows ∧
      live.totalBank = (rows.map (·.totalBank.toRat)).sum ∧
      live.totalPlatform = (rows.map (·.totalPlatform.toRat)).sum + platformTotal (noFeedPayments council runDate s)

theorem AllRan.totals (h : AllRan council runDate channels runs s u) : ∃ rows : List ReconciliationRun,
    List.Forall₂ (fun run row => (u.table .reconciliationRun).get run = some row) runs rows ∧
      List.Forall₂ (fun c row => row.totalBank.toRat = bankTotal ((ofChannel council runDate c).feedRows s) ∧
        row.totalPlatform.units = unitsOf ((ofChannel council runDate c).payments s)) channels rows := by
  have heach := h.each
  clear h
  induction heach with
  | nil => exact ⟨[], .nil, .nil⟩
  | @cons c run channels runs h _ hi =>
    have ⟨rows, hrows, htotals⟩ := hi
    have ⟨row, hrow, _, hplatform, hbank⟩ := h.row
    refine ⟨row :: rows, .cons hrow hrows, .cons ⟨?_, hplatform.trans cents_platformTotal⟩ htotals⟩
    have ⟨z, hz⟩ := exists_bankTotal ((ofChannel council runDate c).feedRows s)
    rw [Money.toRat_eq_kobo, hbank, hz, cents_kobo]

-- A total of the bank in kobo.
def bankUnits (council : ℕ) (runDate : Date) (s : Db) (c : Loaded PaymentChannel) : ℤ :=
  cents (bankTotal ((ofChannel council runDate c).feedRows s))

theorem kobo_bankUnits {c : Loaded PaymentChannel} :
    kobo (bankUnits council runDate s c) = bankTotal ((ofChannel council runDate c).feedRows s) := by
  have ⟨z, hz⟩ := exists_bankTotal ((ofChannel council runDate c).feedRows s)
  rw [bankUnits, hz, cents_kobo]

theorem sum_totals {rows : List ReconciliationRun}
    (h : List.Forall₂ (fun c row => row.totalBank.toRat = bankTotal ((ofChannel council runDate c).feedRows s) ∧
        row.totalPlatform.units = unitsOf ((ofChannel council runDate c).payments s)) channels rows) :
    (rows.map (·.totalBank.toRat)).sum = kobo (channels.map (bankUnits council runDate s)).sum ∧
    (rows.map (·.totalPlatform.toRat)).sum =
      kobo (channels.map fun c => unitsOf ((ofChannel council runDate c).payments s)).sum := by
  induction h with
  | nil => simp
  | cons h _ hi =>
    constructor
    · rw [List.map_cons, List.sum_cons, hi.1, h.1, ← kobo_bankUnits, kobo_add]
      rfl
    · rw [List.map_cons, List.sum_cons, hi.2, Money.toRat_eq_kobo, h.2, kobo_add]
      rfl

theorem live_bank (hu : Unique (R := relational) .channel s)
    (hbound : ∀ c ∈ feedChannels s, (bankUnits council runDate s c).natAbs < 10 ^ 14) :
    (liveSummary council runDate s).totalBank = kobo ((feedChannels s).map (bankUnits council runDate s)).sum := by
  have hfold : (liveSummary council runDate s).totalBank = ((feedChannels s).map (bankUnits council runDate s)).foldl
      (fun total z => Decimal.round (total + kobo z)) (kobo 0) := by
    rw [List.foldl_map, kobo_zero]
    simp only [kobo_bankUnits]
    rfl
  rw [hfold, foldl_round_kobo (List.forall_mem_map.mpr hbound), zero_add]
  rw [List.length_map]
  have := length_feedChannels hu
  omega

end Live

-- The summary shows what the runs of all channels that have a feed come to, in whatever order.
theorem live_agrees (hv : Database.valid s) (hu : Unique (R := relational) .channel s) {today : Date} {council : ℕ}
    {date : Option Date} {live : LiveSummary} {n m : Name → ℕ} {channels : List (Loaded PaymentChannel)} {runs : List ℕ}
    (hlive : (liveReconciliationSummary today council date).call s n = (.ok live, t, m))
    (hchannels : channels.Perm (feedChannels s)) (hruns : RanAll council (date.getD today) channels runs s u) :
    live.Agrees council (date.getD today) runs s u := by
  have ⟨⟨_, hlive⟩, _⟩ := Prog.call_ok post_liveReconciliationSummary hlive
  generalize date.getD today = runDate at *
  have hnodup : (channels.map (·.id)).Nodup := (hchannels.map _).nodup_iff.mpr nodup_feedChannels
  have hall := hruns.all hnodup
  have ⟨rows, hrows, htotals⟩ := hall.totals
  have ⟨hbank, hplatform⟩ := sum_totals htotals
  subst hlive
  constructor
  case credits =>
    refine hall.excepted.trans ?_
    rw [liveSummary, List.map_flatMap]
    exact hchannels.flatMap_right _
  case totals =>
    refine ⟨rows, hrows, ?_, ?_⟩
    · rw [hbank, (hchannels.map _).sum_eq, live_bank hu fun c hc => ?_]
      have ⟨i, hi, hget⟩ := List.mem_iff_getElem.mp <| hchannels.mem_iff.mpr hc
      have ⟨hbank, _⟩ := htotals.get hi (htotals.length_eq ▸ hi)
      rw [List.get_eq_getElem, List.get_eq_getElem, hget] at hbank
      rw [bankUnits, ← hbank, Money.toRat_eq_kobo, cents_kobo]
      exact Numeric.bound _
    · rw [hplatform, (hchannels.map _).sum_eq, @platformTotal_eq (noFeedPayments council runDate s),
        kobo_add]
      exact platformTotal_eq.trans <| congrArg kobo <| unitsOf_paymentsOf hv

theorem sample_live_agrees : ∃ (live : LiveSummary) (t : Db), live.Agrees 1 Sample.day [1] Sample.notified t := by
  have hlive := Sample.call_returns (p := liveReconciliationSummary Sample.day 1 none)
    (s := (Sample.notified, Sample.posted.2)) (a := ⟨Sample.day, 10, 10, []⟩) (by decide +kernel)
  have hrun := Sample.call_returns (p := runReconciliation Sample.reconciliation)
    (s := (Sample.notified, Sample.posted.2)) (a := 1) (by decide +kernel)
  have hchannels : feedChannels Sample.notified = [⟨2, ⟨.pos⟩⟩] := by decide +kernel
  exact ⟨_, _, live_agrees (by decide +kernel) (.of_pairwise <| by decide +kernel) hlive (.of_eq hchannels.symm)
    (.cons 1 hrun .nil)⟩

end ACRev360
