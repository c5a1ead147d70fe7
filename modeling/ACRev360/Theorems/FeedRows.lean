import ACRev360.Theorems.Idempotency
import ACRev360.Theorems.LiveSummary

namespace ACRev360

open Relational Relational.Database

-- What notifications and runs leave of the feed, run after run.

variable {s s₀ t u v w : Db} {r r' : ReconciliationRequest} {run k : ℕ} {gw : Gateway} {fw : Framework} {today : Date}

section Intakes

variable {council channel : ℕ} {n : Normalised}

-- The feed rows of `s` are as they were, and no run has been made since.
structure FeedStays (s t : Db) : Prop where
  feed       : ∀ {k f}, (s.table .feed).get k = some f → (t.table .feed).get k = some f
  runs       : t.table .reconciliationRun = s.table .reconciliationRun
  exceptions : t.table .reconciliationException = s.table .reconciliationException

theorem feedStays_refl : FeedStays s s :=
  ⟨id, rfl, rfl⟩

theorem feedStays_of_only {ts : List Name} (h : Database.Only ts t u)
    (hts : Name.feed ∉ ts ∧ Name.reconciliationRun ∉ ts ∧ Name.reconciliationException ∉ ts) :
    Preserves (S := relational.schema) (FeedStays s₀) t u :=
  fun ⟨hfeed, hruns, hexceptions⟩ => ⟨fun hf => h .feed hts.1 ▸ hfeed hf, (h _ hts.2.1).trans hruns,
    (h _ hts.2.2).trans hexceptions⟩

-- A feed row that is not in `s₀` may be written.
theorem feedStays_modify {g : ChannelTransactionFeed → ChannelTransactionFeed} (hk : (s₀.table .feed).get k = none) :
    Preserves (S := relational.schema) (FeedStays s₀) t (t.modify .feed k g) := by
  refine fun ⟨hfeed, hruns, hexceptions⟩ => ⟨fun {i f} hf => ?_, ?_, ?_⟩
  · have hi : i ≠ k := fun he => by simp [he, hk] at hf
    rw [modify_table, Table.get_modify, if_neg hi, hfeed hf]
  · rwa [modify_table_ne (by decide)]
  · rwa [modify_table_ne (by decide)]

theorem feedStays_post {bill : Loaded Bill} {r : PaymentRequest} :
    (postPayment today bill r).Maintains (FeedStays s₀) :=
  .of_keeps <| postPayment_keeps (feedStays_of_only (only_insert <| .head []) (by simp))
    (fun _ => feedStays_of_only (only_modify <| .head []) (by simp)) (fun h => feedStays_of_only h (by simp)) <|
      feedStays_of_only (only_modify <| .head []) (by simp)

theorem feedStays_channel {code : ChannelCode} : (getOrCreateChannel code).Maintains (FeedStays s₀) :=
  .of_keeps <| getOrCreateChannel_keeps fun h => feedStays_of_only h (by simp)

-- A row that is entered is a new one, which nobody has matched.
theorem post_receiveFeed {payload : Json} (h : FeedStays s₀ s) :
    Prog.Post (receiveFeed today council channel payload n) s fun out t => FeedStays s₀ t ∧
      ∀ k, out = .ok (k, true) → (s₀.table .feed).get k = none := by
  refine .bind <| post_lookupText (fun _ => ?_) fun _ => ⟨h, nofun⟩
  refine post_getOrCreate_all (fun _ _ => ⟨h, nofun⟩) (fun _ => ?_) fun _ _ _ => ⟨h, nofun⟩
  refine post_guard (fun _ => trivial) fun _ => .bind <| post_storeText (fun v hv => .bind ?_) fun _ => trivial
  refine post_store (fun amount hamount => ?_) fun _ => trivial
  refine post_create (fun k hk => ⟨⟨fun {i f} hf => get_insert_of_some (h.feed hf), ?_, ?_⟩, fun i hi => ?_⟩) fun _ => trivial
  · rw [insert_table_ne (by decide), h.runs]
  · rw [insert_table_ne (by decide), h.exceptions]
  · obtain rfl := (Prod.mk.inj <| Except.ok.inj hi).1
    have ⟨_, hnone, _⟩ := conflicts_false hk
    by_contra hne
    have ⟨f, hf⟩ := Option.ne_none_iff_exists'.mp hne
    rw [h.feed hf] at hnone
    contradiction

theorem feedStays_postNotified {feed : ℕ} {postedBy : Option ℕ} (hfeed : (s₀.table .feed).get feed = none) :
    (postNotified today council channel feed n postedBy).Maintains (FeedStays s₀) := by
  have hexception : (setMatchStatus feed .exception).Maintains (FeedStays s₀) :=
    .of_keeps <| keeps_save fun _ => feedStays_modify hfeed
  refine .bind (.of_keeps lookupText_keeps) fun bill => ?_
  split
  case h_1 => exact .bind hexception fun _ => .ret
  case h_2 =>
    refine .bind (.attempt <| .atomic feedStays_post) fun r => ?_
    split
    case h_1 => exact .bind (.of_keeps <| keeps_save fun _ => feedStays_modify hfeed) fun _ => .ret
    case h_2 =>
      split
      · exact .bind hexception fun _ => .ret
      · exact .raise

-- A notification that has been posted has matched its row.
theorem post_postNotified_posted {feed : ℕ} {postedBy : Option ℕ} :
    Prog.Post (postNotified today council channel feed n postedBy) s <| Prog.OnReturn fun out t =>
      ∀ payment, out = .posted payment →
        ∃ f, (t.table .feed).get feed = some f ∧ f.matchStatus = .matched ∧ f.matchedPayment = some payment := by
  refine .bind <| post_lookupText (fun _ => ?_) fun _ => trivial
  simp only
  split
  case h_1 => exact .bind <| post_save (fun _ _ => .ret nofun) fun _ => trivial
  case h_2 bill _ =>
    have hpost {r : PaymentRequest} : Prog.Post (postPayment today bill r).atomic s fun _ t => FeedStays s t :=
      Prog.Maintains.atomic feedStays_post s feedStays_refl
    refine .bind <| .attempt <| hpost.mono fun r t _ => ?_
    simp only
    split
    case h_1 payment =>
      refine .bind <| post_save (fun f hf => .ret fun payment' he => ?_) fun _ => trivial
      obtain rfl := Notified.posted.inj he
      exact ⟨_, by rw [modify_table, Table.get_modify, if_pos rfl, hf, Option.map_some], rfl, rfl⟩
    case h_2 =>
      split
      · exact .bind <| post_save (fun _ _ => .ret nofun) fun _ => trivial
      · exact .raise trivial

-- Whoever notifies a payment, no row that is there is written.
theorem feedStays_received {payload : Json} {postedBy : Option ℕ} {received : Date} {α : Type} {none : Service α}
    {some : Notified → Service α} (hnone : none.Maintains (FeedStays s₀)) (hsome : ∀ notified, (some notified).Maintains (FeedStays s₀)) :
    (do
      let (feed, created) ← receiveFeed received council channel payload n
      if !created then none
      else do
        let notified ← postNotified today council channel feed n postedBy
        some notified : Service α).Maintains (FeedStays s₀) := by
  refine fun s hs => .bind <| (post_receiveFeed hs).mono fun out t ⟨ht, hnew⟩ => ?_
  cases out with
  | error e => exact ht
  | ok out =>
    obtain ⟨feed, created⟩ := out
    cases created with
    | false => exact hnone t ht
    | true => exact Prog.Maintains.bind (feedStays_postNotified <| hnew feed rfl) hsome t ht

theorem feedStays_webhook {now : ℕ} {r : WebhookRequest} : (webhook gw today now r).Maintains (FeedStays s₀) := by
  unfold webhook
  split
  case h_2 => exact .ret
  case h_3 => exact .ret
  case h_4 => exact .of_keeps keeps_refuse
  case h_1 n code hadapt _ =>
    split
    case h_1 => exact .ret
    refine .atomic <| .bind feedStays_channel fun channel => .bind (.of_keeps ?client) fun client => ?_
    case client =>
      split
      · exact authenticateWebhookClient_keeps fun h => feedStays_of_only h (by simp)
      · exact .ret
    split
    case isTrue => exact .ret
    refine .bind (.of_keeps lookupText_keeps) fun existing => ?_
    split
    case isTrue => exact .ret
    refine feedStays_received .ret fun notified => ?_
    split <;> exact .ret

theorem feedStays_otcSettlement {user : ℕ} {data : Json} :
    (otcSettlement gw today council user data).Maintains (FeedStays s₀) := by
  unfold otcSettlement
  split
  case h_2 => exact .ret
  refine .bind feedStays_channel fun channel => .bind (.foldlM fun acc row => ?_) fun _ => .ret
  unfold settleRow
  split
  case h_1 => exact .ret
  case h_2 => exact .of_keeps keeps_refuse
  case h_3 n hadapt =>
    refine feedStays_received .ret fun notified => ?_
    split <;> exact .ret

theorem feedStays_view {r : Intake} : (r.view gw fw today).Maintains (FeedStays s₀) := by
  cases r with
  | webhook now r => exact .bind feedStays_webhook fun _ => .ret
  | otcSettlement council user data => exact .bind feedStays_otcSettlement fun _ => .ret
  | createPayment council actor portfolio data =>
    exact .bind (createPaymentFrom_maintains feedStays_post fun h => feedStays_of_only h (by simp)) fun _ => .ret
  | sync records =>
    exact .bind (sync_maintains feedStays_post fun h => feedStays_of_only h (by simp)) fun _ => .ret
  | reverse pk =>
    refine .bind (.of_keeps getObject_keeps) fun _ => .atomic <| .of_keeps <| reversePayment_keeps (fun _ => ?_) fun h => ?_
    · exact feedStays_of_only (only_modify <| .head []) (by simp)
    · exact feedStays_of_only h (by simp)

-- A new row is matched with the payment.
def MatchedAnew (payment : ℕ) (s t : Db) : Prop :=
  ∃ k f, (s.table .feed).get k = none ∧ (t.table .feed).get k = some f ∧ f.matchStatus = .matched ∧
    f.matchedPayment = some payment

theorem post_notify_posted {now : ℕ} {r : WebhookRequest} {code : ChannelCode} :
    Prog.Post (notify gw today now r council code n) s <| Prog.OnReturn fun out t =>
      ∀ payment, out = .posted payment → MatchedAnew payment s t := by
  refine .seq (feedStays_channel.returns feedStays_refl) fun channel u hu => ?_
  refine .seq (Q := fun _ t => FeedStays s t) ?client fun client u hu => ?_
  case client =>
    split
    · refine Prog.Maintains.returns (.of_keeps ?_) hu
      exact authenticateWebhookClient_keeps fun h => feedStays_of_only h (by simp)
    · exact .ret hu
  split
  case isTrue => exact .ret nofun
  refine .bind <| post_lookupText (fun _ => ?_) fun _ => trivial
  simp only
  split
  case isTrue => exact .ret nofun
  refine .bind <| (post_receiveFeed hu).mono fun out v ⟨hv, hnew⟩ => ?_
  cases out with
  | error e => trivial
  | ok out =>
    obtain ⟨feed, created⟩ := out
    cases created with
    | false => exact .ret nofun
    | true =>
      refine .seq post_postNotified_posted fun notified w hw => ?_
      cases notified with
      | billNotFound => exact .ret nofun
      | rejected e => exact .ret nofun
      | posted payment =>
        have ⟨f, hf, hmatched⟩ := hw payment rfl
        refine .ret fun payment' he => ⟨feed, f, hnew feed rfl, hf, ?_⟩
        exact WebhookResponse.posted.inj he ▸ hmatched

-- The row of a notification that has been posted is a new one.
theorem post_webhook_posted {now : ℕ} {r : WebhookRequest} :
    Prog.Post (webhook gw today now r) s <| Prog.OnReturn fun out t =>
      ∀ payment, out = .posted payment → MatchedAnew payment s t := by
  unfold webhook
  split
  case h_2 => exact .ret nofun
  case h_3 => exact .ret nofun
  case h_4 => exact post_refuse trivial
  case h_1 n code _ _ =>
    split
    case h_1 => exact .ret nofun
    case h_2 council _ =>
      refine .atomic <| post_notify_posted.mono fun r t ht => ?_
      cases r with
      | ok => exact ht
      | error => trivial

end Intakes

section Filings

-- No two runs are of one channel and day, and an exception is filed with the run of its feed row.
structure Filings (s : Db) : Prop where
  unique : Unique (R := relational) .reconciliationRun s
  keyed  : ∀ {j x k}, (s.table .reconciliationException).get j = some x → x.feedRow = some k →
    ∃ y f, (s.table .reconciliationRun).get x.run = some y ∧ (s.table .feed).get k = some f ∧
      y.council = f.council ∧ y.channel = f.channel ∧ y.runDate = f.receivedAt

theorem FeedStays.filings (h : FeedStays s t) (hs : Filings s) : Filings t where
  unique        := hs.unique.congr h.runs
  keyed hx hrow := by
    have ⟨y, f, hy, hf, hkey⟩ := hs.keyed (h.exceptions ▸ hx) hrow
    exact ⟨y, f, h.runs ▸ hy, h.feed hf, hkey⟩

theorem isOf_iff {x : ReconciliationRun} : x.isOf r ↔
    UniqueKey.reconciliation r.council r.channel.id r.runDate ∈ uniqueKeys .reconciliationRun x := by
  simp [ReconciliationRun.isOf, @eq_comm _ r.council, @eq_comm _ r.channel.id, @eq_comm _ r.runDate]

namespace Filed

-- The run is the only one of its channel and day.
theorem sole (h : Filed r run s t) (hs : Unique (R := relational) .reconciliationRun s) {x : ReconciliationRun}
    (hx : (s.table .reconciliationRun).get k = some x) (hk : x.isOf r) : k = run := by
  cases hrun : (s.table .reconciliationRun).get run with
  | some y => exact hs ⟨x, hx, isOf_iff.mp hk⟩ ⟨y, hrun, isOf_iff.mp <| h.old y hrun⟩
  | none =>
    have hnone := Table.first_none (Option.map_eq_none_iff.mp <| h.new hrun) hx
    simp [hk.1, hk.2.1, hk.2.2] at hnone

theorem unique (h : Filed r run s t) (hs : Unique (R := relational) .reconciliationRun s) :
    Unique (R := relational) .reconciliationRun t := by
  have ⟨row, hrow, hkey⟩ := h.row
  -- A run with a value in common with this one was of the same channel and day before.
  have hsame {u : UniqueKey} {k : ℕ} (hu : u ∈ uniqueKeys .reconciliationRun row)
      (hk : Database.Holds (R := relational) t u .reconciliationRun k) : k = run := by
    by_contra hne
    have ⟨x, hx, hux⟩ := hk
    rw [h.rows k hne] at hx
    obtain rfl := List.mem_singleton.mp hu
    have ⟨hcouncil, hchannel, hdate⟩ := UniqueKey.reconciliation.inj <| List.mem_singleton.mp hux
    exact hne <| h.sole hs hx ⟨hcouncil ▸ hkey.1, hchannel ▸ hkey.2.1, hdate ▸ hkey.2.2⟩
  intro u j k hj hk
  by_cases hjr : j = run
  case pos =>
    subst hjr
    have ⟨x, hx, hu⟩ := hj
    obtain rfl := Option.some.inj <| hrow.symm.trans hx
    exact (hsame hu hk).symm
  case neg =>
    by_cases hkr : k = run
    case pos =>
      subst hkr
      have ⟨x, hx, hu⟩ := hk
      obtain rfl := Option.some.inj <| hrow.symm.trans hx
      exact hsame hu hj
    case neg =>
      have ⟨x, hx, hux⟩ := hj
      have ⟨y, hy, huy⟩ := hk
      exact hs ⟨x, h.rows j hjr ▸ hx, hux⟩ ⟨y, h.rows k hkr ▸ hy, huy⟩

-- The exceptions of the run are for feed rows that it was to match.
theorem exception (h : Filed r run s t) {j : ℕ} {x : ReconciliationException}
    (hx : (t.table .reconciliationException).get j = some x) (hrun : x.run = run) :
    ∃ f ∈ r.unmatched s, x.feedRow = some f.1 := by
  have hmem : x.feedRow ∈ exceptedBy run t :=
    List.mem_map.mpr ⟨(j, x), Table.mem_filter_iff.mpr ⟨hx, decide_eq_true hrun⟩, rfl⟩
  have ⟨f, hf, he⟩ := List.mem_map.mp <| h.excepted.mem_iff.mp hmem
  exact ⟨f, hf, he.symm⟩

theorem filings (h : Filed r run s t) (hs : Filings s) : Filings t where
  unique := h.unique hs.unique
  keyed {j x k} hx hrow := by
    by_cases hrun : x.run = run
    case pos =>
      obtain ⟨f, hf, he⟩ := h.exception hx hrun
      obtain rfl := Option.some.inj <| he.symm.trans hrow
      obtain ⟨hget, hreceives⟩ := Table.mem_filter_iff.mp (List.mem_of_mem_filter hf)
      obtain ⟨row, hrow, hcouncil, hchannel, hdate⟩ := h.row
      simp only [ReconciliationRequest.receives, Bool.and_eq_true, decide_eq_true_eq] at hreceives
      refine ⟨row, _, hrun ▸ hrow, by rw [h.feed, hget, Option.map_some], ?_⟩
      obtain ⟨⟨hcouncil', hchannel'⟩, hdate'⟩ := hreceives
      split
      · cases r.matching s f.2 <;> exact ⟨hcouncil.trans hcouncil'.symm, hchannel.trans hchannel'.symm, hdate.trans hdate'.symm⟩
      · exact ⟨hcouncil.trans hcouncil'.symm, hchannel.trans hchannel'.symm, hdate.trans hdate'.symm⟩
    case neg =>
      obtain ⟨y, f, hy, hf, hkey⟩ := hs.keyed ((h.others j x hrun).mp hx) hrow
      refine ⟨y, _, (h.rows _ hrun).trans hy, by rw [h.feed, hf, Option.map_some], ?_⟩
      split
      · cases r.matching s f <;> exact hkey
      · exact hkey

end Filed

end Filings

section Consistency

-- What the feed rows of a day are to be after its run.
structure Consistent (r : ReconciliationRequest) (t : Db) : Prop where
  matched   : ∀ f ∈ r.feedRows t, f.2.matchStatus = .matched ↔
    ∃ k p, f.2.matchedPayment = some k ∧ (t.table .payment).get k = some p ∧ p.txnStatus = .confirmed ∧
      p.bankTxnRef = f.2.bankTxnRef.val ∧ p.amount = f.2.amount
  exception : ∀ f ∈ r.feedRows t, f.2.matchStatus = .exception → f.2.matchedPayment = none ∧
    ∃! j, ∃ x, (t.table .reconciliationException).get j = some x ∧ x.feedRow = some f.1

-- Every feed row that has been matched has a confirmed payment of its channel and day, with its reference
-- and amount.
def ReconciliationRequest.Linked (r : ReconciliationRequest) (s : Db) : Prop :=
  ∀ f ∈ r.feedRows s, f.2.matchedPayment ≠ none →
    ∃ p ∈ r.payments s, p.2.bankTxnRef = f.2.bankTxnRef.val ∧ p.2.amount = f.2.amount

theorem ReconciliationRequest.settled_of_mem {f : ℕ × ChannelTransactionFeed} (h : f ∈ r.feedRows s) :
    r.settled s f.2 = settle (r.matching s f.2) f.2 :=
  if_pos (Table.mem_filter_iff.mp h).2

-- One exception is filed for a feed row that has no match.
theorem Filed.existsUnique (h : Filed r run s t) (hs : Filings s) {f : ℕ × ChannelTransactionFeed}
    (hf : f ∈ r.unmatched s) : ∃! j, ∃ x, (t.table .reconciliationException).get j = some x ∧ x.feedRow = some f.1 := by
  have hmem : some f.1 ∈ exceptedBy run t := h.excepted.mem_iff.mpr <| List.mem_map_of_mem hf
  have ⟨⟨j, x⟩, hx, hrow⟩ := List.mem_map.mp hmem
  have hnodup : (exceptedBy run t).Nodup := by
    refine h.excepted.nodup_iff.mpr ?_
    have hkeys : ((r.unmatched s).map (·.1)).Nodup := (Table.keys_nodup (t := s.table .feed)).sublist <| .map _ List.filter_sublist
    have hmap : (r.unmatched s).map (fun f => some f.1) = ((r.unmatched s).map (·.1)).map some := by
      rw [List.map_map]
      rfl
    exact hmap ▸ hkeys.map (Option.some_injective _)
  refine ⟨j, ⟨x, (Table.mem_filter_iff.mp hx).1, hrow⟩, fun i ⟨y, hy, hrow'⟩ => ?_⟩
  by_cases hrun : y.run = run
  case pos =>
    have hy' : (i, y) ∈ (t.table .reconciliationException).filter fun _ x => x.run = run :=
      Table.mem_filter_iff.mpr ⟨hy, decide_eq_true hrun⟩
    exact congrArg Prod.fst <| List.inj_on_of_nodup_map hnodup hy' hx <| hrow'.trans hrow.symm
  case neg =>
    -- An exception of another run is for a feed row of another channel or day.
    have ⟨z, f', hz, hf', hcouncil, hchannel, hdate⟩ := hs.keyed ((h.others i y hrun).mp hy) hrow'
    have ⟨hget, hreceives⟩ := Table.mem_filter_iff.mp (List.mem_of_mem_filter hf)
    obtain rfl := Option.some.inj <| hget.symm.trans hf'
    simp only [ReconciliationRequest.receives, Bool.and_eq_true, decide_eq_true_eq] at hreceives
    have hisOf : z.isOf r := ⟨hcouncil.trans hreceives.1.1, hchannel.trans hreceives.1.2, hdate.trans hreceives.2⟩
    exact absurd (h.sole hs.unique hz hisOf) hrun

theorem Filed.consistent_iff (h : Filed r run s t) (hs : Filings s) : Consistent r t ↔ r.Linked s := by
  constructor
  · intro hc f hf hmatched
    rw [← matching_isSome_iff]
    by_contra hnone
    rw [Option.not_isSome_iff_eq_none] at hnone
    have hmem : (f.1, r.settled s f.2) ∈ r.feedRows t := by
      rw [h.feedRows]
      exact List.mem_map_of_mem hf
    have hsettled := ReconciliationRequest.settled_of_mem hf
    rw [hnone] at hsettled
    rw [hsettled] at hmem
    exact hmatched (hc.exception _ hmem rfl).1
  · intro hl
    have hrow {g : ℕ × ChannelTransactionFeed} (hg : g ∈ r.feedRows t) :
        ∃ f ∈ r.feedRows s, g = (f.1, settle (r.matching s f.2) f.2) := by
      rw [h.feedRows] at hg
      obtain ⟨f, hf, rfl⟩ := List.mem_map.mp hg
      exact ⟨f, hf, by rw [ReconciliationRequest.settled_of_mem hf]⟩
    constructor
    case matched =>
      intro g hg
      obtain ⟨f, hf, rfl⟩ := hrow hg
      cases hmatch : r.matching s f.2 with
      | some i =>
        obtain ⟨p, hp, href, hamount⟩ := matching_some hmatch
        obtain ⟨hget, hcovers⟩ := Table.mem_filter_iff.mp hp
        simp only [ReconciliationRequest.covers, Bool.and_eq_true, decide_eq_true_eq] at hcovers
        exact iff_of_true rfl ⟨i, p, rfl, h.payments ▸ hget, hcovers.1.2, href, hamount⟩
      | none =>
        have hnone : f.2.matchedPayment = none := by
          by_contra hne
          have := matching_isSome_iff.mpr <| hl f hf hne
          simp [hmatch] at this
        refine iff_of_false (by simp [settle]) fun hpost => ?_
        obtain ⟨k, p, hk, _⟩ := hpost
        exact absurd (hnone.symm.trans hk) (by simp)
    case exception =>
      intro g hg hexception
      obtain ⟨f, hf, rfl⟩ := hrow hg
      cases hmatch : r.matching s f.2 with
      | some i => simp [hmatch, settle] at hexception
      | none =>
        refine ⟨?_, h.existsUnique (f := f) hs <| List.mem_filter.mpr ⟨hf, by rw [hmatch]; rfl⟩⟩
        by_contra hne
        have := matching_isSome_iff.mpr <| hl f hf hne
        simp [hmatch] at this

-- The first payment of the day with the reference and the amount.
theorem matching_eq {f : ChannelTransactionFeed} : r.matching s f =
    ((r.payments s).find? fun p => p.2.bankTxnRef = f.bankTxnRef.val && p.2.amount = f.amount).map (·.1) := by
  rw [ReconciliationRequest.matching, Table.first, ReconciliationRequest.payments, Table.filter, List.find?_filter]
  simp only [Bool.and_assoc, Bool.decide_and, Bool.decide_eq_true]

theorem settled_settled {f : ChannelTransactionFeed} (h : r.payments t = r.payments s) :
    r.settled t (r.settled s f) = r.settled s f := by
  have hmatch {g : ChannelTransactionFeed} : r.matching t g = r.matching s g := by rw [matching_eq, matching_eq, h]
  unfold ReconciliationRequest.settled
  by_cases hf : r.receives f
  case neg => rw [if_neg hf, if_neg hf]
  case pos =>
    have hsettle {found : Option ℕ} : r.matching s (settle found f) = r.matching s f := by cases found <;> rfl
    rw [if_pos hf, if_pos (receives_settle.trans hf), hmatch, hsettle, settle_settle]

-- Running the day again says the same, and leaves its feed rows as they are.
structure Repeated (r : ReconciliationRequest) (run run' : ℕ) (t w : Db) : Prop where
  rows     : ∃ x y, (t.table .reconciliationRun).get run = some x ∧ (w.table .reconciliationRun).get run' = some y ∧
    y.totalPlatform = x.totalPlatform ∧ y.totalBank = x.totalBank ∧ y.status = x.status
  feedRows : r.feedRows w = r.feedRows t

theorem ReconciliationRequest.Covered.congr (hp : r.payments t = r.payments s) (hf : r.feedRows t =
    (r.feedRows s).map fun f => (f.1, r.settled u f.2)) : r.Covered t ↔ r.Covered s := by
  have hfacts {f : ChannelTransactionFeed} : (r.settled u f).bankTxnRef = f.bankTxnRef ∧ (r.settled u f).amount = f.amount := by
    unfold ReconciliationRequest.settled
    split
    · cases r.matching u f <;> exact ⟨rfl, rfl⟩
    · exact ⟨rfl, rfl⟩
  unfold ReconciliationRequest.Covered
  rw [hf, List.forall_mem_map, hp]
  simp only [hfacts]

theorem repeated {run' : ℕ} (h : Reconciled r run s t ∧ Filed r run s t) (h' : Reconciled r run' v w ∧ Filed r run' v w)
    (hpayments : r.payments v = r.payments t) (hrows : r.feedRows v = r.feedRows t) : Repeated r run run' t w := by
  have ⟨hr, hf⟩ := h
  have ⟨hr', hf'⟩ := h'
  have hp : r.payments v = r.payments s := hpayments.trans hr.payments
  constructor
  case rows =>
    have ⟨x, hx, hplatform, hbank, hstatus⟩ := hr.run
    have ⟨y, hy, hplatform', hbank', hstatus'⟩ := hr'.run
    refine ⟨x, y, hx, hy, Numeric.ext ?_, Numeric.ext ?_, ?_⟩
    · rw [hplatform', hplatform, hp]
    · rw [hbank', hbank, hrows, hf.bankTotal]
    · rw [ReconciliationRequest.Covered.congr hp (hrows.trans <| hf.feedRows r)] at hstatus'
      rcases hstatus with ⟨hx, hc⟩ | ⟨hx, hc⟩
      case inl => exact ((hstatus'.resolve_right fun ⟨_, hnot⟩ => hnot hc).1).trans hx.symm
      case inr => exact ((hstatus'.resolve_left fun ⟨_, hc'⟩ => hc hc').1).trans hx.symm
  case feedRows =>
    rw [hf'.feedRows, hrows, hf.feedRows, List.map_map]
    exact List.map_congr_left fun f _ => Prod.ext rfl <| settled_settled hp

end Consistency

section Run

-- The states that such requests lead to from `s`, on any days and in any order, with the runs of the
-- reconciliation meeting `ok`.
inductive FeedRun (gw : Gateway) (fw : Framework) (ok : ReconciliationRequest → Db → Prop) (s : Db) : Db → Prop
  | start : FeedRun gw fw ok s s
  | intake {t u : Db} {n m : Name → ℕ} {out : Except relational.Exn Unit} (today : Date) (r : Intake) :
    FeedRun gw fw ok s t → respond (r.view gw fw today) t n = (out, u, m) → FeedRun gw fw ok s u
  | reconcile {t u : Db} {n m : Name → ℕ} {out : Except relational.Exn ℕ} (r : ReconciliationRequest) :
    FeedRun gw fw ok s t → ok r t → (runReconciliation r).call t n = (out, u, m) → FeedRun gw fw ok s u

variable {ok : ReconciliationRequest → Db → Prop}

theorem FeedRun.filings (h : FeedRun gw fw ok s t) (hs : Filings s) : Filings t := by
  induction h with
  | start => exact hs
  | intake today r _ hr hi =>
    rcases respond_post (feedStays_view _ feedStays_refl) hr with ⟨rfl, _⟩ | ⟨ht, _⟩
    · exact hi
    · exact ht.filings hi
  | @reconcile t u n m out r _ _ hc hi =>
    cases out with
    | error e => exact Prog.call_error hc ▸ hi
    | ok run =>
      have ⟨⟨_, hfiled⟩, _⟩ := Prog.call_ok post_runReconciliation hc
      exact hfiled.filings hi

-- As long as every run finds the rows that are matched linked, they remain matched.
theorem FeedRun.matched (h : FeedRun gw fw ReconciliationRequest.Linked s t) {f : ChannelTransactionFeed}
    (hf : (s.table .feed).get k = some f) (hmatched : f.matchStatus = .matched) (hpayment : f.matchedPayment ≠ none) :
    ∃ g, (t.table .feed).get k = some g ∧ g.matchStatus = .matched ∧ g.matchedPayment ≠ none := by
  induction h with
  | start => exact ⟨f, hf, hmatched, hpayment⟩
  | intake today r _ hr hi =>
    rcases respond_post (feedStays_view _ feedStays_refl) hr with ⟨rfl, _⟩ | ⟨ht, _⟩
    · exact hi
    · have ⟨g, hg, hrest⟩ := hi
      exact ⟨g, ht.feed hg, hrest⟩
  | @reconcile t u n m out r _ hl hc hi =>
    have ⟨g, hg, hgm, hgp⟩ := hi
    cases out with
    | error e => exact Prog.call_error hc ▸ ⟨g, hg, hgm, hgp⟩
    | ok run =>
      have ⟨⟨_, hfiled⟩, _⟩ := Prog.call_ok post_runReconciliation hc
      refine ⟨_, by rw [hfiled.feed, hg, Option.map_some], ?_⟩
      split
      case isFalse => exact ⟨hgm, hgp⟩
      case isTrue hreceives =>
        have hsome := matching_isSome_iff.mpr <| hl (k, g) (Table.mem_filter_iff.mpr ⟨hg, hreceives⟩) hgp
        have ⟨i, hi⟩ := Option.isSome_iff_exists.mp hsome
        rw [hi]
        exact ⟨rfl, nofun⟩

end Run

-- Nothing has been received or reconciled yet.
structure Db.NothingReceived (s : Db) : Prop where
  feed       : s.table .feed = .empty
  runs       : s.table .reconciliationRun = .empty
  exceptions : s.table .reconciliationException = .empty

theorem Db.NothingReceived.filings (h : s.NothingReceived) : Filings s where
  unique _ _ _ hj _ := by
    have ⟨x, hx, _⟩ := hj
    simp [h.runs] at hx
  keyed hx := by simp [h.exceptions] at hx

namespace Sample

-- A payment at a teller of the bank is notified.
def delivered : Db × (Name → ℕ) :=
  (respond ((Intake.webhook 0 notification).view gateway framework day) billed.1 billed.2).2

-- It is taken back.
def takenBack : Db × (Name → ℕ) :=
  (respond ((Intake.reverse 10).view gateway framework day) delivered.1 delivered.2).2

def tellerReconciliation : ReconciliationRequest :=
  ⟨1, ⟨2, ⟨.otc⟩⟩, day, 1⟩

def reconciled : Db × (Name → ℕ) :=
  ((runReconciliation tellerReconciliation).call takenBack.1 takenBack.2).2

theorem nothing_received : billed.1.NothingReceived where
  feed       := by decide +kernel
  runs       := by decide +kernel
  exceptions := by decide +kernel

theorem feedRun_delivered {ok : ReconciliationRequest → Db → Prop} :
    FeedRun gateway framework ok billed.1 delivered.1 :=
  .intake (n := billed.2) day (.webhook 0 notification) .start rfl

theorem feedRun_takenBack {ok : ReconciliationRequest → Db → Prop} :
    FeedRun gateway framework ok billed.1 takenBack.1 :=
  .intake (n := delivered.2) day (.reverse 10) feedRun_delivered rfl

end Sample

-- Whatever has been notified, reversed and run before, a run leaves the feed rows of its day consistent exactly
-- if those that are matched are linked still, and the next run repeats it. While runs find them linked, the
-- row of a notification that has been posted stays matched.
theorem feedRows_consistent (h₀ : s₀.NothingReceived) (h : FeedRun gw fw (fun _ _ => True) s₀ s) :
    (∀ {r : ReconciliationRequest} {n m : Name → ℕ} {run : ℕ} {t : Db},
      (runReconciliation r).call s n = (.ok run, t, m) → (Consistent r t ↔ r.Linked s) ∧
        ∀ {actor : ℕ} {v w : Db} {n m : Name → ℕ} {run' : ℕ},
          r.payments v = r.payments t → r.feedRows v = r.feedRows t →
            (runReconciliation { r with actor }).call v n = (.ok run', w, m) → Repeated r run run' t w) ∧
    ∀ {today : Date} {now : ℕ} {r : WebhookRequest} {n m : Name → ℕ} {payment : ℕ} {t : Db},
      respond (webhook gw today now r) s n = (.ok (.posted payment), t, m) →
        ∃ k f, (s.table .feed).get k = none ∧ (t.table .feed).get k = some f ∧ f.matchStatus = .matched ∧
          f.matchedPayment = some payment ∧ ∀ u, FeedRun gw fw ReconciliationRequest.Linked t u →
            ∃ g, (u.table .feed).get k = some g ∧ g.matchStatus = .matched := by
  have hs := h.filings h₀.filings
  refine ⟨fun hc => ?_, fun hr => ?_⟩
  · have ⟨hpost, _⟩ := Prog.call_ok post_runReconciliation hc
    refine ⟨hpost.2.consistent_iff hs, fun {actor v w n m run'} hpayments hrows hc' => ?_⟩
    have ⟨⟨hr', hf'⟩, _⟩ := Prog.call_ok post_runReconciliation hc'
    exact repeated hpost ⟨⟨hr'.run, hr'.feedRows, hr'.payments⟩, ⟨hf'.row, hf'.old, hf'.new, hf'.rows, hf'.feed,
      hf'.excepted, hf'.others, hf'.only⟩⟩ hpayments hrows
  · rcases respond_post post_webhook_posted hr with ⟨_, e, he⟩ | ⟨hposted, _⟩
    · contradiction
    · have ⟨k, f, hk, hf, hmatched, hpayment⟩ := hposted _ rfl
      refine ⟨k, f, hk, hf, hmatched, hpayment, fun u hu => ?_⟩
      have ⟨g, hg, hgm, _⟩ := hu.matched hf hmatched (by simp [hpayment])
      exact ⟨g, hg, hgm⟩

set_option maxRecDepth 20000 in
theorem sample_consistent : Consistent Sample.tellerReconciliation
    ((runReconciliation Sample.tellerReconciliation).call Sample.delivered.1 Sample.delivered.2).2.1 := by
  have hc := Sample.call_returns (p := runReconciliation Sample.tellerReconciliation) (s := Sample.delivered)
    (a := 10) (by decide +kernel)
  refine ((feedRows_consistent Sample.nothing_received Sample.feedRun_delivered).1 hc).1.mpr fun f hf _ => ?_
  have hlinked : (Sample.tellerReconciliation.feedRows Sample.delivered.1).all fun f =>
      (Sample.tellerReconciliation.payments Sample.delivered.1).any fun p =>
        p.2.bankTxnRef = f.2.bankTxnRef.val ∧ p.2.amount = f.2.amount := by decide +kernel
  have ⟨p, hp, he⟩ := List.any_eq_true.mp <| List.all_eq_true.mp hlinked f hf
  exact ⟨p, hp, of_decide_eq_true he⟩

set_option maxRecDepth 20000 in
-- The payment has been taken back, and its row is an exception that names it still.
theorem not_consistent : ∃ (gw : Gateway) (fw : Framework) (s₀ s t : Db) (r : ReconciliationRequest) (run : ℕ)
    (n m : Name → ℕ), s₀.NothingReceived ∧ FeedRun gw fw (fun _ _ => True) s₀ s ∧
      (runReconciliation r).call s n = (.ok run, t, m) ∧ ¬Consistent r t := by
  have hc : (runReconciliation Sample.tellerReconciliation).call Sample.takenBack.1 Sample.takenBack.2 =
    (.ok 10, Sample.reconciled.1, Sample.reconciled.2) := Sample.call_returns (by decide +kernel)
  refine ⟨_, _, _, _, _, _, _, _, _, Sample.nothing_received, Sample.feedRun_takenBack, hc, fun h => ?_⟩
  have hrow : (Sample.tellerReconciliation.feedRows Sample.reconciled.1).any fun f =>
      f.2.matchStatus = .exception ∧ f.2.matchedPayment = some 10 := by decide +kernel
  have ⟨f, hf, he⟩ := List.any_eq_true.mp hrow
  have ⟨hexception, hpayment⟩ := of_decide_eq_true he
  simp [(h.exception f hf hexception).1] at hpayment

end ACRev360
