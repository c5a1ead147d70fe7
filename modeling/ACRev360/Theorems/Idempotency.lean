import ACRev360.Services.Middleware
import ACRev360.Theorems.Ledger

namespace ACRev360

open Relational Relational.Database

variable {gw : Gateway} {fw : Framework} {today : Date} {s t : Db} {council channel : ℕ}

-- A channel has recorded no bank reference for two payments, unless it is blank.
def Db.OnePayment (s : Db) : Prop :=
  ∀ {j k p q}, (s.table .payment).get j = some p → (s.table .payment).get k = some q →
    p.channel = q.channel → p.bankTxnRef = q.bankTxnRef → p.bankTxnRef ≠ "" → j = k

theorem Db.onePayment_iff : s.OnePayment ↔ Unique (R := relational) .payment s := by
  constructor
  · rintro h u j k ⟨p, hp, hpu⟩ ⟨q, hq, hqu⟩
    simp only [uniqueKeys] at hpu hqu
    split at hpu
    · simp at hpu
    · split at hqu
      · simp at hqu
      · simp only [List.mem_singleton] at hpu hqu
        obtain ⟨hchannel, href⟩ := UniqueKey.bankTxnRef.inj (hpu.symm.trans hqu)
        exact h hp hq hchannel href ‹_›
  · intro h j k p q hp hq hchannel href hblank
    exact h (u := .bankTxnRef p.channel p.bankTxnRef) ⟨p, hp, by simp [hblank]⟩
      ⟨q, hq, by simp [← hchannel, ← href, hblank]⟩

section OnePayment

abbrev OnePayment : Db → Prop :=
  Unique (R := relational) .payment

theorem createPayment_maintains {bill : ℕ} {r : PaymentRequest} :
    (createPayment today bill r).Maintains OnePayment := by
  refine .bind (.of_keeps ?geo) fun _ => .bind (.of_keeps store_keeps) fun _ => ?stored
  case geo => split; exacts [.ret, keeps_abort]
  case stored =>
    refine .bind (.of_keeps storeText_keeps) fun _ => .bind maintains_create fun _ => .of_keeps ?_
    exact .bind (keeps_save fun _ hs => hs.modify ⟨fun _ => rfl, fun _ => rfl⟩) fun _ => .ret

theorem onePayment_post {bill : Loaded Bill} {r : PaymentRequest} :
    (postPayment today bill r).Maintains OnePayment :=
  postPayment_maintains createPayment_maintains fun h => unique_of_only h (by simp)

theorem onePayment_reverse {payment : Loaded Payment} :
    (reversePayment today payment).Maintains OnePayment :=
  .of_keeps <| reversePayment_keeps (fun hg hs => hs.modify hg) fun h => unique_of_only h (by simp)

theorem onePayment_channel {code : ChannelCode} : (getOrCreateChannel code).Maintains OnePayment :=
  .of_keeps <| getOrCreateChannel_keeps fun h => unique_of_only h (by simp)

theorem onePayment_sync {records : List SyncRequest} : (sync fw today records).Maintains OnePayment :=
  sync_maintains onePayment_post fun h => unique_of_only h (by simp)

theorem onePayment_postNotified {feed : ℕ} {n : Normalised} {postedBy : Option ℕ} :
    (postNotified today council channel feed n postedBy).Maintains OnePayment := by
  have hO : ∀ {s t : Db}, Only [Name.feed] s t → Preserves (S := relational.schema) OnePayment s t :=
    fun h => unique_of_only h (by simp)
  refine .bind (.of_keeps lookupText_keeps) fun bill => ?_
  split
  case h_1 => exact .bind (.of_keeps <| setMatchStatus_keeps hO) fun _ => .ret
  case h_2 =>
    refine .bind (.attempt <| .atomic onePayment_post) fun r => ?_
    split
    · exact .bind (.of_keeps <| matchPayment_keeps hO) fun _ => .ret
    · split
      · exact .bind (.of_keeps <| setMatchStatus_keeps hO) fun _ => .ret
      · exact .raise

theorem onePayment_webhook {now : ℕ} {r : WebhookRequest} :
    (webhook gw today now r).Maintains OnePayment := by
  unfold webhook
  split
  case h_2 => exact .ret
  case h_3 => exact .ret
  case h_4 => exact .of_keeps keeps_refuse
  split
  case h_1 => exact .ret
  refine .atomic <| .bind onePayment_channel fun channel => .bind (.of_keeps ?client) fun client => ?_
  case client =>
    split
    · exact authenticateWebhookClient_keeps fun h => unique_of_only h (by simp)
    · exact .ret
  split
  case isTrue => exact .ret
  refine .bind (.of_keeps lookupText_keeps) fun existing => ?_
  split
  case isTrue => exact .ret
  refine .bind (.of_keeps <| receiveFeed_keeps fun h => unique_of_only h (by simp)) fun received => ?_
  split
  split
  case isTrue => exact .ret
  refine .bind onePayment_postNotified fun notified => ?_
  split <;> exact .ret

theorem onePayment_otcSettlement {user : ℕ} {data : Json} :
    (otcSettlement gw today council user data).Maintains OnePayment := by
  unfold otcSettlement
  split
  case h_2 => exact .ret
  refine .bind onePayment_channel fun channel => .bind (.foldlM fun acc row => ?_) fun _ => .ret
  unfold settleRow
  split
  case h_1 => exact .ret
  case h_2 => exact .of_keeps keeps_refuse
  refine .bind (.of_keeps <| receiveFeed_keeps fun h => unique_of_only h (by simp)) fun received => ?_
  split
  split
  case isTrue => exact .ret
  refine .bind onePayment_postNotified fun notified => ?_
  split <;> exact .ret

theorem onePayment_createPayment {actor : ℕ} {portfolio : ℕ → Bill → Bool} {data : PaymentForm} :
    (createPaymentFrom fw today council actor portfolio data).Maintains OnePayment :=
  createPaymentFrom_maintains onePayment_post fun h => unique_of_only h (by simp)

theorem onePayment_view {r : Intake} : (r.view gw fw today).Maintains OnePayment := by
  cases r with
  | webhook now r => exact .bind onePayment_webhook fun _ => .ret
  | otcSettlement council user data => exact .bind onePayment_otcSettlement fun _ => .ret
  | createPayment council actor portfolio data => exact .bind onePayment_createPayment fun _ => .ret
  | sync records => exact .bind onePayment_sync fun _ => .ret
  | reverse pk => exact .bind (.of_keeps getObject_keeps) fun _ => .atomic onePayment_reverse

end OnePayment

section Received

-- The feed has a row of the channel with the reference, as its column takes it.
def Db.Received (s : Db) (channel : ℕ) (bankTxnRef : String) : Prop :=
  ∃ k f, (s.table .feed).get k = some f ∧ f.channel = channel ∧
    fitText 64 bankTxnRef = some f.bankTxnRef.val

theorem Db.Received.of_only {ts : List Name} {bankTxnRef : String} (h : s.Received channel bankTxnRef)
    (ho : Only ts s t) (ht : Name.feed ∉ ts) : t.Received channel bankTxnRef := by
  obtain ⟨k, f, hf, hchannel, href⟩ := h
  exact ⟨k, f, ho .feed ht ▸ hf, hchannel, href⟩

variable {payload row : Json} {n : Normalised}

-- What has been received is not entered again, for no council.
theorem post_receiveFeed_received (h : s.Received channel n.bankTxnRef) :
    Prog.Post (receiveFeed today council channel payload n) s fun r t => t = s ∧ ∀ k, r ≠ .ok (k, true) := by
  have ⟨k, f, hf, hchannel, href⟩ := h
  refine .bind <| post_lookupText (fun _ => ?_) fun _ => ⟨rfl, nofun⟩
  refine post_getOrCreate_all (fun _ _ => ⟨rfl, nofun⟩) (fun _ => ?make) fun _ _ _ => ⟨rfl, nofun⟩
  refine post_guard (fun _ => trivial) fun _ => .bind <| post_storeText (fun v hv => ?stored) fun _ => trivial
  refine .bind <| post_store (fun amount _ => post_create (fun i hc => ?_) fun _ => trivial) fun _ => trivial
  have ⟨_, _, hfree⟩ := conflicts_false hc
  have hv : f.bankTxnRef.val = v.val := Option.some.inj <| href.symm.trans hv
  exact absurd ⟨f, hf, by simp [hchannel, hv]⟩ <| hfree (.feedRow channel v.val) (by simp) .feed k

theorem post_settleRow_received {user : ℕ} {acc : OTCResponse}
    (h : ∀ n, adapt gw "OTC" row = .ok n → s.Received channel n.bankTxnRef) :
    Prog.Post (settleRow gw today council user channel acc row) s fun r t =>
      t = s ∧ ∀ acc', r = .ok acc' → acc'.posted = acc.posted := by
  unfold settleRow
  cases hn : adapt gw "OTC" row with
  | error e =>
    cases e with
    | adapterError e => exact .ret ⟨rfl, fun _ h => Except.ok.inj h ▸ rfl⟩
    | other e => exact post_refuse ⟨rfl, nofun⟩
  | ok n =>
    refine .bind <| (post_receiveFeed_received <| h n hn).mono fun r t ⟨hst, hr⟩ => ?_
    subst hst
    match r with
    | .error e => exact ⟨rfl, nofun⟩
    | .ok (k, true) => exact absurd rfl (hr k)
    | .ok (k, false) => exact .ret ⟨rfl, fun _ h => Except.ok.inj h ▸ rfl⟩

theorem post_webhook_received {now : ℕ} {r : WebhookRequest} {code : ChannelCode}
    (hn : adapt gw r.code r.payload = .ok n) (hcode : ChannelCode.ofCode? r.code = some code)
    (hchannel : channelByCode s code = some channel) (h : s.Received channel n.bankTxnRef) :
    Prog.Post (webhook gw today now r) s fun _ t => Only [Name.apiClient] s t := by
  have rfl_ : Only (R := relational) [.apiClient] s s := fun _ _ => rfl
  unfold webhook
  simp only [hn, hcode]
  split
  case h_1 => exact .ret rfl_
  case h_2 council _ =>
    suffices Prog.Post (notify gw today now r council code n) s fun _ t => Only [Name.apiClient] s t from
      .atomic <| this.mono fun r t ht => by cases r; exacts [rfl_, ht]
    refine .bind <| post_getOrCreateChannel (fun k hk => ?found) (fun hnone => ?_) fun hnone => ?_
    case found =>
      obtain rfl : channel = k := Option.some.inj <| hchannel.symm.trans hk
      have hclient : Writes (R := relational) [.apiClient] (if gw.strictSignatures then
          authenticateWebhookClient gw now council channel r.rawBody r.signature else pure (some 0)) := by
        split
        · exact authenticateWebhookClient_keeps id
        · exact .ret
      refine .bind <| hclient.post.mono fun client t ht => ?_
      cases client with
      | error e => exact ht
      | ok client =>
        have h' : Db.Received t channel n.bankTxnRef := h.of_only ht <| by simp
        simp only
        split
        case isTrue => exact .ret ht
        refine .bind <| post_lookupText (fun _ => ?_) fun _ => ht
        simp only
        split
        case isTrue => exact .ret ht
        refine .bind <| (post_receiveFeed_received h').mono fun r u ⟨hu, hr⟩ => ?_
        subst hu
        match r with
        | .error e => exact ht
        | .ok (k, true) => exact absurd rfl (hr k)
        | .ok (k, false) => exact .ret ht
    all_goals simp [hchannel] at hnone

end Received

-- The same bills, payments, credit balances and feed rows.
structure SameBooks (s t : Db) : Prop where
  bill    : t.table .bill = s.table .bill
  payment : t.table .payment = s.table .payment
  payer   : t.table .payer = s.table .payer
  feed    : t.table .feed = s.table .feed

theorem SameBooks.refl : SameBooks s s where
  bill    := rfl
  payment := rfl
  payer   := rfl
  feed    := rfl

theorem SameBooks.of_only {ts : List Name} (h : Only ts s t)
    (ht : Name.bill ∉ ts ∧ Name.payment ∉ ts ∧ Name.payer ∉ ts ∧ Name.feed ∉ ts) : SameBooks s t where
  bill    := h .bill ht.1
  payment := h .payment ht.2.1
  payer   := h .payer ht.2.2.1
  feed    := h .feed ht.2.2.2

-- However requests follow each other, no reference of a channel is paid in twice, and a delivery that
-- the feed has by then changes nothing: neither a notification nor a row of a settlement file, in
-- whichever state its turn comes.
theorem deliveries_idempotent (h : Intake.Served gw fw s t) (hs : s.OnePayment) :
    t.OnePayment ∧
    (∀ {today now r n code channel out u m m'}, adapt gw r.code r.payload = .ok n →
      ChannelCode.ofCode? r.code = some code → channelByCode t code = some channel →
      t.Received channel n.bankTxnRef → respond (webhook gw today now r) t m = (out, u, m') →
      SameBooks t u) ∧
    (∀ {today council user channel acc row n} {u : Db}, adapt gw "OTC" row = .ok n →
      u.Received channel n.bankTxnRef →
      Prog.Post (settleRow gw today council user channel acc row) u fun _ v => SameBooks u v) := by
  refine ⟨?once, ?notified, ?settled⟩
  case once => exact Db.onePayment_iff.mpr <| h.preserves onePayment_view <| Db.onePayment_iff.mp hs
  case notified =>
    intro today now r n code channel out u m m' hn hcode hchannel hr hu
    rcases respond_post (post_webhook_received hn hcode hchannel hr) hu with ⟨rfl, _⟩ | ⟨ho, _⟩
    · exact .refl
    · exact .of_only ho <| by simp
  case settled =>
    intro today council user channel acc row n u hn hr
    refine (post_settleRow_received fun n' hn' => ?_).mono fun _ v hv => hv.1 ▸ .refl
    exact Except.ok.inj (hn.symm.trans hn') ▸ hr

namespace Sample

def gateway : Gateway where
  decimal
    | .int z => some (.finite z)
    | _      => none
  prefixMap p         := if p = "KAC" then some 1 else none
  activeCouncil _     := true
  verifySignature _ _ := fun _ => true
  strictSignatures    := false

def framework : Framework where
  postPayment _ := none
  createPayer _ := none
  coordinate _  := none

-- A council that a bank sends settlement files.
def banked : Db where
  table     := Function.update tables .channel <| (tables .channel).insert 2 ⟨.otc⟩
  retired _ := []

def billed : Db × (Name → ℕ) :=
  serve (banked, fun _ => 10) <| issue [1] false

def tellerRow (tellerRef billRef : String) (amount : ℤ) : Json :=
  .obj [("tellerRef", .str tellerRef), ("branchCode", .str "012"), ("amount", .int amount),
    ("billRef", .str billRef)]

def file : Json :=
  .arr [tellerRow "T1" "KAC/2017/000010" 20]

def deposited : Db × (Name → ℕ) :=
  (respond ((Intake.otcSettlement 1 1 file).view gateway framework day) billed.1 billed.2).2

-- The notification of what has been settled.
def notification : WebhookRequest :=
  ⟨"OTC", tellerRow "T1" "KAC/2017/000010" 20, "", none, day⟩

theorem served_deposited : Intake.Served gateway framework billed.1 deposited.1 :=
  .serve (n := billed.2) day (.otcSettlement 1 1 file) .start rfl

theorem adapt_notification : adapt gateway "OTC" notification.payload = .ok ⟨"T1", 20, "KAC/2017/000010"⟩ := by
  decide +kernel

set_option maxRecDepth 20000 in
theorem received_deposited : Db.Received deposited.1 2 "T1" := by
  have hf : (deposited.1.table .feed).get 10 |>.any fun f =>
      f.channel = 2 ∧ fitText 64 "T1" = some f.bankTxnRef.val := by decide +kernel
  obtain ⟨f, hf, hp⟩ := Option.any_eq_true _ _ |>.mp hf
  obtain ⟨hchannel, href⟩ := of_decide_eq_true hp
  exact ⟨10, f, hf, hchannel, href⟩

end Sample

set_option maxRecDepth 20000 in
theorem sample_idempotent : Db.OnePayment Sample.deposited.1 ∧
    SameBooks Sample.deposited.1
      (respond (webhook Sample.gateway Sample.day 0 Sample.notification) Sample.deposited.1 fun _ => 20).2.1 ∧
    Prog.Post (settleRow Sample.gateway Sample.day 1 1 2 ⟨0, 0, []⟩ Sample.notification.payload)
      Sample.deposited.1 fun _ t => SameBooks Sample.deposited.1 t := by
  have hs : Db.OnePayment Sample.billed.1 := fun hp => absurd hp <| by
    have : (Sample.billed.1.table .payment) = .empty := by decide +kernel
    simp [this]
  have h := deliveries_idempotent Sample.served_deposited hs
  refine ⟨h.1, h.2.1 Sample.adapt_notification rfl ?_ Sample.received_deposited rfl,
    h.2.2 Sample.adapt_notification Sample.received_deposited⟩
  decide +kernel

end ACRev360
