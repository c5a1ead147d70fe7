import ACRev360.Theorems.Adapters

namespace ACRev360

open Relational Relational.Database

variable {gw : Gateway} {today : Date} {s t : Db} {council channel user k : ℕ} {payload row : Json}
  {n : Normalised}

-- What it takes that a reference that the council has not received is entered in the feed.
structure Enterable (s : Db) (channel : ℕ) (payload : Json) (bankTxnRef : String) : Prop where
  payload : payload.hasNul = false
  text    : (fitText 64 bankTxnRef).isSome
  free    : ¬s.Received channel bankTxnRef

-- What it takes that a reference in the feed is posted, or listed as an exception.
def Postable (s : Db) (council channel : ℕ) (n : Normalised) : Prop :=
  Char.ofNat 0 ∉ n.billRef.toList ∧ ∀ bill ref, billByRef s council n.billRef = some bill →
    bill.row.status.terminal = false → fitText 64 n.bankTxnRef = some ref →
    Payable s channel bill n.amount ref

-- The feed has the row of a reference.
def IsFeedRow (council channel : ℕ) (bankTxnRef : String) (f : ChannelTransactionFeed) : Prop :=
  f.council = council ∧ f.channel = channel ∧ fitText 64 bankTxnRef = some f.bankTxnRef.val

theorem received_iff {bankTxnRef : String} : s.Received channel bankTxnRef ↔
    ∃ v, fitText 64 bankTxnRef = some v ∧ ∃ t k, Holds (R := relational) s (.feedRow channel v) t k := by
  constructor
  · rintro ⟨k, f, hf, hchannel, href⟩
    exact ⟨_, href, .feed, k, f, hf, by simp [hchannel]⟩
  · rintro ⟨v, hv, t, k, f, hf, hu⟩
    cases t with
    | feed =>
      obtain ⟨hchannel, href⟩ := UniqueKey.feedRow.inj <| List.mem_singleton.mp hu
      exact ⟨k, f, hf, hchannel.symm, hv.trans <| congrArg some href⟩
    | payment =>
      simp only [uniqueKeys] at hu
      split at hu <;> simp at hu
    | _ => simp at hu

theorem feedOf_some {bankTxnRef : String} (h : feedOf s council channel bankTxnRef = some k) :
    ∃ f, (s.table .feed).get k = some f ∧ f.council = council ∧ f.channel = channel ∧
      f.bankTxnRef.val = bankTxnRef := by
  obtain ⟨⟨k', f⟩, hf, rfl⟩ := Option.map_eq_some_iff.mp h
  have ⟨hget, hp⟩ := Table.first_some hf
  simp only [Bool.and_eq_true, decide_eq_true_eq] at hp
  exact ⟨f, hget, hp.1.1, hp.1.2, hp.2⟩

theorem runs_receiveFeed (hchannel : Database.Has s (.channel, channel))
    (hamount : 0 ≤ n.amount ∧ n.amount ≤ maxAmount) :
    Runs (receiveFeed today council channel payload n) s fun out t => match out with
      | .ok (k, false) => feedOf s council channel n.bankTxnRef = some k ∧ t = s
      | .ok (k, true)  => feedOf s council channel n.bankTxnRef = none ∧
        Enterable s channel payload n.bankTxnRef ∧ (s.table .feed).get k = none ∧
        (∃ f, (t.table .feed).get k = some f ∧ IsFeedRow council channel n.bankTxnRef f) ∧
        (∀ i ≠ k, (t.table .feed).get i = (s.table .feed).get i) ∧ Only [Name.feed] s t
      | .error e       => ¬Enterable s channel payload n.bankTxnRef ∧ t = s ∧ e.aborted = false ∧
        feedOf s council channel n.bankTxnRef = none := by
  obtain ⟨amount, ha⟩ := ofRat?_money hamount.1 hamount.2
  refine .bind <| runs_lookupText (fun _ => ?_) fun hnul => ?nul
  case nul =>
    refine ⟨fun h => by simpa [fitText, hnul] using h.text, rfl, rfl, ?_⟩
    cases hf : feedOf s council channel n.bankTxnRef with
    | none => rfl
    | some k =>
      obtain ⟨f, _, _, _, href⟩ := feedOf_some hf
      simpa [href, fitText, hnul] using f.bankTxnRef.property
  refine runs_getOrCreate (fun k hk => ⟨hk, rfl⟩) fun hnone => ?_
  unfold createFeed
  refine runs_when (fun hnul => .bind <| .raise ?_) fun hnul => .bind ?_
  · exact ⟨fun h => by simp [h.payload] at hnul, rfl, rfl, hnone⟩
  refine runs_storeText (fun v hv => .bind ?_) fun hn => ?_
  · refine runs_store (fun x hx => ?_) fun hn => by simp [ha] at hn
    refine runs_create (by simpa using hchannel) (fun hfree i hr hi => ?_) fun u hu t' i hheld => ?_
    · have hget (f : ChannelTransactionFeed) :
          ((Database.insert s .feed i f).table .feed).get i = some f := by
        rw [insert_table hr, Table.get_insert_self hi]
      refine ⟨hnone, ⟨by simpa using hnul, by simp [hv], fun h => ?_⟩, hi, ⟨_, hget _, rfl, rfl, hv⟩,
        fun j hj => ?_, only_insert <| .head _⟩
      · obtain ⟨v', hv', t', j, hheld⟩ := received_iff.mp h
        obtain rfl := Option.some.inj <| hv.symm.trans hv'
        exact hfree _ (.head _) t' j hheld
      · rw [insert_table hr, Table.get_insert_ne hj]
    · obtain rfl := List.mem_singleton.mp hu
      exact ⟨fun h => h.free <| received_iff.mpr ⟨v.val, hv, t', i, hheld⟩, rfl, rfl, hnone⟩
  · exact ⟨fun h => by simpa [hn] using h.text, rfl, rfl, hnone⟩

theorem Postable.congr (h : Postable s council channel n) (ho : Only [Name.feed] s t) :
    Postable t council channel n := by
  refine ⟨h.1, fun bill ref hbill hlive href => ?_⟩
  rw [billByRef, ho .bill (by simp)] at hbill
  exact (h.2 bill ref hbill hlive href).congr (ho .payment <| by simp) (ho .line <| by simp)
    (ho .allocation <| by simp) (ho .payer <| by simp)

-- Feed rows are never removed, nor made to stand for something else.
def FeedKept (s t : Db) : Prop :=
  ∀ ⦃k f⦄, (s.table .feed).get k = some f → ∃ f', (t.table .feed).get k = some f' ∧
    f'.council = f.council ∧ f'.channel = f.channel ∧ f'.bankTxnRef = f.bankTxnRef

theorem FeedKept.trans {u : Db} (h₁ : FeedKept s t) (h₂ : FeedKept t u) : FeedKept s u := by
  intro k f hf
  obtain ⟨f₁, hf₁, hc₁, hh₁, hr₁⟩ := h₁ hf
  obtain ⟨f₂, hf₂, hc₂, hh₂, hr₂⟩ := h₂ hf₁
  exact ⟨f₂, hf₂, hc₂.trans hc₁, hh₂.trans hh₁, hr₂.trans hr₁⟩

theorem FeedKept.of_eq (h : t.table .feed = s.table .feed) : FeedKept s t :=
  fun _ f hf => ⟨f, h ▸ hf, rfl, rfl, rfl⟩

theorem FeedKept.modify {g : ChannelTransactionFeed → ChannelTransactionFeed}
    (hg : ∀ f, (g f).council = f.council ∧ (g f).channel = f.channel ∧ (g f).bankTxnRef = f.bankTxnRef) :
    FeedKept s (s.modify .feed k g) := by
  intro i f hf
  rw [modify_table, Table.get_modify]
  split
  case isTrue hi => exact ⟨g f, by rw [← hi, hf]; rfl, hg f⟩
  case isFalse => exact ⟨f, hf, rfl, rfl, rfl⟩

-- The tables that a notification in the feed goes on to write.
abbrev postedTables : List Name :=
  [.feed, .payment, .allocation, .bill, .payer, .receipt, .debtCase]

theorem runs_postNotified {feed : ℕ} {postedBy : Option ℕ} {ref : String}
    (hfeed : Database.Has s (.feed, feed)) (href : fitText 64 n.bankTxnRef = some ref)
    (hamount : 0 ≤ n.amount ∧ n.amount ≤ maxAmount) (hchannel : Database.Has s (.channel, channel))
    (huser : ∀ k, postedBy = some k → Database.Has s (.user, k)) :
    Runs (postNotified today council channel feed n postedBy) s fun out t => match out with
      | .ok _    => Postable s council channel n ∧ FeedKept s t ∧ Only postedTables s t
      | .error e => ¬Postable s council channel n ∧ t = s ∧ e.aborted = false := by
  have status {u : Db} {st : MatchStatus} (hu : Database.Has u (.feed, feed)) :
      Runs (setMatchStatus feed st) u fun out t => out = .ok () ∧ FeedKept u t ∧ Only [Name.feed] u t := by
    obtain ⟨f, hf⟩ := hu
    exact runs_save hf (fun _ => .inl) ⟨rfl, .modify fun _ => ⟨rfl, rfl, rfl⟩, only_modify <| .head _⟩
  refine .bind <| runs_lookupText (fun hnul => ?_) fun hnul => ⟨fun h => h.1 hnul, rfl, rfl⟩
  simp only
  cases hbill : billByRef s council n.billRef with
  | none =>
    refine .bind <| (status hfeed).mono fun out t hpost => ?_
    obtain ⟨hout, hk, ho⟩ := hpost
    subst hout
    exact .ret ⟨⟨hnul, fun _ _ h => by simp [hbill] at h⟩, hk, ho.mono <| by simp⟩
  | some bill =>
    obtain ⟨⟨b, row⟩, hfirst, rfl⟩ := Option.map_eq_some_iff.mp hbill
    have hrow := (Table.first_some hfirst).1
    cases hlive : row.status.terminal with
    | true =>
      -- The refusal comes before anything is written.
      have hrejected (r : PaymentRequest) : Runs (postPayment today ⟨b, row⟩ r) s fun out t =>
          ∃ e : Error, out = .error ⟨e, false⟩ ∧ e.isPaymentRejected ∧ t = s := by
        unfold postPayment
        refine runs_when (fun _ => .bind <| .raise ⟨_, rfl, rfl, rfl⟩) fun hs => ?_
        refine runs_when (fun _ => .bind <| .raise ⟨_, rfl, rfl, rfl⟩) fun hc => ?_
        cases hstatus : row.status <;> simp_all [BillStatus.terminal]
      refine .bind <| .attempt <| .atomic <| (hrejected _).mono fun out t hpost => ?_
      obtain ⟨e, hout, he, ht⟩ := hpost
      subst hout ht
      simp only [he, if_true]
      refine .bind <| (status hfeed).mono fun out u hpost => ?_
      obtain ⟨hout, hk, ho⟩ := hpost
      subst hout
      refine .ret ⟨⟨hnul, fun bill' _ h hl => ?_⟩, hk, ho.mono <| by simp⟩
      obtain rfl := Option.some.inj <| hbill.symm.trans h
      simp [hlive] at hl
    | false =>
      refine .bind <| .attempt <| .atomic <| (runs_postPayment hrow hlive rfl hamount href hchannel
        (by simp) huser).mono fun out t hout => ?_
      cases out with
      | ok payment =>
        obtain ⟨hpayable, hpayment, ho⟩ := hout
        obtain ⟨f, hf⟩ := hfeed.of_only ho <| by simp
        refine .bind <| runs_save hf (fun ref href => ?_) <| .ret ⟨⟨hnul, fun bill' ref' h _ href' => ?_⟩, ?_, ?_⟩
        · rcases List.mem_cons.mp href with rfl | href
          · exact .inl <| .head _
          · obtain rfl : ref = (.payment, payment) := by simpa using href
            exact .inr hpayment
        · obtain rfl := Option.some.inj <| hbill.symm.trans h
          obtain rfl := Option.some.inj <| href.symm.trans href'
          exact hpayable
        · exact .trans (.of_eq <| ho .feed <| by simp) <| .modify fun _ => ⟨rfl, rfl, rfl⟩
        · exact IsTrans.trans _ _ _ (ho.mono <| by simp) (only_modify <| by simp)
      | error e =>
        simp only [hout.2]
        refine .raise ⟨fun h => hout.1 <| h.2 _ _ hbill hlive href, rfl, rfl⟩

def OTCResponse.count (r : OTCResponse) : ℕ :=
  r.posted + r.duplicatesSkipped + r.exceptions.length

-- A row counts once, unless its reference is new to the council and cannot be entered or posted.
theorem runs_settleRow {acc : OTCResponse} (hchannel : Database.Has s (.channel, channel))
    (huser : Database.Has s (.user, user)) :
    Runs (settleRow gw today council user channel acc row) s fun out t => match out with
      | .ok acc' => acc'.count = acc.count + 1 ∧ FeedKept s t ∧ Only postedTables s t ∧
        (∀ e, adapt gw "OTC" row ≠ .error (.other e)) ∧ ∀ n, adapt gw "OTC" row = .ok n → Db.Received t channel n.bankTxnRef ∧
          (feedOf s council channel n.bankTxnRef = none →
            Enterable s channel row n.bankTxnRef ∧ Postable s council channel n)
      | .error e => e.aborted = false ∧ ((∃ e, adapt gw "OTC" row = .error (.other e)) ∨
        ∃ n, adapt gw "OTC" row = .ok n ∧ feedOf s council channel n.bankTxnRef = none ∧
          (¬Enterable s channel row n.bankTxnRef ∧ t = s ∨
            Enterable s channel row n.bankTxnRef ∧ ¬Postable s council channel n ∧
              t.table .feed ≠ s.table .feed)) := by
  unfold settleRow
  cases hn : adapt gw "OTC" row with
  | error e =>
    cases e with
    | adapterError e =>
      refine .ret ⟨?_, .of_eq rfl, Std.Refl.refl _, by simp, nofun⟩
      simp only [OTCResponse.count, List.length_append, List.length_singleton]
      omega
    | other e => exact .raise ⟨rfl, .inl ⟨e, rfl⟩⟩
  | ok n =>
    have hamount := adapt_amount hn
    refine .bind <| (runs_receiveFeed hchannel hamount).mono fun out t hreceive => ?_
    match out with
    | .error e => exact ⟨hreceive.2.2.1, .inr ⟨n, rfl, hreceive.2.2.2, .inl ⟨hreceive.1, hreceive.2.1⟩⟩⟩
    | .ok (k, false) =>
      obtain ⟨hfeed, rfl⟩ := hreceive
      obtain ⟨f, hf, _, hc, href⟩ := feedOf_some hfeed
      refine .ret ⟨?_, .of_eq rfl, Std.Refl.refl _, nofun, fun n' hn' => ?_⟩
      · simp only [OTCResponse.count]
        omega
      · obtain rfl := Except.ok.inj hn'
        exact ⟨⟨k, f, hf, hc, href ▸ f.bankTxnRef.property⟩, fun h => by simp [h] at hfeed⟩
    | .ok (k, true) =>
      obtain ⟨hnone, henter, hnew, ⟨f, hf, hisRow⟩, hold, ho⟩ := hreceive
      have hkept : FeedKept s t := fun i g hg => ⟨g, by rw [hold i (by rintro rfl; simp_all), hg], rfl, rfl, rfl⟩
      obtain ⟨ref, href⟩ := Option.isSome_iff_exists.mp henter.text
      refine .bind <| (runs_postNotified ⟨f, hf⟩ href hamount (hchannel.of_only ho <| by simp)
        (fun i hi => Option.some.inj hi ▸ huser.of_only ho <| by simp)).mono fun out u hnotified => ?_
      cases out with
      | error e =>
        obtain ⟨hpost, rfl, he⟩ := hnotified
        refine ⟨he, .inr ⟨n, rfl, hnone, .inr ⟨henter, fun h => hpost <| h.congr ho, fun h => ?_⟩⟩⟩
        rw [h, hnew] at hf
        contradiction
      | ok notified =>
        obtain ⟨hpost, hkept', ho'⟩ := hnotified
        have hreceived : Db.Received u channel n.bankTxnRef := by
          obtain ⟨f', hf', _, hc, hr⟩ := hkept' hf
          exact ⟨k, f', hf', hc.trans hisRow.2.1, hr ▸ hisRow.2.2⟩
        have hpost' : Postable s council channel n := hpost.congr fun t ht => (ho t ht).symm
        have hall : FeedKept s u ∧ Only postedTables s u ∧
            (∀ e, (.ok n : Except Raised Normalised) ≠ .error (.other e)) ∧ ∀ n', (.ok n : Except Raised Normalised) = .ok n' → Db.Received u channel n'.bankTxnRef ∧
              (feedOf s council channel n'.bankTxnRef = none →
                Enterable s channel row n'.bankTxnRef ∧ Postable s council channel n') := by
          refine ⟨hkept.trans hkept', IsTrans.trans _ _ _ (ho.mono <| by simp) ho', nofun, fun n' hn' => ?_⟩
          obtain rfl := Except.ok.inj hn'
          exact ⟨hreceived, fun _ => ⟨henter, hpost'⟩⟩
        cases notified with
        | posted payment => exact .ret ⟨by simp only [OTCResponse.count]; omega, hall⟩
        | _ =>
          refine .ret ⟨?_, hall⟩
          simp only [OTCResponse.count, List.length_append, List.length_singleton]
          omega

-- What it takes that a row does not make the request fail: unless the council has received its
-- reference, or it is no valid row, it can be entered and posted.
def Clear (gw : Gateway) (council : ℕ) (s : Db) (row : Json) : Prop :=
  (∀ e, adapt gw "OTC" row ≠ .error (.other e)) ∧ ∀ n channel, adapt gw "OTC" row = .ok n → channelByCode s .otc = some channel →
    feedOf s council channel n.bankTxnRef = none →
    Enterable s channel row n.bankTxnRef ∧ Postable s council channel n

-- The state between two rows, once the file has come to the end of `rows`.
structure Turned (gw : Gateway) (channel user : ℕ) (rows : List Json) (s : Db) : Prop where
  found    : channelByCode s .otc = some channel
  teller   : Database.Has s (.user, user)
  received : ∀ row ∈ rows, ∀ n, adapt gw "OTC" row = .ok n → s.Received channel n.bankTxnRef

theorem FeedKept.received {bankTxnRef : String} (h : FeedKept s t) (hr : s.Received channel bankTxnRef) :
    t.Received channel bankTxnRef := by
  obtain ⟨k, f, hf, hc, href⟩ := hr
  obtain ⟨f', hf', _, hc', href'⟩ := h hf
  exact ⟨k, f', hf', hc'.trans hc, href' ▸ href⟩

theorem Turned.snoc {rows : List Json} (h : Turned gw channel user rows s) (hk : FeedKept s t)
    (ho : Only postedTables s t)
    (hr : ∀ n, adapt gw "OTC" row = .ok n → t.Received channel n.bankTxnRef) :
    Turned gw channel user (rows ++ [row]) t where
  found  := by rw [channelByCode, ho .channel (by simp), ← channelByCode, h.found]
  teller := h.teller.of_only ho <| by simp
  received row' hmem n hn := by
    rcases List.mem_append.mp hmem with hmem | hmem
    · exact hk.received <| h.received row' hmem n hn
    · exact hr n <| List.mem_singleton.mp hmem ▸ hn

section File

variable {rows : List Json}

theorem settleRows_snoc : settleRows gw today council user channel (rows ++ [row]) =
    settleRows gw today council user channel rows >>= fun acc =>
      settleRow gw today council user channel acc row := by
  simp [settleRows, List.foldlM_append]

-- The rows all count, or the request fails at one of them.
theorem runs_settleRows (h : Turned gw channel user [] s) :
    Runs (settleRows gw today council user channel rows) s fun out t => match out with
      | .ok acc  => acc.count = rows.length ∧ Turned gw channel user rows t
      | .error e => e.aborted = false := by
  induction rows using List.reverseRecOn with
  | nil => exact .ret ⟨rfl, h⟩
  | append_singleton rows row hi =>
    rw [settleRows_snoc]
    refine .bind <| hi.mono fun out t hout => ?_
    cases out with
    | error e => exact hout
    | ok acc =>
      obtain ⟨hcount, ht⟩ := hout
      refine (runs_settleRow (channelByCode_some ht.found) ht.teller).mono fun out u hu => ?_
      cases out with
      | error e => exact hu.1
      | ok acc' =>
        obtain ⟨hcount', hk, ho, _, hr⟩ := hu
        exact ⟨by rw [hcount', hcount, List.length_append, List.length_singleton],
          ht.snoc hk ho fun n hn => (hr n hn).1⟩

-- The request does not fail just if each row is clear in the state in which its turn comes.
theorem exec_settleRows {c : Db} {x : Txn relational.schema} {m : Name → ℕ}
    (h : Turned gw channel user [] (x.pend c)) (hp : Database.Proper (x.pend c) m) :
    (∃ acc, ((settleRows gw today council user channel rows).script.exec c x m).1 = .ok acc) ↔
    ∀ pre row, pre ++ [row] <+: rows → Clear gw council
      (((settleRows gw today council user channel pre).script.exec c x m).2.1.pend c) row := by
  induction rows using List.reverseRecOn with
  | nil => exact iff_of_true ⟨_, rfl⟩ fun pre row hpre => by simp at hpre
  | append_singleton rows row hi =>
    have hsplit : ∀ P : List Json → Json → Prop, (∀ pre row', pre ++ [row'] <+: rows ++ [row] → P pre row') ↔
        P rows row ∧ ∀ pre row', pre ++ [row'] <+: rows → P pre row' := by
      refine fun P => ⟨fun h => ⟨h _ _ List.prefix_rfl, fun pre row' hpre => ?_⟩, fun h pre row' hpre => ?_⟩
      · exact h _ _ <| hpre.trans <| List.prefix_append ..
      · rcases List.prefix_concat_iff.mp hpre with he | hpre
        · obtain ⟨rfl, hrow⟩ := List.append_inj' he rfl
          exact List.singleton_inj.mp hrow ▸ h.1
        · exact h.2 pre row' hpre
    have hturn : Runs (settleRows gw today council user channel rows) _ _ := runs_settleRows h
    have ⟨hout, hp'⟩ := hturn c x m rfl hp
    rw [hsplit, ← hi, settleRows_snoc, show (settleRows gw today council user channel rows >>= fun acc =>
      settleRow gw today council user channel acc row).script.exec c x m = _ from Script.exec_bind]
    generalize (settleRows gw today council user channel rows).script.exec c x m = end_ at *
    match end_ with
    | (.error e, y, m') => simp
    | (.ok acc, y, m') =>
      obtain ⟨_, ht⟩ := hout
      have hturn : Runs (settleRow gw today council user channel acc row) _ _ :=
        runs_settleRow (channelByCode_some ht.found) ht.teller
      have hrow := (hturn c y m' rfl hp').1
      simp only [Except.ok.injEq, exists_eq', and_true]
      generalize (settleRow gw today council user channel acc row).script.exec c y m' = end_ at *
      match end_ with
      | (.ok acc', z, _) =>
        refine iff_of_true ⟨acc', rfl⟩ ⟨hrow.2.2.2.1, fun n channel' hn hchannel hfeed => ?_⟩
        obtain rfl := Option.some.inj <| ht.found.symm.trans hchannel
        exact (hrow.2.2.2.2 n hn).2 hfeed
      | (.error e, z, _) =>
        refine iff_of_false (by simp) fun hclear => ?_
        obtain ⟨_, ⟨e, he⟩ | ⟨n, hn, hfeed, hcrash⟩⟩ := hrow
        · exact hclear.1 e he
        have ⟨henter, hpost⟩ := hclear.2 n channel hn ht.found hfeed
        rcases hcrash with ⟨hno, _⟩ | ⟨_, hno, _⟩
        · exact hno henter
        · exact hno hpost

-- The file is served by its rows, once the channel is there.
theorem respond_file (hs : Database.Proper s m) (huser : Database.Has s (.user, user)) :
    ∃ (channel : ℕ) (x : Txn relational.schema) (m₀ : Name → ℕ),
      Turned gw channel user [] (x.pend s) ∧ Database.Proper (x.pend s) m₀ ∧
      ∀ rows, respond (otcSettlement gw today council user (.arr rows)) s m =
        let e := (settleRows gw today council user channel rows).script.exec s x m₀
        (e.1.map some, e.2.1.pend s, e.2.2) := by
  have hstart : Runs (getOrCreateChannel .otc) s fun out t => ∃ channel, out = .ok channel ∧
      Turned gw channel user [] t :=
    runs_getOrCreateChannel (fun k hk => ⟨k, rfl, hk, huser, nofun⟩) fun hn k hr hk =>
      ⟨k, rfl, channelByCode_insert hr hn hk, huser.insert, nofun⟩
  have ⟨⟨channel, hout, ht⟩, hp⟩ := hstart s .start m rfl hs
  refine ⟨channel, _, _, ht, hp, fun rows => ?_⟩
  have hturn : Runs (settleRows gw today council user channel rows) _ _ := runs_settleRows ht
  have ⟨hrows, hp'⟩ := hturn s _ _ rfl hp
  rw [respond, show (otcSettlement gw today council user (.arr rows)).script.exec s .start m = _ from
    Script.exec_bind]
  generalize (getOrCreateChannel .otc).script.exec s .start m = end_ at *
  obtain ⟨out, x, m₀⟩ := end_
  obtain rfl : out = .ok channel := hout
  simp only
  rw [show (settleRows gw today council user channel rows >>= fun acc =>
    (pure (some acc) : Service (Option OTCResponse))).script.exec s x m₀ = _ from Script.exec_bind]
  generalize (settleRows gw today council user channel rows).script.exec s x m₀ = end_ at *
  match end_ with
  | (.ok acc, y, m') => exact if_pos hp'.valid
  | (.error e, y, m') => simp [marksRollback, hp'.valid, Except.map, show e.aborted = false from hrows]

theorem post_settleRows_again {acc : OTCResponse}
    (h : ∀ row ∈ rows, ∀ n, adapt gw "OTC" row = .ok n → s.Received channel n.bankTxnRef) :
    Prog.Post (rows.foldlM (settleRow gw today council user channel) acc) s fun r t =>
      t = s ∧ ∀ acc', r = .ok acc' → acc'.posted = acc.posted := by
  induction rows generalizing acc with
  | nil => exact .ret ⟨rfl, fun _ h => Except.ok.inj h ▸ rfl⟩
  | cons row rows hi =>
    refine .bind <| (post_settleRow_received <| h row <| .head _).mono fun r t ⟨hst, hr⟩ => ?_
    subst hst
    cases r with
    | error e => exact ⟨rfl, nofun⟩
    | ok acc₁ =>
      refine (hi fun row hrow => h row <| .tail _ hrow).mono fun r t ⟨hst, hr'⟩ => ⟨hst, fun acc' ha => ?_⟩
      exact (hr' acc' ha).trans <| hr acc₁ rfl

-- A file whose rows have all had their turn posts nothing.
theorem post_otcSettlement_again (h : Turned gw channel user rows s) :
    Prog.Post (otcSettlement gw today council user (.arr rows)) s fun r t =>
      t = s ∧ ∀ resp, r = .ok (some resp) → resp.posted = 0 := by
  refine .bind <| post_getOrCreateChannel (fun k hk => ?_) (fun hn => ?_) fun hn => ?_
  case refine_1 =>
    obtain rfl := Option.some.inj <| h.found.symm.trans hk
    refine .bind <| (post_settleRows_again h.received).mono fun r t ⟨hst, hr⟩ => ?_
    cases r with
    | error e => exact ⟨hst, nofun⟩
    | ok acc => exact .ret ⟨hst, fun resp he => by cases he; exact hr acc rfl⟩
  all_goals simp [h.found] at hn

end File

namespace Sample

theorem proper_billed : Database.Proper billed.1 billed.2 :=
  proper_of_bounds (by decide +kernel) (by decide +kernel)

theorem has_user : Database.Has billed.1 (.user, 1) :=
  Option.isSome_iff_exists.mp <| by decide +kernel

-- The bank's file before its first row.
def opened : Db :=
  (respond (otcSettlement gateway day 1 1 (.arr [])) billed.1 billed.2).2.1

theorem payable_opened {bill : Loaded Bill} (h : billByRef opened 1 "KAC/2017/000010" = some bill) :
    Payable opened 2 bill 20 "T1" := by
  have hall : (billByRef opened 1 "KAC/2017/000010").all fun b =>
      Storable (Decimal.round (b.row.amountPaid.toRat + opened.applied b.id 20)) ∧
      Storable (kobo (opened.lineTotal b.id)) ∧ Storable (kobo (opened.arrearsTotal b.id)) ∧
      opened.leftover b.id 20 ≤ 0 := by decide +kernel
  rw [h] at hall
  obtain ⟨hpaid, htotal, harrears, hleft⟩ := of_decide_eq_true hall
  have hnone : (opened.table .payment) = .empty := by decide +kernel
  constructor
  case ref => rintro - ⟨k, p, hp, _⟩; simp [hnone] at hp
  case credit => exact fun hpos => absurd hpos hleft.not_gt
  all_goals assumption

theorem clear_opened : Clear gateway 1 opened (tellerRow "T1" "KAC/2017/000010" 20) := by
  refine ⟨fun e he => (nomatch adapt_notification.symm.trans he), fun n channel hn hchannel _ => ?_⟩
  obtain rfl := Except.ok.inj <| adapt_notification.symm.trans hn
  obtain rfl : 2 = channel := Option.some.inj <| (by decide +kernel : some 2 = _).trans hchannel
  have hnone : (opened.table .feed) = .empty := by decide +kernel
  refine ⟨⟨by decide +kernel, by decide +kernel, fun ⟨k, f, hf, _⟩ => ?_⟩, by decide +kernel, ?_⟩
  · simp [hnone] at hf
  · intro bill ref hbill _ href
    obtain rfl : "T1" = ref := Option.some.inj <| (by decide +kernel : some "T1" = _).trans href
    exact payable_opened hbill

-- The bank's reference has been recorded by hand.
def recorded : Db × (Name → ℕ) :=
  (respond (createPaymentFrom { framework with coordinate := fun _ => some none } day 1 1 (fun _ _ => true)
    ⟨10, 5, .otc, "T1", none, none⟩) billed.1 billed.2).2

def settledFile : Except relational.Exn (Option OTCResponse) × Db × (Name → ℕ) :=
  respond (otcSettlement gateway day 1 1
    (.arr [tellerRow "T1" "KAC/2017/000010" 10, tellerRow "T2" "KAC/2017/000010" 5])) recorded.1 recorded.2

end Sample

end ACRev360
