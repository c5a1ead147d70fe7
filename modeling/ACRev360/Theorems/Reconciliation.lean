import ACRev360.Services.Reconciliation
import ACRev360.Theorems.Agreement
import ACRev360.Theorems.Allocation
import ACRev360.Theorems.OTCSettlement

namespace ACRev360

open Relational Relational.Database

-- What the run of a reconciliation says of the payments and the feed rows of its channel and day.

variable {s t u : Db} {r : ReconciliationRequest} {run k : ℕ}

section Totals

-- Above this the total of a day is not stored.
theorem le_bankTotal {rows : List (ℕ × ChannelTransactionFeed)} {q : ℚ} (hrows : ∀ f ∈ rows, 0 ≤ f.2.amount.units)
    (hq : kobo (10 ^ 27) ≤ q) :
    kobo (10 ^ 27) ≤ rows.foldl (fun total f => Decimal.round (total + f.2.amount.toRat)) q := by
  induction rows generalizing q with
  | nil => exact hq
  | cons f rows hi =>
    have ⟨hf, hrows⟩ := List.forall_mem_cons.mp hrows
    refine hi hrows ?_
    rw [← round_kobo (by decide : (10 ^ 27 : ℤ).natAbs < 10 ^ 28)]
    refine Decimal.round_mono (by norm_num [kobo]) <| le_add_of_le_of_nonneg hq ?_
    exact Numeric.toRat_nonneg_iff.mpr hf

theorem foldl_bankTotal {rows : List (ℕ × ChannelTransactionFeed)} {z : ℤ}
    (hrows : ∀ f ∈ rows, 0 ≤ f.2.amount.units) (hz : 0 ≤ z) :
    rows.foldl (fun total f => Decimal.round (total + f.2.amount.toRat)) (kobo z) =
      kobo (z + (rows.map fun f => f.2.amount.units).sum) ∨
    kobo (10 ^ 27) ≤ rows.foldl (fun total f => Decimal.round (total + f.2.amount.toRat)) (kobo z) := by
  induction rows generalizing z with
  | nil => simp
  | cons f rows hi =>
    have ⟨hf, hrows⟩ := List.forall_mem_cons.mp hrows
    have hadd : kobo z + f.2.amount.toRat = kobo (z + f.2.amount.units) := by
      rw [kobo, kobo, Numeric.toRat]
      push_cast
      ring
    rw [List.foldl_cons, hadd]
    by_cases hlt : z + f.2.amount.units < 10 ^ 28
    case pos =>
      rw [round_kobo (by omega), List.map_cons, List.sum_cons, ← add_assoc]
      exact hi hrows (by omega)
    case neg =>
      refine .inr <| le_bankTotal hrows ?_
      rw [← round_kobo (by decide : (10 ^ 27 : ℤ).natAbs < 10 ^ 28)]
      exact Decimal.round_mono (by norm_num [kobo]) <| kobo_le_iff.mpr <| by omega

-- The total that is stored is exact.
theorem cents_bankTotal {rows : List (ℕ × ChannelTransactionFeed)} {total : Money}
    (hrows : ∀ f ∈ rows, 0 ≤ f.2.amount.units) (h : total.units = cents (bankTotal rows)) :
    total.units = (rows.map fun f => f.2.amount.units).sum := by
  have hbound := total.bound
  rw [h] at hbound ⊢
  have hfold := foldl_bankTotal hrows le_rfl
  rw [kobo_zero, zero_add] at hfold
  rcases hfold with heq | hle
  case inl => rw [bankTotal, heq, cents_kobo]
  case inr =>
    have hcents := cents_le (by norm_num [kobo]) hle
    rw [cents_kobo] at hcents
    rw [bankTotal] at hbound
    omega

theorem platformTotal_eq {payments : List (ℕ × Payment)} :
    platformTotal payments = kobo (payments.map fun p => p.2.amount.units).sum := by
  unfold platformTotal
  induction payments with
  | nil => simp
  | cons p payments hi =>
    rw [List.map_cons, List.sum_cons, List.map_cons, List.sum_cons, hi, Money.toRat_eq_kobo, kobo_add]

theorem cents_platformTotal {payments : List (ℕ × Payment)} :
    cents (platformTotal payments) = (payments.map fun p => p.2.amount.units).sum := by
  rw [platformTotal_eq, cents_kobo]

end Totals

section Matching

theorem matching_some {f : ChannelTransactionFeed} {i : ℕ} (h : r.matching s f = some i) :
    ∃ p, (i, p) ∈ r.payments s ∧ p.bankTxnRef = f.bankTxnRef.val ∧ p.amount = f.amount := by
  obtain ⟨⟨i, p⟩, hp, rfl⟩ := Option.map_eq_some_iff.mp h
  have ⟨hget, hcovers⟩ := Table.first_some hp
  simp only [Bool.and_eq_true, decide_eq_true_eq] at hcovers
  exact ⟨p, Table.mem_filter_iff.mpr ⟨hget, hcovers.1.1⟩, hcovers.1.2, hcovers.2⟩

theorem matching_isSome_iff {f : ChannelTransactionFeed} : (r.matching s f).isSome ↔
    ∃ p ∈ r.payments s, p.2.bankTxnRef = f.bankTxnRef.val ∧ p.2.amount = f.amount := by
  rw [ReconciliationRequest.matching, Option.isSome_map, Table.isSome_first]
  simp only [Bool.and_eq_true, decide_eq_true_eq]
  constructor
  · exact fun ⟨k, p, hp, hcovers⟩ => ⟨(k, p), Table.mem_filter_iff.mpr ⟨hp, hcovers.1.1⟩, hcovers.1.2, hcovers.2⟩
  · exact fun ⟨(k, p), hp, href, hamount⟩ =>
      ⟨k, p, (Table.mem_filter_iff.mp hp).1, ⟨(Table.mem_filter_iff.mp hp).2, href⟩, hamount⟩

-- The feed rows of the day that have no payment.
def ReconciliationRequest.unmatched (r : ReconciliationRequest) (s : Db) : List (ℕ × ChannelTransactionFeed) :=
  (r.feedRows s).filter fun f => (r.matching s f.2).isNone

theorem lookup_map {α β : Type} {rows : List (ℕ × α)} {g : α → β} {a : α} (h : (k, a) ∈ rows)
    (hrows : (rows.map (·.1)).Nodup) : (rows.map fun x => (x.1, g x.2)).lookup k = some (g a) := by
  induction rows with
  | nil => contradiction
  | cons x rows hi =>
    rw [List.map_cons, List.nodup_cons] at hrows
    rw [List.map_cons, List.lookup_cons]
    rcases List.mem_cons.mp h with rfl | h
    · simp
    · have hne : k ≠ x.1 := fun he => hrows.1 <| he ▸ List.mem_map_of_mem h
      rw [beq_false_of_ne hne]
      exact hi h hrows.2

theorem post_matchFeedRowsForChannel : Prog.Post (matchFeedRowsForChannel r) s <| Prog.OnReturn fun out t => t = s ∧
    out = (bankTotal (r.feedRows s), (r.feedRows s).map fun f => (f.1, r.matching s f.2), r.unmatched s) := by
  have each {rows : List (ℕ × ChannelTransactionFeed)} :
      Prog.Post (rows.mapM fun f => do return (f.1, ← query fun s => r.matching s f.2)) s <|
        Prog.OnReturn fun out t => t = s ∧ out = rows.map fun f => (f.1, r.matching s f.2) := by
    induction rows with
    | nil => exact .ret ⟨rfl, rfl⟩
    | cons f rows hi =>
      rw [List.mapM_cons]
      refine .bind <| .bind <| post_select <| .ret <| .seq hi fun out t ⟨ht, hout⟩ => .ret ⟨ht, ?_⟩
      rw [hout, List.map_cons]
  refine .bind <| post_select <| .seq each fun out t ⟨ht, hout⟩ => .ret ⟨ht, ?_⟩
  rw [hout]
  refine Prod.ext rfl <| Prod.ext rfl <| List.filter_congr fun f hf => ?_
  rw [lookup_map hf Table.keys_nodup, Option.join_some]

theorem post_matchFeedRows : Prog.Post (matchFeedRows r) s <| Prog.OnReturn fun out t => t = s ∧
    out = (platformTotal (r.payments s), bankTotal (r.feedRows s),
      (r.feedRows s).map fun f => (f.1, r.matching s f.2), r.unmatched s) :=
  .bind <| post_select <| .seq post_matchFeedRowsForChannel fun out t ⟨ht, hout⟩ => .ret ⟨ht, by rw [hout]⟩

end Matching

section Settling

-- What becomes of a feed row.
def settle (found : Option ℕ) (f : ChannelTransactionFeed) : ChannelTransactionFeed :=
  match found with
  | some payment => { f with matchStatus := .matched, matchedPayment := some payment }
  | none         => { f with matchStatus := .exception }

@[simp]
theorem settle_settle {found : Option ℕ} {f : ChannelTransactionFeed} :
    settle found (settle found f) = settle found f := by
  cases found <;> rfl

-- The feed rows that the exceptions of the run are for.
def exceptedBy (run : ℕ) (s : Db) : List (Option ℕ) :=
  ((s.table .reconciliationException).filter fun _ x => x.run = run).map fun x => x.2.feedRow

-- Only exceptions of the run are written.
def OtherExceptions (run : ℕ) (s t : Db) : Prop :=
  ∀ j x, x.run ≠ run →
    ((t.table .reconciliationException).get j = some x ↔ (s.table .reconciliationException).get j = some x)

def isException (matched : Matches) (row : ℕ × ChannelTransactionFeed) : Bool :=
  (matched.lookup row.1).join.isNone

-- The feed rows `rows` are settled, and there are `count` exceptions.
structure FeedSettled (run : ℕ) (matched : Matches) (rows : List (ℕ × ChannelTransactionFeed)) (count : ℕ)
    (s t : Db) : Prop where
  get      : ∀ k, (t.table .feed).get k = if k ∈ rows.map (·.1) then
    ((s.table .feed).get k).map (settle (matched.lookup k).join) else (s.table .feed).get k
  count    : count = 0 ↔ ∀ row ∈ rows, (matched.lookup row.1).join.isSome
  excepted : (exceptedBy run t).Perm
    (exceptedBy run s ++ (rows.filter (isException matched)).map fun row => some row.1)
  others   : OtherExceptions run s t
  only     : Database.Only [Name.feed, Name.reconciliationException] s t

namespace FeedSettled

variable {matched : Matches} {rows : List (ℕ × ChannelTransactionFeed)} {count : ℕ}

theorem nil : FeedSettled run matched [] 0 s s where
  get _        := rfl
  count        := ⟨fun _ => List.forall_mem_nil _, fun _ => rfl⟩
  excepted     := by simp
  others _ _ _ := Iff.rfl
  only         := Std.Refl.refl _

theorem push (h : FeedSettled run matched rows count s t) {row : ℕ × ChannelTransactionFeed} {count' : ℕ}
    (hfeed : u.table .feed = (t.table .feed).modify row.1 (settle (matched.lookup row.1).join))
    (hcount : count' = 0 ↔ count = 0 ∧ (matched.lookup row.1).join.isSome)
    (hexcepted : (exceptedBy run u).Perm
      (exceptedBy run t ++ ([row].filter (isException matched)).map fun row => some row.1))
    (hothers : OtherExceptions run t u)
    (honly : Database.Only [Name.feed, Name.reconciliationException] t u) :
    FeedSettled run matched (rows ++ [row]) count' s u := by
  constructor
  case get =>
    intro k
    simp only [hfeed, Table.get_modify, h.get, List.map_append, List.mem_append, List.map_singleton,
      List.mem_singleton]
    by_cases hk : k = row.1
    case neg => simp only [hk, or_false, if_false]
    case pos =>
      rw [if_pos hk, hk, if_pos (Or.inr rfl)]
      split
      · rw [Option.map_map]
        congr 1
        funext f
        exact settle_settle
      · rfl
  case count =>
    rw [hcount, h.count, List.forall_mem_append, List.forall_mem_singleton]
  case excepted =>
    rw [List.filter_append, List.map_append, ← List.append_assoc]
    exact hexcepted.trans <| h.excepted.append_right _
  case others => exact fun j x hx => (hothers j x hx).trans <| h.others j x hx
  case only => exact IsTrans.trans _ _ _ h.only honly

end FeedSettled

theorem exceptedBy_congr (h : t.table .reconciliationException = s.table .reconciliationException) :
    exceptedBy run t = exceptedBy run s := by
  unfold exceptedBy
  rw [h]

theorem otherExceptions_congr (h : t.table .reconciliationException = s.table .reconciliationException) :
    OtherExceptions run s t :=
  fun _ _ _ => by rw [h]

theorem post_reconcileRows {matched : Matches} {past rest : List (ℕ × ChannelTransactionFeed)} {count : ℕ}
    (h : FeedSettled run matched past count s t) : Prog.Post (rest.foldlM (reconcileRow r run matched) count) t <|
      Prog.OnReturn fun count u => FeedSettled run matched (past ++ rest) count s u := by
  induction rest generalizing t past count with
  | nil => exact .ret <| by rwa [List.append_nil]
  | cons row rest hi =>
    rw [List.foldlM_cons, List.append_cons]
    refine .seq (Q := fun count u => FeedSettled run matched (past ++ [row]) count s u) ?_ fun count u hu => hi hu
    unfold reconcileRow
    split
    case h_1 payment hfound =>
      refine .bind <| post_save (fun _ _ => .ret ?_) fun _ => trivial
      have hsame : ((t.modify .feed row.1 fun f => { f with matchStatus := .matched, matchedPayment := some payment }).table
          .reconciliationException) = t.table .reconciliationException := modify_table_ne (by decide)
      refine h.push (by rw [hfound]; rfl) (by simp [hfound]) ?_ (otherExceptions_congr hsame) <| only_modify <| .head _
      rw [exceptedBy_congr hsame, List.filter_singleton, isException, hfound]
      simp
    case h_2 hnone =>
      refine .bind <| post_save (fun _ _ => .bind ?_) fun _ => trivial
      refine post_create (fun k hk => .ret ?_) fun _ => trivial
      have ⟨hr, hk, _⟩ := conflicts_false hk
      rw [modify_table_ne (by decide)] at hk
      refine h.push ?_ (by simp [hnone]) ?_ (fun j x hx => ?_) <|
        IsTrans.trans _ _ _ (only_modify <| .head _) <| only_insert <| by simp
      · rw [insert_table_ne (by decide), hnone]
        rfl
      · rw [exceptedBy, insert_table hr, modify_table_ne (by decide)]
        refine ((Table.perm_filter_insert hk).map _).trans ?_
        rw [List.filter_singleton, isException, hnone]
        simp only [decide_true, if_true, List.map_cons, Option.isNone_none]
        exact List.perm_append_singleton _ _ |>.symm
      · rw [insert_table hr, modify_table_ne (by decide), Table.get_insert, hk]
        by_cases hj : j = k
        case neg => rw [if_neg hj]
        case pos =>
          subst hj
          rw [if_pos rfl, hk, Option.getD_none]
          exact ⟨fun he => absurd (congrArg ReconciliationException.run (Option.some.inj he)).symm hx, nofun⟩

def ReconciliationRun.isOf (x : ReconciliationRun) (r : ReconciliationRequest) : Prop :=
  x.council = r.council ∧ x.channel = r.channel.id ∧ x.runDate = r.runDate

theorem runOf_some (h : r.runOf s = some run) : ∃ x, (s.table .reconciliationRun).get run = some x ∧ x.isOf r := by
  obtain ⟨⟨k, x⟩, hx, rfl⟩ := Option.map_eq_some_iff.mp h
  have ⟨hget, hkey⟩ := Table.first_some hx
  simp only [Bool.and_eq_true, decide_eq_true_eq] at hkey
  exact ⟨x, hget, hkey.1.1, hkey.1.2, hkey.2⟩

-- The run of the day has been opened, with its totals.
structure RunOpened (r : ReconciliationRequest) (totalPlatform totalBank : ℚ) (run : ℕ) (s t : Db) : Prop where
  row  : ∃ row, (t.table .reconciliationRun).get run = some row ∧ row.isOf r ∧
    row.totalPlatform.units = cents totalPlatform ∧ row.totalBank.units = cents totalBank
  old  : ∀ x, (s.table .reconciliationRun).get run = some x → x.isOf r
  new  : (s.table .reconciliationRun).get run = none → r.runOf s = none
  rows : ∀ k ≠ run, (t.table .reconciliationRun).get k = (s.table .reconciliationRun).get k
  only : Database.Only [Name.reconciliationRun] s t

theorem post_openRun {totalPlatform totalBank : ℚ} : Prog.Post (openRun r totalPlatform totalBank) s <|
    Prog.OnReturn fun run t => RunOpened r totalPlatform totalBank run s t := by
  refine .seq (Q := fun out t => if out.2 then RunOpened r totalPlatform totalBank out.1 s t else
    t = s ∧ r.runOf s = some out.1) (post_getOrCreate ?_ fun hnone => ?_) fun (run, created) t hout => ?_
  · exact fun _ hrun => ⟨rfl, hrun⟩
  · refine .bind <| post_store (fun platform hplatform => .bind ?_) fun _ => trivial
    refine post_store (fun bank hbank => ?_) fun _ => trivial
    refine post_create (fun k hk => ?_) fun _ => trivial
    have ⟨hr, hk, _⟩ := conflicts_false hk
    have hget {row : ReconciliationRun} : ((s.insert .reconciliationRun k row).table .reconciliationRun).get k =
      some row := by rw [insert_table hr, Table.get_insert_self hk]
    refine ⟨⟨_, hget, ⟨rfl, rfl, rfl⟩, hplatform, hbank⟩, fun x hx => ?_, fun _ => hnone, fun i hi => ?_, only_insert <| .head _⟩
    · rw [hk] at hx
      contradiction
    · rw [insert_table hr, Table.get_insert_ne hi]
  · cases created with
    | true => exact .ret hout
    | false =>
      obtain ⟨rfl, hrun⟩ := hout
      have ⟨x, hx, hkey⟩ := runOf_some hrun
      refine .bind <| post_selectForUpdate <| .bind ?_
      refine post_store (fun platform hplatform => .bind ?_) fun _ => trivial
      refine post_store (fun bank hbank => .bind ?_) fun _ => trivial
      refine post_save (fun row hrow => .ret ?_) fun _ => trivial
      obtain rfl := Option.some.inj <| hx.symm.trans hrow
      have hget {g : ReconciliationRun → ReconciliationRun} :
          ((t.modify .reconciliationRun run g).table .reconciliationRun).get run = some (g x) := by
        rw [modify_table, Table.get_modify, if_pos rfl, hrow, Option.map_some]
      refine ⟨⟨_, hget, hkey, hplatform, hbank⟩, fun y hy => ?_, fun hnone => ?_, fun i hi => ?_, only_modify <| .head _⟩
      · obtain rfl := Option.some.inj <| hx.symm.trans hy
        exact hkey
      · rw [hrow] at hnone
        contradiction
      · rw [modify_table, Table.get_modify, if_neg hi]

end Settling

section Feed

-- What the unique constraint of the feed ensures, and the adapters, which accept no negative amount.
structure FeedSound (s : Db) : Prop where
  unique : Unique (R := relational) .feed s
  nonneg : ∀ {k f}, (s.table .feed).get k = some f → 0 ≤ f.amount.units

theorem feedSound_of_only {ts : List Name} (h : Database.Only ts s t) (ht : Name.feed ∉ ts) :
    Preserves (S := relational.schema) FeedSound s t :=
  fun ⟨hunique, hnonneg⟩ => ⟨hunique.congr (h .feed ht), fun hf => hnonneg (h .feed ht ▸ hf)⟩

theorem feedSound_settle (found : Option ℕ) :
    Preserves (S := relational.schema) FeedSound s (s.modify .feed k (settle found)) := by
  refine fun ⟨hunique, hnonneg⟩ => ⟨hunique.modify ⟨fun f => ?_, fun f => ?_⟩, fun {i f} hf => ?_⟩
  · cases found <;> rfl
  · cases found <;> rfl
  · have ⟨f', hf', he⟩ := get_modify_cases hf
    have hamount : f.amount = f'.amount := by
      rcases he with ⟨_, rfl⟩ | rfl
      · cases found <;> rfl
      · rfl
    exact hamount ▸ hnonneg hf'

variable {gw : Gateway} {today : Date} {council channel : ℕ} {n : Normalised}

theorem feedSound_receiveFeed {payload : Json} (h : 0 ≤ n.amount) :
    (receiveFeed today council channel payload n).Maintains FeedSound := by
  refine .bind (.of_keeps lookupText_keeps) fun _ s hs => post_getOrCreate_all (fun _ _ => hs) (fun _ => ?_)
    fun _ _ _ => hs
  refine post_guard (fun _ => trivial) fun _ => .bind <| post_storeText (fun v hv => .bind ?_) fun _ => trivial
  refine post_store (fun amount hamount => ?_) fun _ => trivial
  refine post_create (fun k hk => ⟨hs.unique.insert hk, fun {i f} hf => ?_⟩) fun _ => trivial
  rcases get_insert_cases hf with ⟨_, he⟩ | hf
  case inl =>
    rw [he, hamount]
    exact cents_nonneg h
  case inr => exact hs.nonneg hf

theorem feedSound_postNotified {feed : ℕ} {postedBy : Option ℕ} :
    (postNotified today council channel feed n postedBy).Maintains FeedSound := by
  have hexception : (setMatchStatus feed .exception).Maintains FeedSound :=
    .of_keeps <| keeps_save fun _ => feedSound_settle none
  refine .bind (.of_keeps lookupText_keeps) fun bill => ?_
  split
  case h_1 => exact .bind hexception fun _ => .ret
  case h_2 =>
    have hpost {bill : Loaded Bill} {r : PaymentRequest} : (postPayment today bill r).Maintains FeedSound :=
      .of_keeps <| postPayment_keeps (feedSound_of_only (only_insert <| .head []) (by simp))
        (fun _ => feedSound_of_only (only_modify <| .head []) (by simp)) (fun h => feedSound_of_only h (by simp)) <|
        feedSound_of_only (only_modify <| .head []) (by simp)
    refine .bind (.attempt <| .atomic hpost) fun r => ?_
    split
    case h_1 _ payment =>
      exact .bind (.of_keeps <| keeps_save fun _ => feedSound_settle (some payment)) fun _ => .ret
    case h_2 =>
      split
      · exact .bind hexception fun _ => .ret
      · exact .raise

theorem feedSound_channel {code : ChannelCode} : (getOrCreateChannel code).Maintains FeedSound :=
  .of_keeps <| getOrCreateChannel_keeps fun h => feedSound_of_only h (by simp)

theorem feedSound_webhook {now : ℕ} {r : WebhookRequest} : (webhook gw today now r).Maintains FeedSound := by
  unfold webhook
  split
  case h_2 => exact .ret
  case h_3 => exact .ret
  case h_4 => exact .of_keeps keeps_refuse
  case h_1 n code hadapt _ =>
    split
    case h_1 => exact .ret
    refine .atomic <| .bind feedSound_channel fun channel => .bind (.of_keeps ?client) fun client => ?_
    case client =>
      split
      · exact authenticateWebhookClient_keeps fun h => feedSound_of_only h (by simp)
      · exact .ret
    split
    case isTrue => exact .ret
    refine .bind (.of_keeps lookupText_keeps) fun existing => ?_
    split
    case isTrue => exact .ret
    refine .bind (feedSound_receiveFeed (adapt_amount hadapt).1) fun received => ?_
    split
    split
    case isTrue => exact .ret
    refine .bind feedSound_postNotified fun notified => ?_
    split <;> exact .ret

theorem feedSound_otcSettlement {user : ℕ} {data : Json} :
    (otcSettlement gw today council user data).Maintains FeedSound := by
  unfold otcSettlement
  split
  case h_2 => exact .ret
  refine .bind feedSound_channel fun channel => .bind (.foldlM fun acc row => ?_) fun _ => .ret
  unfold settleRow
  split
  case h_1 => exact .ret
  case h_2 => exact .of_keeps keeps_refuse
  case h_3 n hadapt =>
    refine .bind (feedSound_receiveFeed (adapt_amount hadapt).1) fun received => ?_
    split
    split
    case isTrue => exact .ret
    refine .bind feedSound_postNotified fun notified => ?_
    split <;> exact .ret

end Feed

section Reconciling

theorem FeedSound.eq (h : FeedSound s) {x y : ℕ × ChannelTransactionFeed} (hx : x ∈ r.feedRows s)
    (hy : y ∈ r.feedRows s) (href : x.2.bankTxnRef.val = y.2.bankTxnRef.val) : x.1 = y.1 := by
  have ⟨hx, hx'⟩ := Table.mem_filter_iff.mp hx
  have ⟨hy, hy'⟩ := Table.mem_filter_iff.mp hy
  simp only [ReconciliationRequest.receives, Bool.and_eq_true, decide_eq_true_eq] at hx' hy'
  refine h.unique (u := .feedRow r.channel.id y.2.bankTxnRef.val) ⟨x.2, hx, ?_⟩ ⟨y.2, hy, ?_⟩
  · rw [← href, ← hx'.1.2]
    exact .head _
  · rw [← hy'.1.2]
    exact .head _

-- Every feed row of the day has a payment of its reference and amount.
def ReconciliationRequest.Covered (r : ReconciliationRequest) (s : Db) : Prop :=
  ∀ f ∈ r.feedRows s, ∃ p ∈ r.payments s, p.2.bankTxnRef = f.2.bankTxnRef.val ∧ p.2.amount = f.2.amount

structure Reconciled (r : ReconciliationRequest) (run : ℕ) (s t : Db) : Prop where
  run      : ∃ row, (t.table .reconciliationRun).get run = some row ∧
    row.totalPlatform.units = cents (platformTotal (r.payments s)) ∧
    row.totalBank.units = cents (bankTotal (r.feedRows s)) ∧
    (row.status = .balanced ∧ r.Covered s ∨ row.status = .exceptions ∧ ¬r.Covered s)
  feedRows : r.feedRows t = (r.feedRows s).map fun f => (f.1, settle (r.matching s f.2) f.2)
  payments : r.payments t = r.payments s

theorem receives_settle {f : ChannelTransactionFeed} {found : Option ℕ} : r.receives (settle found f) = r.receives f := by
  cases found <;> rfl

-- What the run writes besides.
structure Filed (r : ReconciliationRequest) (run : ℕ) (s t : Db) : Prop where
  row      : ∃ row, (t.table .reconciliationRun).get run = some row ∧ row.isOf r
  old      : ∀ x, (s.table .reconciliationRun).get run = some x → x.isOf r
  new      : (s.table .reconciliationRun).get run = none → r.runOf s = none
  rows     : ∀ k ≠ run, (t.table .reconciliationRun).get k = (s.table .reconciliationRun).get k
  feed     : ∀ k, (t.table .feed).get k = ((s.table .feed).get k).map fun f =>
    if r.receives f then settle (r.matching s f) f else f
  excepted : (exceptedBy run t).Perm ((r.unmatched s).map fun f => some f.1)
  others   : OtherExceptions run s t
  only     : Database.Only [Name.feed, Name.reconciliationRun, Name.reconciliationException] s t

-- The exceptions of the run are deleted.
theorem post_clearRun : Prog.Post
    ((exceptionsOf s run).forM fun k => delete .reconciliationException k : Service PUnit) s <| Prog.OnReturn fun _ t =>
      exceptedBy run t = [] ∧ OtherExceptions run s t ∧ Database.Only [Name.reconciliationException] s t := by
  have loop {stale : List ℕ} {v : Db} (hv : ∀ j ∈ stale, ∀ x, (v.table .reconciliationException).get j = some x → x.run = run)
      (hall : ∀ j x, (v.table .reconciliationException).get j = some x → x.run = run → j ∈ stale) :
      Prog.Post (stale.forM fun k => delete .reconciliationException k : Service PUnit) v <|
        Prog.OnReturn fun _ t => (∀ j x, (t.table .reconciliationException).get j = some x → x.run ≠ run) ∧
          OtherExceptions run v t ∧ Database.Only [Name.reconciliationException] v t := by
    induction stale generalizing v with
    | nil => exact .ret ⟨fun j x hx hrun => (nomatch hall j x hx hrun), fun _ _ _ => Iff.rfl, Std.Refl.refl _⟩
    | cons k stale hi =>
      have ⟨hk, hv⟩ := List.forall_mem_cons.mp hv
      have herase {j : ℕ} : ((v.erase .reconciliationException k).table .reconciliationException).get j =
          if j = k then none else (v.table .reconciliationException).get j := by
        rw [erase_table, Table.get_erase]
      refine .bind <| post_delete (fun x hx => ?_) fun hnone => ?_
      · refine .imp (hi (fun j hj y hy => ?_) fun j y hy hrun => ?_) fun _ t ⟨hnone, hothers, honly⟩ =>
          ⟨hnone, fun j y hy => (hothers j y hy).trans ?_, IsTrans.trans _ _ _ (only_erase <| .head _) honly⟩
        all_goals rw [herase] at *
        · exact hv j hj y <| (Option.ite_none_left_eq_some.mp hy).2
        · have ⟨hj, hy⟩ := Option.ite_none_left_eq_some.mp hy
          exact (List.mem_cons.mp <| hall j y hy hrun).resolve_left hj
        · rw [Option.ite_none_left_eq_some]
          exact and_iff_right_of_imp fun hget he => hy <| hk y (he ▸ hget)
      · refine hi hv fun j y hy hrun => (List.mem_cons.mp <| hall j y hy hrun).resolve_left fun he => ?_
        rw [he, hnone] at hy
        contradiction
  refine .imp (loop (fun j hj x hx => ?_) fun j x hx hrun => ?_) fun _ t ⟨hnone, hrest⟩ => ⟨?_, hrest⟩
  · obtain ⟨⟨j, y⟩, hy, rfl⟩ := List.mem_map.mp hj
    have ⟨hget, hrun⟩ := Table.mem_filter_iff.mp hy
    obtain rfl := Option.some.inj <| hget.symm.trans hx
    exact of_decide_eq_true hrun
  · exact List.mem_map.mpr ⟨(j, x), Table.mem_filter_iff.mpr ⟨hx, decide_eq_true hrun⟩, rfl⟩
  · refine List.map_eq_nil_iff.mpr <| List.eq_nil_iff_forall_not_mem.mpr fun ⟨j, x⟩ hx => ?_
    have ⟨hget, hrun⟩ := Table.mem_filter_iff.mp hx
    exact hnone j x hget <| of_decide_eq_true hrun

theorem post_runReconciliation : Prog.Post (runReconciliation r) s <| Prog.OnReturn fun run t =>
    Reconciled r run s t ∧ Filed r run s t := by
  refine post_guard (fun _ => trivial) fun _ => .seq post_matchFeedRows fun out u ⟨hu, hout⟩ => ?_
  rw [hu, hout]
  refine .seq post_openRun fun run u hopened => ?_
  have ⟨row, hrow, hkey, hplatform, hbank⟩ := hopened.row
  have hu := hopened.only
  refine .bind <| post_select <| .seq post_clearRun fun _ v ⟨hclear, hothers, hv⟩ => .bind <| post_select ?_
  have hfeed : v.table .feed = s.table .feed := (hv .feed (by simp)).trans <| hu .feed (by simp)
  have hrows : r.feedRows v = r.feedRows s := by rw [ReconciliationRequest.feedRows, hfeed]; rfl
  refine .seq (post_reconcileRows .nil) fun count w hw => ?_
  rw [List.nil_append, hrows] at hw
  refine .bind <| post_save (fun _ _ => .ret ?_) fun _ => trivial
  have hrow'' : (w.table .reconciliationRun).get run = some row := by
    rw [hw.only .reconciliationRun (by simp), hv .reconciliationRun (by simp), hrow]
  have hmatched {f : ℕ × ChannelTransactionFeed} (hf : f ∈ r.feedRows s) :
      (((r.feedRows s).map fun f => (f.1, r.matching s f.2)).lookup f.1).join = r.matching s f.2 := by
    rw [lookup_map hf Table.keys_nodup, Option.join_some]
  have hcovered : (∀ f ∈ r.feedRows s,
      (((r.feedRows s).map fun f => (f.1, r.matching s f.2)).lookup f.1).join.isSome) ↔ r.Covered s :=
    forall₂_congr fun f hf => by rw [hmatched hf, matching_isSome_iff]
  have hget {g : ReconciliationRun → ReconciliationRun} :
      ((w.modify .reconciliationRun run g).table .reconciliationRun).get run = some (g row) := by
    rw [modify_table, Table.get_modify, if_pos rfl, hrow'', Option.map_some]
  have hsettled : ∀ k, ((w.modify .reconciliationRun run fun x =>
      { x with status := if count = 0 then .balanced else .exceptions }).table .feed).get k =
        ((s.table .feed).get k).map fun f => if r.receives f then settle (r.matching s f) f else f := fun k => by
    rw [modify_table_ne (by decide), hw.get, hfeed]
    cases hk : (s.table .feed).get k with
    | none => simp
    | some f =>
      split
      case isTrue hmem =>
        obtain ⟨⟨k, f'⟩, hf', rfl⟩ := List.mem_map.mp hmem
        have ⟨hget, hreceives⟩ := Table.mem_filter_iff.mp hf'
        obtain rfl := Option.some.inj <| hk.symm.trans hget
        rw [Option.map_some, Option.map_some, hmatched hf', if_pos hreceives]
      case isFalse hmem =>
        have hreceives : ¬r.receives f := fun h => hmem <| List.mem_map.mpr ⟨_, Table.mem_filter_iff.mpr ⟨hk, h⟩, rfl⟩
        rw [Option.map_some, if_neg hreceives]
  refine ⟨⟨?run, ?feedRows, ?payments⟩, ⟨⟨_, hget, hkey⟩, hopened.old, hopened.new, fun k hk => ?rows, hsettled, ?excepted, ?others, ?only⟩⟩
  case run =>
    refine ⟨_, hget, hplatform, hbank, ?_⟩
    rw [← hcovered, ← hw.count]
    by_cases hcount : count = 0
    case pos => exact .inl ⟨if_pos hcount, hcount⟩
    case neg => exact .inr ⟨if_neg hcount, hcount⟩
  case feedRows =>
    refine (Table.filter_eq_map hsettled fun k f => ?_).trans <| List.map_congr_left fun f hf => ?_
    · split
      exacts [receives_settle, rfl]
    · rw [if_pos (Table.mem_filter_iff.mp hf).2]
  case payments =>
    rw [ReconciliationRequest.payments, modify_table_ne (by decide), hw.only .payment (by simp),
      hv .payment (by simp), hu .payment (by simp)]
    rfl
  case rows =>
    rw [modify_table, Table.get_modify, if_neg hk, hw.only .reconciliationRun (by simp),
      hv .reconciliationRun (by simp), hopened.rows k hk]
  case excepted =>
    rw [exceptedBy_congr (modify_table_ne (by decide))]
    refine hw.excepted.trans ?_
    rw [hclear, List.nil_append, ReconciliationRequest.unmatched]
    refine .of_eq <| congrArg _ <| List.filter_congr fun f hf => ?_
    rw [isException, hmatched hf]
  case others =>
    intro j x hx
    rw [modify_table_ne (by decide), hw.others j x hx, hothers j x hx, hu .reconciliationException (by simp)]
  case only =>
    refine IsTrans.trans _ _ _ (hu.mono <| by simp) <| IsTrans.trans _ _ _ (hv.mono <| by simp) ?_
    exact IsTrans.trans _ _ _ (hw.only.mono <| by simp) <| only_modify <| by simp

-- As many of each reference and amount.
def ReconciliationRequest.OneToOne (r : ReconciliationRequest) (s : Db) : Prop :=
  ((r.feedRows s).map fun f => (f.2.bankTxnRef.val, f.2.amount)).Perm
    ((r.payments s).map fun p => (p.2.bankTxnRef, p.2.amount))

-- What the status of the run and the matches are to mean.
structure Balances (r : ReconciliationRequest) (run : ℕ) (t : Db) : Prop where
  status    : ∃ row, (t.table .reconciliationRun).get run = some row ∧
    (row.status = .balanced ∧ r.OneToOne t ∧ row.totalPlatform = row.totalBank ∨ row.status = .exceptions)
  distinct  : ∀ x ∈ r.feedRows t, ∀ y ∈ r.feedRows t, ∀ payment,
    x.2.matchStatus = .matched → x.2.matchedPayment = some payment →
    y.2.matchStatus = .matched → y.2.matchedPayment = some payment → x.1 = y.1
  reference : ∀ x ∈ r.feedRows t, x.2.matchStatus = .matched → x.2.bankTxnRef.val ≠ ""

-- A feed row without a reference has no payment without one of its amount, and if every feed row has its
-- payment there are no more payments than feed rows.
structure ReconciliationRequest.TwoSided (r : ReconciliationRequest) (s : Db) : Prop where
  blank : ∀ f ∈ r.feedRows s, f.2.bankTxnRef.val = "" → ∀ p ∈ r.payments s, p.2.bankTxnRef = "" → p.2.amount ≠ f.2.amount
  count : r.Covered s → (r.payments s).length ≤ (r.feedRows s).length

namespace Reconciled

theorem matched (h : Reconciled r run s t) {x : ℕ × ChannelTransactionFeed} (hx : x ∈ r.feedRows t)
    (hm : x.2.matchStatus = .matched) : ∃ f, (x.1, f) ∈ r.feedRows s ∧ x.2.bankTxnRef = f.bankTxnRef ∧
      ∃ i, r.matching s f = some i ∧ x.2.matchedPayment = some i := by
  rw [h.feedRows] at hx
  obtain ⟨⟨k, f⟩, hf, rfl⟩ := List.mem_map.mp hx
  cases hmatch : r.matching s f with
  | none => simp [hmatch, settle] at hm
  | some i => exact ⟨f, hf, by simp [settle], i, hmatch, by simp [settle]⟩

theorem oneToOne (h : Reconciled r run s t) : r.OneToOne t ↔ r.OneToOne s := by
  have hrows : (r.feedRows t).map (fun f => (f.2.bankTxnRef.val, f.2.amount)) =
      (r.feedRows s).map fun f => (f.2.bankTxnRef.val, f.2.amount) := by
    rw [h.feedRows, List.map_map]
    refine List.map_congr_left fun f _ => ?_
    rw [Function.comp_apply]
    cases r.matching s f.2 <;> rfl
  rw [ReconciliationRequest.OneToOne, ReconciliationRequest.OneToOne, hrows, h.payments]

end Reconciled

-- Each feed row has a payment of its own, as no two of them have the same reference.
theorem FeedSound.oneToOne (hs : FeedSound s) (h : r.Covered s) (hle : (r.payments s).length ≤ (r.feedRows s).length) :
    r.OneToOne s := by
  have hnodup : ((r.feedRows s).map fun f => (f.2.bankTxnRef.val, f.2.amount)).Nodup := by
    refine List.Nodup.map_on (fun x hx y hy he => ?_) (.of_map _ Table.keys_nodup)
    have hk : x.1 = y.1 := hs.eq hx hy (Prod.mk.inj he).1
    have hx' := (Table.mem_filter_iff.mp hx).1
    rw [hk, (Table.mem_filter_iff.mp hy).1] at hx'
    exact Prod.ext hk (Option.some.inj hx').symm
  have hsub : (r.feedRows s).map (fun f => (f.2.bankTxnRef.val, f.2.amount)) ⊆
      (r.payments s).map fun p => (p.2.bankTxnRef, p.2.amount) := fun q hq => by
    obtain ⟨f, hf, rfl⟩ := List.mem_map.mp hq
    have ⟨p, hp, href, hamount⟩ := h f hf
    exact List.mem_map.mpr ⟨p, hp, by rw [href, hamount]⟩
  refine (List.subperm_of_subset hnodup hsub).perm_of_length_le ?_
  rwa [List.length_map, List.length_map]

theorem ReconciliationRequest.OneToOne.units (h : r.OneToOne s) :
    ((r.payments s).map fun p => p.2.amount.units).sum = ((r.feedRows s).map fun f => f.2.amount.units).sum := by
  have := (h.map fun q => q.2.units).sum_eq
  rw [List.map_map, List.map_map] at this
  exact this.symm

namespace Reconciled

theorem twoSided (ht : Reconciled r run s t) (hb : Balances r run t) : r.TwoSided s where
  blank f hf hblank p hp href hamount := by
    have hsome : (r.matching s f.2).isSome := matching_isSome_iff.mpr ⟨p, hp, href.trans hblank.symm, hamount⟩
    have ⟨i, hi⟩ := Option.isSome_iff_exists.mp hsome
    have hx : (f.1, settle (r.matching s f.2) f.2) ∈ r.feedRows t := by
      rw [ht.feedRows]
      exact List.mem_map_of_mem hf
    rw [hi] at hx
    exact hb.reference _ hx rfl hblank
  count hcovered := by
    have ⟨row, hrow, _, _, hstatus⟩ := ht.run
    have ⟨row', hrow', hout⟩ := hb.status
    obtain rfl := Option.some.inj <| hrow.symm.trans hrow'
    have hbalanced : row.status = .balanced :=
      (hstatus.resolve_right fun ⟨_, hnot⟩ => hnot hcovered).1
    have ⟨_, hone, _⟩ := hout.resolve_right fun h => by simp [hbalanced] at h
    have hlength := (ht.oneToOne.mp hone).length_eq
    rw [List.length_map, List.length_map] at hlength
    exact hlength.ge

theorem balances (ht : Reconciled r run s t) (hs : FeedSound s) (htwo : r.TwoSided s) : Balances r run t where
  status := by
    have ⟨row, hrow, hplatform, hbank, hstatus⟩ := ht.run
    refine ⟨row, hrow, hstatus.imp (fun ⟨hbalanced, hcovered⟩ => ⟨hbalanced, ?_⟩) And.left⟩
    have hone := hs.oneToOne hcovered (htwo.count hcovered)
    refine ⟨ht.oneToOne.mpr hone, Numeric.ext ?_⟩
    rw [hplatform, cents_platformTotal, hone.units, cents_bankTotal (fun f hf => ?_) hbank]
    exact hs.nonneg (Table.mem_filter_iff.mp hf).1
  distinct x hx y hy payment hxm hxp hym hyp := by
    have ⟨f, hf, href, i, hi, hip⟩ := ht.matched hx hxm
    have ⟨f', hf', href', j, hj, hjp⟩ := ht.matched hy hym
    obtain rfl : i = j := Option.some.inj <| hip.symm.trans <| hxp.trans <| hyp.symm.trans hjp
    have ⟨p, hp, hpf, _⟩ := matching_some hi
    have ⟨p', hp', hpf', _⟩ := matching_some hj
    obtain rfl := Option.some.inj <| (Table.mem_filter_iff.mp hp).1.symm.trans (Table.mem_filter_iff.mp hp').1
    exact hs.eq (x := (x.1, f)) (y := (y.1, f')) hf hf' <| hpf.symm.trans hpf'
  reference x hx hm hblank := by
    have ⟨f, hf, href, i, hi, _⟩ := ht.matched hx hm
    have ⟨p, hp, hpf, hamount⟩ := matching_some hi
    rw [href] at hblank
    exact htwo.blank _ hf hblank _ hp (hpf.trans hblank) hamount

end Reconciled

theorem reconciliation_balances_iff (hs : FeedSound s) {n m : Name → ℕ}
    (h : (runReconciliation r).call s n = (.ok run, t, m)) : Balances r run t ↔ r.TwoSided s :=
  have ⟨⟨ht, _⟩, _⟩ := Prog.call_ok post_runReconciliation h
  ⟨ht.twoSided, ht.balances hs⟩

theorem FeedSound.of_rows (h : (s.table .feed).rows.length ≤ 1 ∧
    (s.table .feed).rows.all fun f => 0 ≤ f.2.amount.units) : FeedSound s where
  unique u i j hi hj := by
    obtain ⟨f, hf, _⟩ := hi
    obtain ⟨f', hf', _⟩ := hj
    have hx := Table.mem_rows_iff.mpr hf
    have hy := Table.mem_rows_iff.mpr hf'
    match hrows : (s.table .feed).rows with
    | []  => simp [hrows] at hx
    | [x] =>
      rw [hrows, List.mem_singleton] at hx hy
      exact congrArg Prod.fst <| hx.trans hy.symm
    | _ :: _ :: _ => simp [hrows] at h
  nonneg hf := of_decide_eq_true <| List.all_eq_true.mp h.2 _ (Table.mem_rows_iff.mpr hf)

namespace Sample

-- The council is paid at the terminals of a bank as well.
def withTerminals : Db :=
  council.insert .channel 2 ⟨.pos⟩

theorem withTerminals_initial : withTerminals.Initial where
  assessment h := council_initial.assessment h
  bill         := rfl
  line         := rfl
  payment      := rfl
  allocation   := rfl
  credit h     := council_initial.credit h

-- A bill is paid 10.00 at a terminal.
def posted : Db × (Name → ℕ) :=
  serve (serve (withTerminals, keys) <| issue [1] false) <| .postPayment 1 ⟨1, 2, 10, "RRN1", none, .ok (none, none), none⟩

-- The bank notifies the payment.
def notified : Db :=
  posted.1.insert .feed 1 ⟨1, 2, ⟨"RRN1", by decide⟩, ⟨1000, by decide⟩, .unmatched, none, day⟩

def reconciliation : ReconciliationRequest :=
  ⟨1, ⟨2, ⟨.pos⟩⟩, day, 1⟩

end Sample

set_option maxRecDepth 20000 in
theorem sample_balances : Balances Sample.reconciliation 1
    ((runReconciliation Sample.reconciliation).call Sample.notified Sample.posted.2).2.1 := by
  have hc := Sample.call_returns (p := runReconciliation Sample.reconciliation)
    (s := (Sample.notified, Sample.posted.2)) (a := 1) (by decide +kernel)
  have hs : FeedSound Sample.notified := .of_rows <| by decide +kernel
  have hblank : (Sample.reconciliation.feedRows Sample.notified).all fun f => f.2.bankTxnRef.val ≠ "" := by
    decide +kernel
  refine (reconciliation_balances_iff hs hc).mpr ⟨fun f hf href => ?_, fun _ => by decide +kernel⟩
  exact absurd href <| of_decide_eq_true <| List.all_eq_true.mp hblank f hf

set_option maxRecDepth 20000 in
-- The bank has notified nothing of the payment, and the run is BALANCED.
theorem not_balances : ∃ (s t : Db) (n m : Name → ℕ) (r : ReconciliationRequest) (run : ℕ),
    s.Reachable (fun _ r => r.Positive) ∧ FeedSound s ∧
      (runReconciliation r).call s n = (.ok run, t, m) ∧ ¬Balances r run t := by
  have hc := Sample.call_returns (p := runReconciliation Sample.reconciliation)
    (s := Sample.posted) (a := 1) (by decide +kernel)
  have hs : Sample.posted.1.Reachable fun _ r => r.Positive :=
    Sample.reachable_serve (Sample.reachable_serve (.initial Sample.withTerminals_initial) trivial) <|
      (by norm_num : (0 : ℚ) < 10)
  have hnone : Sample.reconciliation.feedRows Sample.posted.1 = [] := by decide +kernel
  refine ⟨_, _, _, _, Sample.reconciliation, 1, hs, .of_rows <| by decide +kernel, hc, fun h => ?_⟩
  have ⟨⟨ht, _⟩, _⟩ := Prog.call_ok post_runReconciliation hc
  have hle := (ht.twoSided h).count fun f hf => by simp [hnone] at hf
  exact absurd hle (by decide +kernel)

end Reconciling

end ACRev360
