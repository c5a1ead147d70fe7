import ACRev360.Library.Contracts
import ACRev360.Theorems.Enrolment
import ACRev360.Theorems.Worklist

namespace ACRev360

open Relational Relational.Database

variable {fw : Framework} {today : Date} {s t u : Db} {r : SyncRequest} {council actor k : ℕ}

-- The geo of the payload is something, but no object.
def SyncRequest.Strays (r : SyncRequest) : Prop :=
  r.recordType = .payer ∧ ∃ members, r.payload = .obj members ∧ (Json.getField members "geo").truthy ∧
    ∀ geo, Json.getField members "geo" ≠ .obj geo

-- A payer has been registered, with the drafts of the items.
structure Enrolled (s t : Db) : Prop where
  only : Database.Only [Name.payer, Name.assessment] s t
  new  : ∃ k, (s.table .payer).get k = none ∧ ((t.table .payer).get k).isSome

-- What the replay of a record leaves that comes to nothing.
def Leaves (r : SyncRequest) (s : Db) : Except relational.Exn Outcome → Db → Prop
  | .ok (status, _, _), t => (status = .accepted ∧ ¬r.Strays) ∨ status ≠ .accepted ∧ Database.Only [Name.channel] s t
  | .error e, t           => e.aborted = false → Database.Only [Name.channel] s t ∨
    r.Strays ∧ e.error = .attributeError ∧ Enrolled s t

section Replays

theorem post_createPayer_enrolled {items : List (Loaded RevenueItem)} {force : Bool} {enumeratedBy : Option ℕ}
    {fields : PayerFields} {extra : Bool} :
    Prog.Post (createPayer council actor items force enumeratedBy fields extra) s <| Prog.OnReturn fun _ t =>
      Enrolled s t := by
  unfold createPayer
  extract_lets fields' insert unlessExtra
  have create : ∀ u, Prog.Post (unlessExtra u) s <| Prog.OnReturn fun _ t => Enrolled s t := by
    intro u
    refine post_guard (fun _ => trivial) fun _ => .bind <| post_create (fun k hk => ?_) fun _ => trivial
    obtain ⟨hretired, hnone, -⟩ := conflicts_false hk
    refine .bind <| post_save (fun p hp => ?_) fun _ => trivial
    have hdrafts : (items.forM fun item => do
        let _ ← createDraftAssessment k council actor ⟨item, 1, none, none, none⟩).Keeps
          (Database.Only [Name.assessment]) :=
      forM_keeps fun item _ => .bind (createDraftAssessment_keeps fun _ => only_insert <| .head _) fun _ => .ret
    refine .bind <| hdrafts.post.mono fun out t ht => ?_
    cases out with
    | error e => trivial
    | ok _ =>
      refine .ret ⟨fun n hn => ?_, k, hnone, ?_⟩
      · simp only [List.mem_cons, List.not_mem_nil, or_false, not_or] at hn
        rw [ht n (by simpa using hn.2), modify_table_ne hn.1, insert_table_ne hn.1]
      · rw [ht .payer (by simp), modify_table, Table.get_modify, if_pos rfl, hp]
        rfl
  split
  case isTrue =>
    refine .bind <| post_select ?_
    dsimp only
    cases payerByPhone s council fields.phone with
    | some existing => exact .bind <| post_refuse trivial
    | none => exact create ()
  case isFalse => exact create ()

theorem post_create_aborts {n : Name} {row : Rec n} :
    Prog.Post (create (R := relational) n row) s fun out _ => ∀ e, out = .error e → e.aborted := by
  refine .bind <| .fresh fun k => .bind <| .step ?_
  cases hc : Database.conflicts s n k row with
  | true => simpa [hc] using .bind <| .raise fun e he => Except.error.inj he ▸ rfl
  | false => simpa [hc] using .bind <| .ret <| .ret fun _ he => by contradiction

theorem post_createAsset {payer ward : ℕ} {lat lng : Json} :
    Prog.Post (createAsset fw council payer ward lat lng) s fun out _ => ∀ e, out = .error e → e.aborted := by
  unfold createAsset
  split
  case h_1 =>
    refine .bind <| post_create_aborts.mono fun out t ht => ?_
    cases out with
    | ok _ => exact .ret fun _ he => by contradiction
    | error e => exact fun _ he => ht _ <| congrArg _ (Except.error.inj he)
  case h_2 => exact .raise fun e he => Except.error.inj he ▸ rfl

theorem post_replayPayer_leaves (htype : r.recordType = .payer) :
    Prog.Post (replayPayer fw r.council r.agent r.actor r.payload) s (Leaves r s) := by
  have hnothing {e : relational.Exn} : Leaves r s (.error e) s := fun _ => .inl <| Std.Refl.refl _
  unfold replayPayer
  split
  case h_2 => exact .raise hnothing
  case h_1 members hmembers =>
    extract_lets geo body
    split
    case isTrue => exact .ret <| .inr ⟨by simp, Std.Refl.refl _⟩
    case isFalse =>
      cases hdata : fw.createPayer body with
      | none => exact .ret <| .inr ⟨by simp, Std.Refl.refl _⟩
      | some data =>
        refine .bind <| post_select ?_
        refine .bind <| .attempt <| .atomic <| post_createPayer_enrolled.mono fun out t ht => ?_
        cases out with
        | error e =>
          dsimp only
          split
          · exact .ret <| .inr ⟨by simp, Std.Refl.refl _⟩
          · split
            · exact .ret <| .inr ⟨by simp, Std.Refl.refl _⟩
            · exact .raise hnothing
        | ok a =>
          -- What is blank counts as an object without coordinates.
          have hgeo : (∀ object, geo ≠ .obj object) ↔ r.Strays := by
            have hmember : r.Strays ↔ (Json.getField members "geo").truthy ∧
                ∀ object, Json.getField members "geo" ≠ .obj object := by
              simp [SyncRequest.Strays, htype, hmembers]
            rw [hmember]
            simp only [geo]
            split <;> simp_all
          clear_value geo
          cases geo with
          | obj object =>
            have hstrays : ¬r.Strays := fun h => hgeo.mpr h _ rfl
            have haccept {ref detail} {v : Db} :
                Prog.Post (pure (.accepted, ref, detail) : Service Outcome) v (Leaves r s) := .ret <| .inl ⟨rfl, hstrays⟩
            dsimp only
            refine post_unless (fun _ => haccept) fun _ => .bind <| post_createAsset.mono fun out u hout => ?_
            cases out with
            | ok _ => exact haccept
            | error e =>
              intro hkept
              rw [hout e rfl] at hkept
              contradiction
          | _ => exact .raise fun _ => .inr ⟨hgeo.mp fun _ => by simp, rfl, ht⟩

theorem post_replayPayment_leaves (htype : r.recordType = .payment) :
    Prog.Post (replayPayment fw today r.council r.agent r.actor r.payload) s (Leaves r s) := by
  have hstrays : ¬r.Strays := fun ⟨h, _⟩ => by simp [htype] at h
  have hnothing {e : relational.Exn} : Leaves r s (.error e) s := fun _ => .inl <| Std.Refl.refl _
  unfold replayPayment
  split
  case h_2 => exact .ret <| .inr ⟨by simp, Std.Refl.refl _⟩
  case h_1 data hdata =>
    refine .bind <| post_select ?_
    dsimp only
    split
    case h_2 => exact .ret <| .inr ⟨by simp, Std.Refl.refl _⟩
    case h_1 bill hbill =>
      refine .bind <| post_load (fun payer hpayer => ?_) fun _ => hnothing
      dsimp only
      split
      case isTrue => exact .ret <| .inr ⟨by simp, Std.Refl.refl _⟩
      case isFalse =>
        refine .bind <| (getOrCreateChannel_keeps (P := Database.Only [Name.channel]) id).post.mono fun out t ht => ?_
        cases out with
        | error e => exact fun _ => .inl ht
        | ok channel =>
          refine .bind <| post_select <| .bind <| .attempt <| .atomic <| .of_forall fun out u => ?_
          cases out with
          | ok payment => exact .ret <| .inl ⟨rfl, hstrays⟩
          | error e =>
            dsimp only
            split
            · exact .ret <| .inr ⟨by simp, ht⟩
            · exact .raise fun _ => .inl ht

theorem post_replay_leaves : Prog.Post (replay fw today r) s (Leaves r s) := by
  unfold replay
  split
  case h_1 htype => exact post_replayPayment_leaves htype
  case h_2 htype => exact post_replayPayer_leaves htype

theorem replay_records : (replay fw today r).Maintains fun t : Db => t.table .syncRecord = s.table .syncRecord := by
  have hkept {ts : List Name} {t u : Db} (h : Only ts t u) (ht : Name.syncRecord ∉ ts) :
      Preserves (S := relational.schema) (fun t : Db => t.table .syncRecord = s.table .syncRecord) t u :=
    fun hs => (h .syncRecord ht).trans hs
  refine replay_maintains (.of_keeps <| postPayment_keeps ?_ (fun _ => ?_) (fun h => hkept h (by simp)) ?_) fun h =>
    hkept h (by simp)
  · exact fun hs => (insert_table_ne (by decide)).trans hs
  · exact fun hs => (modify_table_ne (by decide)).trans hs
  · exact fun hs => (modify_table_ne (by decide)).trans hs

-- What has become of a record in a batch.
structure Replayed (r : SyncRequest) (s : Db) (record : MobileSyncRecord) (t : Db) : Prop where
  stored  : t.Stored r.council r.clientId record
  kept    : s.SyncKept t
  known   : ∀ known, syncRecordOf s r.council r.clientId = some known → record = known ∧ t = s
  refused : syncRecordOf s r.council r.clientId = none → record.status ≠ .accepted →
    Database.Only [Name.channel, Name.syncRecord] s t ∨
      r.Strays ∧ record.detail = .unprocessable .attributeError ∧ ∃ u, Enrolled s u ∧ Database.Only [Name.syncRecord] u t
  strays  : syncRecordOf s r.council r.clientId = none → r.Strays → record.status ≠ .accepted

-- The record is new, and the others stay.
structure Noted (record : MobileSyncRecord) (s t : Db) : Prop where
  stored : t.Stored record.council record.clientId record
  kept   : s.SyncKept t
  only   : Database.Only [Name.syncRecord] s t

theorem post_createSyncRecord {record : MobileSyncRecord} : Prog.Post (createSyncRecord record) s <|
    Prog.OnReturn fun _ t => Noted record s t := by
  refine post_guard (fun _ => trivial) fun _ => post_create (fun k hk => ?_) fun _ => trivial
  obtain ⟨hretired, hnone, -⟩ := conflicts_false hk
  refine ⟨⟨rfl, rfl, k, ?_⟩, syncKept_insert, only_insert <| .head _⟩
  rw [insert_table hretired, Table.get_insert_self hnone]

theorem post_replaySyncRecord_replayed : Prog.Post (replaySyncRecord fw today r) s <| Prog.OnReturn fun record t =>
    Replayed r s record t := by
  refine .bind <| post_select ?_
  show Prog.Post (S := relational.schema) _ s _
  split
  case h_1 existing hexisting =>
    refine .ret ⟨syncRecordOf_some hexisting, Std.Refl.refl _, fun known hknown => ?_, fun hnew => ?_, fun hnew => ?_⟩
    · exact ⟨Option.some.inj <| hexisting.symm.trans hknown, rfl⟩
    all_goals rw [hexisting] at hnew; contradiction
  case h_2 hnew =>
    refine .bind <| .attempt <| (post_replay_leaves.and <| replay_records s rfl).mono fun out u ⟨hleaves, hrecords⟩ => ?_
    show Prog.Post (S := relational.schema) _ u _
    extract_lets again enter
    have henter (outcome : Outcome) (h : outcome.1 ≠ .accepted → Database.Only [Name.channel] s u ∨ r.Strays ∧
          outcome.2.2 = .unprocessable .attributeError ∧ Enrolled s u) (hstrays : r.Strays → outcome.1 ≠ .accepted) :
        Prog.Post (enter outcome) u <| Prog.OnReturn fun record t => Replayed r s record t := by
      refine .bind <| .attempt <| .atomic <| post_createSyncRecord.mono fun out t hout => ?_
      cases out with
      | ok _ =>
        have hkept : s.SyncKept t := fun k known hknown => hout.kept k known (hrecords ▸ hknown)
        refine .ret ⟨hout.stored, hkept, fun _ hknown => (hnew _ hknown).elim, fun _ hne => ?_, fun _ => hstrays⟩
        rcases h hne with honly | ⟨hs, herror, henrolled⟩
        · exact .inl <| IsTrans.trans _ _ _ (honly.mono <| by simp) <| hout.only.mono <| by simp
        · exact .inr ⟨hs, herror, u, henrolled, hout.only⟩
      | error e =>
        refine post_guard (fun _ => trivial) fun _ => .bind <| post_select ?_
        have hnone : syncRecordOf u r.council r.clientId = none := by
          rw [Option.eq_none_iff_forall_ne_some]
          intro known hknown
          simp only [syncRecordOf, hrecords] at hknown
          exact hnew known hknown
        rw [hnone]
        exact post_refuse trivial
    clear_value enter
    cases out with
    | ok outcome =>
      obtain ⟨status, ref, detail⟩ := outcome
      have hleaves : status = .accepted ∧ ¬r.Strays ∨ status ≠ .accepted ∧ Database.Only [Name.channel] s u := hleaves
      refine .bind <| .ret <| henter _ (fun hne => ?_) fun hs he => ?_
      all_goals rcases hleaves with ⟨haccepted, hstrays⟩ | ⟨hrefused, honly⟩
      · exact absurd haccepted hne
      · exact .inl honly
      · exact hstrays hs
      · exact hrefused he
    | error e =>
      refine post_guard (fun _ => trivial) fun hkept => henter _ (fun _ => ?_) fun _ => by simp
      have hleaves : e.aborted = false → Database.Only [Name.channel] s u ∨
        r.Strays ∧ e.error = .attributeError ∧ Enrolled s u := hleaves
      rcases hleaves (by simpa using hkept) with h | ⟨hs, he, h⟩
      · exact .inl h
      · exact .inr ⟨hs, congrArg _ he, h⟩

end Replays

section Batches

variable {records rest : List SyncRequest} {answers : List MobileSyncRecord}

-- The records of a batch have been replayed one after the other.
inductive Batched (s : Db) : List SyncRequest → List MobileSyncRecord → Db → Prop
  | start : Batched s [] [] s
  | next {done answers t r record u} : Batched s done answers t → Replayed r t record u →
    Batched s (done ++ [r]) (answers ++ [record]) u

-- The batch goes on from the first record that raises no exception to the first one that does.
theorem post_sync_from {done : List SyncRequest} (h : Batched s done answers u) :
    Prog.Post (rest.foldlM (fun acc r => do return acc ++ [← (replaySyncRecord fw today r).atomic]) answers) u
      fun out t => ∃ done' answers', done' <+: done ++ rest ∧ Batched s done' answers' t ∧
        ∀ l, out = .ok l → done' = done ++ rest ∧ l = answers' := by
  induction rest generalizing done answers u with
  | nil => exact .ret ⟨done, answers, by simp, h, fun l hl => ⟨by simp, (Except.ok.inj hl).symm⟩⟩
  | cons r rest hi =>
    refine .bind <| .bind <| .atomic <| post_replaySyncRecord_replayed.mono fun out t ht => ?_
    cases out with
    | ok record =>
      refine .ret <| (hi <| h.next ht).mono fun out v hv => ?_
      simpa using hv
    | error e => exact ⟨done, answers, List.prefix_append .., h, fun l hl => by contradiction⟩

theorem Batched.length (h : Batched s records answers t) : records.length = answers.length := by
  induction h with
  | start => rfl
  | next _ _ hi => simp [hi]

theorem Batched.kept (h : Batched s records answers t) : s.SyncKept t := by
  induction h with
  | start => exact Std.Refl.refl _
  | next _ hr hi => exact IsTrans.trans _ _ _ hi hr.kept

theorem Batched.stored (h : Batched s records answers t) :
    ∀ p ∈ records.zip answers, t.Stored p.1.council p.1.clientId p.2 := by
  induction h with
  | start => simp
  | @next done answers t r record u hb hrep hi =>
    intro p hp
    rw [List.zip_append hb.length, List.zip_cons_cons, List.zip_nil_left, List.mem_append, List.mem_singleton] at hp
    rcases hp with hp | rfl
    · exact (hi p hp).kept hrep.kept
    · exact hrep.stored

theorem Batched.traceless (h : Batched s records answers t) (hr : ∀ record ∈ answers, record.status ≠ .accepted)
    (hs : ∀ r ∈ records, ¬r.Strays) : Database.Only [Name.channel, Name.syncRecord] s t := by
  induction h with
  | start => exact Std.Refl.refl _
  | @next done answers t r record u _ hrep hi =>
    have hprior := hi (fun record hmem => hr record <| List.mem_append_left _ hmem)
      fun r hmem => hs r <| List.mem_append_left _ hmem
    refine IsTrans.trans _ _ _ hprior ?_
    cases hknown : syncRecordOf t r.council r.clientId with
    | some known =>
      rw [(hrep.known _ hknown).2]
      exact Std.Refl.refl _
    | none =>
      rcases hrep.refused hknown <| hr record <| by simp with honly | ⟨hstrays, _⟩
      · exact honly
      · exact absurd hstrays <| hs r <| by simp

-- What has become of a batch when its request ends.
structure Traced (s : Db) (records : List SyncRequest) (out : Except relational.Exn (List MobileSyncRecord))
    (done : List SyncRequest) (answers : List MobileSyncRecord) (t : Db) : Prop where
  batched   : Batched s done answers t
  part      : done <+: records
  whole     : ∀ l, out = .ok l → done = records ∧ l = answers
  stored    : ∀ p ∈ done.zip answers, t.Stored p.1.council p.1.clientId p.2
  kept      : s.SyncKept t
  -- Only a registration whose geo is no object leaves something although it is refused.
  traceless : (∀ record ∈ answers, record.status ≠ .accepted) → (∀ r ∈ done, ¬r.Strays) →
    Database.Only [Name.channel, Name.syncRecord] s t

theorem Batched.traced {out : Except relational.Exn (List MobileSyncRecord)} {done : List SyncRequest}
    (h : Batched s done answers t) (hpart : done <+: records) (hwhole : ∀ l, out = .ok l → done = records ∧ l = answers) :
    Traced s records out done answers t :=
  ⟨h, hpart, hwhole, h.stored, h.kept, h.traceless⟩

-- The records of a batch up to the first that raises are replayed in turn, and what is refused of them leaves no trace.
theorem batch_traced {n m : Name → ℕ} {out : Except relational.Exn (List MobileSyncRecord)}
    (h : respond (sync fw today records) s n = (out, t, m)) : ∃ done answers, Traced s records out done answers t := by
  have hpost : Prog.Post (sync fw today records) s fun out t => ∃ done answers, done <+: records ∧
      Batched s done answers t ∧ ∀ l, out = .ok l → done = records ∧ l = answers := post_sync_from .start
  rcases respond_post hpost h with ⟨rfl, e, rfl⟩ | ⟨⟨done, answers, hpart, hbatched, hwhole⟩, _⟩
  · exact ⟨[], [], Batched.start.traced (List.nil_prefix ..) fun l hl => by contradiction⟩
  · exact ⟨done, answers, hbatched.traced hpart hwhole⟩

end Batches

namespace Sample

def shopForm : PayerForm where
  toPayerFields           := fields "0803"
  revenueItemIds          := []
  hasAssignedConsultantId := false

def registering : Framework where
  postPayment _ := some ⟨99, 5, .cash, "", none, none⟩
  createPayer _ := some shopForm
  coordinate _  := none

def shopPayload (geo : Json) : Json :=
  .obj [("ward", .int 1), ("geo", geo)]

-- A payment of no bill, and a payer whose geo is a text.
def queued : List SyncRequest :=
  [⟨1, ⟨1, some 1⟩, 2, "c1", .payment, cashPayload⟩, ⟨1, ⟨1, some 1⟩, 2, "c2", .payer, shopPayload (.str "9,7")⟩]

def flushed : Except relational.Exn (List MobileSyncRecord) × Db × (Name → ℕ) :=
  respond (sync registering day queued) fielded.1 fielded.2

end Sample

set_option maxRecDepth 20000 in
-- Both records are rejected, and the payer is there.
theorem sample_traced : (∃ done answers, Traced Sample.fielded.1 Sample.queued Sample.flushed.1 done answers
      Sample.flushed.2.1) ∧
    (Sample.flushed.1.toOption.map fun l => l.map (·.status)) = some [.rejected, .rejected] ∧
    Sample.flushed.2.1.table .bill = Sample.fielded.1.table .bill ∧
    ((Sample.flushed.2.1.table .payer).rows.map (·.2.phone)).contains "0803" :=
  ⟨batch_traced rfl, by decide +kernel, by decide +kernel, by decide +kernel⟩

end ACRev360
