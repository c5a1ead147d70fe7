import ACRev360.Library.Steady
import ACRev360.Theorems.Refusals

namespace ACRev360

open Relational Relational.Database

-- The records of sync calls that run concurrently.

variable {fw : Framework} {today : Date} {s t c c₀ d : Db} {r : SyncRequest} {k : ℕ}

namespace Db

def SameRecords (s t : Db) : Prop :=
  t.table .syncRecord = s.table .syncRecord

instance : Std.Refl SameRecords where
  refl _ := rfl

instance : IsTrans Db SameRecords where
  trans _ _ _ h₁ h₂ := Eq.trans h₂ h₁

-- What is recorded stays, under one client_id each.
structure Archived (s t : Db) : Prop where
  kept   : s.SyncKept t
  unique : Unique (R := relational) .syncRecord s → Unique (R := relational) .syncRecord t

theorem SameRecords.archived (h : s.SameRecords t) : s.Archived t :=
  ⟨fun _ _ hr => h ▸ hr, fun hs => hs.congr h⟩

theorem Archived.trans {u : Db} (h₁ : s.Archived t) (h₂ : t.Archived u) : s.Archived u :=
  ⟨IsTrans.trans _ _ _ h₁.kept h₂.kept, h₂.unique ∘ h₁.unique⟩

theorem Archived.insert {record : MobileSyncRecord} (h : Database.conflicts s .syncRecord k record = false) :
    s.Archived (Database.insert s .syncRecord k record) :=
  ⟨syncKept_insert, fun hs => hs.insert h⟩

theorem Stored.eq_of_unique {council : ℕ} {clientId : String} {a b : MobileSyncRecord}
    (hs : Unique (R := relational) .syncRecord s) (ha : s.Stored council clientId a) (hb : s.Stored council clientId b) :
    a = b := by
  obtain ⟨rfl, rfl, i, hi⟩ := ha
  obtain ⟨hcouncil, hclient, j, hj⟩ := hb
  obtain rfl := @hs (.clientId a.council a.clientId) i j ⟨a, hi, by simp⟩ ⟨b, hj, by simp [hcouncil, hclient]⟩
  exact Option.some.inj <| hi.symm.trans hj

theorem Stored.found {council : ℕ} {clientId : String} {a : MobileSyncRecord} (h : s.Stored council clientId a) :
    ∃ b, syncRecordOf s council clientId = some b := by
  obtain ⟨rfl, rfl, i, hi⟩ := h
  refine Option.ne_none_iff_exists'.mp fun hnone => ?_
  simpa using Table.first_none (Option.map_eq_none_iff.mp hnone) hi

end Db

section Replaying

theorem replay_sameRecords {P : Db → Db → Prop} [Std.Refl P] [IsTrans Db P] (hP : ∀ {s t}, s.SameRecords t → P s t) :
    (replay fw today r).Keeps P := by
  have honly {ts : List Name} {s t : Db} (h : Database.Only ts s t) (ht : Name.syncRecord ∉ ts) : P s t :=
    hP <| h .syncRecord ht
  unfold replay
  split
  case h_2 =>
    refine replayPayer_keeps (fun _ _ _ _ => ?_) ?_ (honly · (by simp))
    · exact hP <| insert_table_ne (by decide)
    · exact hP <| modify_table_ne (by decide)
  case h_1 =>
    unfold replayPayment
    split
    case h_2 => exact .ret
    refine .bind keeps_select fun bill => ?_
    split
    case h_2 => exact .ret
    refine .bind load_keeps fun payer => ?_
    split
    case isTrue => exact .ret
    refine .bind (getOrCreateChannel_keeps (honly · (by simp))) fun channel => .bind keeps_select fun terminal => ?_
    have hpost {bill : Loaded Bill} {pr : PaymentRequest} : (postPayment today bill pr).Keeps P :=
      postPayment_keeps (hP <| insert_table_ne (by decide)) (fun _ => hP <| modify_table_ne (by decide))
        (honly · (by simp)) (hP <| modify_table_ne (by decide))
    refine .bind (.attempt <| .atomic hpost) fun out => ?_
    split
    · exact .ret
    · split
      · exact .ret
      · exact .raise

-- The others add records, and change none.
def filing : Rely relational.schema where
  guar _      := Db.Archived
  calm _      := False
  takes _ _ _ := True
  lands _ _   := True
  refl _ _    := ⟨Std.Refl.refl _, id⟩
  trans       := .trans
  anti _ h    := h

instance : filing.Keeps (Unique (R := relational) .syncRecord) where
  keeps h := h.unique

variable {x y : Txn relational.schema} {seen : List Facet}

-- States that agree on the row and its unique values let it in alike.
theorem conflicts_congr {n : Name} {row : Rec n} (hrow : Agree (Row.row (R := relational) n k) s t)
    (hkeys : ∀ u ∈ relational.keys n row, Agree (Row.key (R := relational) u) s t)
    (h : Database.conflicts s n k row = false) : Database.conflicts t n k row = false := by
  obtain ⟨hretired, hnone, hfree⟩ := conflicts_false h
  by_contra hc
  obtain ⟨u, hu, n', i, hi⟩ := holds_of_conflicts (hrow.2.not.mp hretired) (hrow.1 ▸ hnone) (by simpa using hc)
  exact hfree u hu n' i <| (hkeys u hu n' i).mpr hi

-- What a call sees of the records stays.
theorem view_kept (h : Interf filing x seen c d) : Db.SyncKept (x.pend c) (x.pend d) := by
  intro k record hr
  cases hx : x.held (.row .syncRecord k) with
  | true => exact (h.view_agree hx).1 ▸ hr
  | false =>
    have hc : (c.table .syncRecord).get k = some record := (x.frame c hx).1.trans hr
    exact (x.frame d hx).1.symm.trans <| h.guar.kept k record hc

-- The call keeps one record to a client_id, and sees what it has answered with.
structure Replying (answers : List (SyncRequest × MobileSyncRecord)) (c : Db) (x : Txn relational.schema) : Prop where
  unique : x.Steady (Unique (R := relational) .syncRecord) (fun _ => Unique (R := relational) .syncRecord) c
  stored : ∀ a ∈ answers, Db.Stored (x.pend c) a.1.council a.1.clientId a.2

variable {answers : List (SyncRequest × MobileSyncRecord)} {record : MobileSyncRecord}

namespace Replying

theorem interf (h : Replying answers c x) (hd : Interf filing x seen c d) : Replying answers d x where
  unique := h.unique.interf hd
  stored a ha := (h.stored a ha).kept <| view_kept hd

theorem answer (h : Replying answers c x) (hr : Db.Stored (x.pend c) r.council r.clientId record) :
    Replying (answers ++ [(r, record)]) c x where
  unique := h.unique
  stored a ha := by
    rcases List.mem_append.mp ha with ha | ha
    · exact h.stored a ha
    · obtain rfl := List.mem_singleton.mp ha
      exact hr

theorem keeps {α : Type} {p : Service α} (h : Replying answers c x) (hp : p.Keeps Db.SameRecords) :
    p.Wp filing (fun _ d y _ => Replying answers d y) c x seen := by
  have hstay : p.Wp filing (fun _ d y seen' => Replying answers d x ∧ x.Sub y ∧ seen ⊆ seen') c x seen :=
    .stable (fun hd h => Replying.interf h hd) h
  refine (hstay.and <| Prog.Wp.keeps hp).mono fun _ d y _ ⟨⟨hd, hsub, _⟩, hy⟩ => ?_
  have hsame (b : Db) : Db.SameRecords (x.pend b) (y.pend b) := hy b
  refine ⟨⟨hd.unique.holds, fun e he hu => ?_⟩, fun a ha => (hd.stored a ha).kept (hsame d).archived.kept⟩
  exact (hsame e).archived.unique <| hd.unique.makes e (fun row hrow => he row <| hsub row hrow) hu

-- The record goes in under a client_id that no other one has, and the locks keep the others from taking it.
theorem enter (h : Replying answers c x) (hfree : Database.conflicts (x.pend c) .syncRecord k record = false)
    (hcouncil : record.council = r.council) (hclient : record.clientId = r.clientId) :
    Replying (answers ++ [(r, record)]) c (x.add (insertAct (R := relational) .syncRecord k record)) := by
  have hunique : (x.add (insertAct (R := relational) .syncRecord k record)).Steady
      (Unique (R := relational) .syncRecord) (fun _ => Unique (R := relational) .syncRecord) c := by
    refine Txn.Steady.add h.unique fun hagree hu => hu.insert <| conflicts_congr ?_ (fun u hu => ?_) hfree
    · exact hagree _ <| Txn.add_held.mpr <| .inr <| .head _
    · exact hagree _ <| Txn.add_held.mpr <| .inr <| .tail _ <| List.mem_map_of_mem hu
  have hkept : Db.SyncKept (x.pend c) (Database.insert (x.pend c) .syncRecord k record) := syncKept_insert
  refine Replying.answer ⟨hunique, fun a ha => (h.stored a ha).kept hkept⟩ ⟨hcouncil, hclient, k, ?_⟩
  obtain ⟨hretired, hnone, -⟩ := conflicts_false hfree
  show Table.get (Database.table (Database.insert (x.pend c) .syncRecord k record) .syncRecord) k = some record
  rw [insert_table hretired, Table.get_insert_self hnone]

end Replying

-- What a block has not recorded in the end, it has not recorded at all.
theorem wp_block {α : Type} {p : Service α} {more : α → List (SyncRequest × MobileSyncRecord)}
    (h : Replying answers c x) (hp : p.Wp filing (fun out d y _ => ∀ a, out = .ok a → Replying (more a) d y) c x seen) :
    p.atomic.Wp filing (fun out d y _ => match out with
      | .ok a    => Replying (more a) d y
      | .error _ => Replying answers d y) c x seen := by
  have hback : p.Wp filing (fun _ d _ seen' => Replying answers d x ∧ seen ⊆ seen') c x seen :=
    (Prog.Wp.stable (fun hd h => Replying.interf h hd) h).mono fun _ _ _ _ hd => ⟨hd.1, hd.2.2⟩
  refine .atomic <| (hback.and hp).mono fun out d y seen' ⟨⟨hd, hseen⟩, hout⟩ => ?_
  cases out with
  | ok a => exact hout a rfl
  | error e => exact fun d' hd' => hd.interf hd'

theorem wp_enter (h : Replying answers c x) (hcouncil : record.council = r.council)
    (hclient : record.clientId = r.clientId) :
    (createSyncRecord record).Wp filing (fun out d y _ => ∀ k, out = .ok k →
      Replying (answers ++ [(r, record)]) d y) c x seen := by
  refine wp_guard (fun _ _ he => by contradiction) fun _ => wp_create (fun k hk _ d hd => ?_) ?_
  · exact fun _ _ => (h.enter hk hcouncil hclient).interf hd
  · exact fun _ _ _ _ _ _ _ he => by contradiction

theorem wp_found (h : Replying answers c x) :
    (query fun s => syncRecordOf s r.council r.clientId : Service (Option MobileSyncRecord)).Wp filing
      (fun out d y _ => ∃ found, out = .ok found ∧ match found with
        | some record => Replying (answers ++ [(r, record)]) d y
        | none        => Replying answers d y) c x seen := by
  refine wp_select fun d hd => ⟨_, rfl, ?_⟩
  split
  case h_1 hfound => exact (h.answer <| syncRecordOf_some hfound).interf hd
  case h_2 => exact h.interf hd

theorem wp_answered (h : Replying answers c x) :
    (replaySyncRecord fw today r).Wp filing (fun out d y _ => ∀ record, out = .ok record →
      Replying (answers ++ [(r, record)]) d y) c x seen := by
  refine .bind <| (wp_found h).mono fun out d y seen ⟨found, hout, h⟩ => ?_
  subst hout
  cases found with
  | some record => exact .ret fun _ he => Except.ok.inj he ▸ h
  | none =>
    refine .bind <| (h.keeps <| .attempt <| replay_sameRecords id).mono fun out d y seen h => ?_
    cases out with
    | error e => exact fun _ he => by contradiction
    | ok res =>
      change Prog.Wp _ _ _ _ _ _
      extract_lets again enter
      have henter (outcome : Outcome) : (enter outcome).Wp filing (fun out d y _ => ∀ record, out = .ok record →
          Replying (answers ++ [(r, record)]) d y) d y seen := by
        refine .bind <| .attempt <| (wp_block h <| wp_enter h rfl rfl).mono fun out d y seen h => ?_
        cases out with
        | ok _ => exact .ret fun _ he => Except.ok.inj he ▸ h
        | error e =>
          refine wp_guard (fun _ _ he => by contradiction) fun _ => .bind <| (wp_found h).mono ?_
          intro out d y seen ⟨found, hout, h⟩
          subst hout
          cases found with
          | some record => exact .ret fun _ he => Except.ok.inj he ▸ h
          | none => exact .raise fun _ he => by contradiction
      clear_value enter
      cases res with
      | ok outcome => exact henter outcome
      | error e => exact wp_guard (fun _ _ he => by contradiction) fun _ => henter _

theorem wp_sync {records : List SyncRequest} (h : Replying [] c x) :
    (sync fw today records).Wp filing (fun out d y _ => match out with
      | .ok l    => l.length = records.length ∧ Replying (records.zip l) d y
      | .error _ => ∃ answers, Replying answers d y) c x seen := by
  refine (Prog.Wp.foldlM (E := fun _ d y _ => ∃ answers, Replying answers d y) (I := fun acc l c x _ =>
    ∃ done, records = done ++ l ∧ done.length = acc.length ∧ Replying (done.zip acc) c x) ?step
    ⟨[], rfl, rfl, h⟩).mono ?ended
  case step =>
    rintro acc r l c x seen ⟨done, rfl, hlength, h⟩
    refine .bind <| (wp_block h <| wp_answered h).mono fun out d y seen h => ?_
    cases out with
    | error e => exact ⟨_, h⟩
    | ok record =>
      refine .ret ⟨done ++ [r], by simp, by simp [hlength], ?_⟩
      rw [List.zip_append hlength]
      exact h
  case ended =>
    intro out d y _ hout
    cases out with
    | error e => exact hout
    | ok l =>
      obtain ⟨done, hdone, hlength, h⟩ := hout
      rw [List.append_nil] at hdone
      exact ⟨hdone ▸ hlength.symm, hdone ▸ h⟩

-- A batch of which every client_id is recorded already does nothing.
theorem wp_resent {records : List SyncRequest} (h : ∀ r ∈ records, ∃ a, Db.Stored c r.council r.clientId a) :
    (sync fw today records).Wp filing (fun out _ y _ => y = .start ∧ ∃ l, out = .ok l) c .start seen := by
  refine (Prog.Wp.foldlM (E := fun _ _ _ _ => False) (I := fun _ l c x _ =>
    x = .start ∧ ∀ r ∈ l, ∃ a, Db.Stored c r.council r.clientId a) ?step ⟨rfl, h⟩).mono ?ended
  case step =>
    rintro acc r l c _ seen ⟨rfl, h⟩
    refine .bind <| .atomic <| .bind <| wp_select fun d hd => ?_
    have hstays (r' : SyncRequest) (hr : r' ∈ l) : ∃ a, Db.Stored d r'.council r'.clientId a := by
      obtain ⟨a, ha⟩ := h r' <| .tail _ hr
      exact ⟨a, ha.kept hd.guar.kept⟩
    obtain ⟨a, ha⟩ := h r <| .head _
    obtain ⟨record, hfound⟩ := ha.found
    rw [Txn.start_pend, hfound]
    exact .ret <| .ret ⟨rfl, hstays⟩
  case ended =>
    intro out _ y _ hout
    cases out with
    | ok l => exact ⟨hout.1, l, rfl⟩
    | error e => exact hout.elim

end Replaying

section Runs

-- Agents send their batches, while others do something else.
inductive Errand where
  | sync (fw : Framework) (today : Date) (records : List SyncRequest)
  | other (request : Service Unit)

namespace Errand

-- What a batch has recorded before it was refused is committed, unless the database has given up the transaction.
def respond : Errand → Service (Option (List MobileSyncRecord))
  | sync fw today records => do
    match ← (ACRev360.sync fw today records).attempt with
    | .ok answers => return some answers
    | .error e    => if e.aborted then .raise e else return none
  | other request => do
    request
    return none

-- The records that the call has been sent back, each with what it was asked.
def answers : Errand → Except relational.Exn (Option (List MobileSyncRecord)) → List (SyncRequest × MobileSyncRecord)
  | sync _ _ records, .ok (some answers) => records.zip answers
  | _, _                                 => []

-- The call asks only for what has been recorded.
def Resent (c : Db) : Errand → Prop
  | sync _ _ records => ∀ r ∈ records, ∃ a, Db.Stored c r.council r.clientId a
  | other _          => False

end Errand

variable {ι : Type} {errand : Errand} {i : ι}

-- What a call has done to the records when it ends.
structure Dispatched (errand : Errand) (c : Db)
    (e : Event relational.schema ι (Option (List MobileSyncRecord))) : Prop where
  archived    : Db.Archived e.before e.after
  answered : ∀ a ∈ errand.answers e.result, Db.Stored e.after a.1.council a.1.clientId a.2
  whole    : ∀ fw today records l, errand = .sync fw today records → e.result = .ok (some l) →
    l.length = records.length
  resent   : errand.Resent c → e.after = e.before
  refused  : ∀ err, e.result = .error err → e.after = e.before

theorem Dispatched.refuse {err : relational.Exn} {held : relational.Row → Bool} :
    Dispatched errand c₀ (⟨i, .error err, c, c, held⟩ : Event relational.schema ι _) where
  archived            := Std.Refl.refl (r := Db.SameRecords) c |>.archived
  answered a ha    := by cases errand <;> contradiction
  whole _ _ _ _ _ h := by contradiction
  resent _         := rfl
  refused _ _      := rfl

section Respond

variable {records : List SyncRequest}

theorem wp_respond_answers (h : Replying [] c .start) :
    (Errand.sync fw today records).respond.Wp filing (fun out d y _ => match out with
      | .ok (some l) => l.length = records.length ∧ Replying (records.zip l) d y
      | .ok none     => ∃ answers, Replying answers d y
      | .error _     => True) c .start [] := by
  refine .bind <| .attempt <| (wp_sync h).mono fun out d y _ hout => ?_
  cases out with
  | ok l => exact .ret hout
  | error e =>
    dsimp only
    split
    · exact .raise trivial
    · exact .ret hout

theorem wp_respond_resent (h : ∀ r ∈ records, ∃ a, Db.Stored c r.council r.clientId a) :
    (Errand.sync fw today records).respond.Wp filing (fun _ _ y _ => y = .start) c .start [] := by
  refine .bind <| .attempt <| (wp_resent h).mono fun out d y _ hout => ?_
  obtain ⟨rfl, l, rfl⟩ := hout
  exact .ret rfl

theorem respond_syncKept : (Errand.sync fw today records).respond.Keeps Db.SyncKept := by
  have hreplay {r : SyncRequest} : (replay fw today r).Keeps Db.SyncKept := replay_sameRecords fun h => h.archived.kept
  refine .bind (.attempt <| .foldlM fun _ _ => ?_) fun out => ?_
  · exact .bind (.atomic <| replaySyncRecord_keeps hreplay syncKept_insert) fun _ => .ret
  · cases out with
    | ok l => exact .ret
    | error e =>
      dsimp only
      split
      · exact .raise
      · exact .ret

theorem wp_respond (hc : Unique (R := relational) .syncRecord c) (hkept : Db.SyncKept c₀ c)
    (hother : ∀ p, errand = .other p → p.Keeps Db.SameRecords) :
    errand.respond.Wp filing (Sys.Ended filing (Dispatched errand c₀) i) c .start [] := by
  have hstart : Replying [] c .start := ⟨⟨hc, fun _ _ hu => hu⟩, by simp⟩
  cases errand with
  | other p =>
    have hsame : (Errand.other p).respond.Keeps Db.SameRecords := .bind (hother p rfl) fun _ => .ret
    refine (Prog.Wp.keeps hsame).mono fun out d y _ hy => ?_
    cases out with
    | error err => exact .refuse
    | ok o =>
      have hd : Db.SameRecords d (y.pend d) := hy d
      refine ⟨fun _ _ => ⟨hd.archived, fun _ ha => ?_, fun _ _ _ _ h => ?_, False.elim, fun _ h => ?_⟩, .refuse⟩
      all_goals contradiction
  | sync fw today records =>
    have hresent : (Errand.sync fw today records).respond.Wp filing (fun _ _ y _ =>
        Errand.Resent c₀ (.sync fw today records) → y = .start) c .start [] := by
      by_cases hr : Errand.Resent c₀ (.sync fw today records)
      case pos =>
        refine (wp_respond_resent fun r hmem => ?_).mono fun _ _ _ _ hy _ => hy
        obtain ⟨a, ha⟩ := hr r hmem
        exact ⟨a, ha.kept hkept⟩
      case neg => exact .of_forall fun _ _ _ _ h => (hr h).elim
    refine ((wp_respond_answers hstart).and <| (Prog.Wp.keeps respond_syncKept).and hresent).mono ?_
    intro out d y _ ⟨hout, hy, hquiet⟩
    have hkept : Db.SyncKept d (y.pend d) := hy d
    have hafter (h : Errand.Resent c₀ (.sync fw today records)) : y.pend d = d := by rw [hquiet h, Txn.start_pend]
    cases out with
    | error err => exact .refuse
    | ok o =>
      cases o with
      | none =>
        obtain ⟨answers, h⟩ := hout
        refine ⟨fun _ _ => ⟨⟨hkept, fun hu => h.unique.self⟩, fun _ ha => ?_, fun _ _ _ _ _ h => ?_, hafter,
          fun _ _ => by contradiction⟩, .refuse⟩
        · contradiction
        · simp at h
      | some l =>
        obtain ⟨hlength, h⟩ := hout
        refine ⟨fun _ _ => ⟨⟨hkept, fun hu => h.unique.self⟩, h.stored, fun _ _ _ _ hsync hl => ?_, hafter,
          fun _ _ => by contradiction⟩, .refuse⟩
        cases hsync
        cases hl
        exact hlength

end Respond

-- No client_id is recorded twice, and whoever sends it, in whatever order, is sent back the record that there is.
structure Acknowledged (calls : ι → Errand) (c : Db)
    (s : Sys relational.schema ι (Option (List MobileSyncRecord))) : Prop where
  archived : Db.SyncKept c s.committed
  unique   : Unique (R := relational) .syncRecord s.committed
  answered : ∀ e ∈ s.log, ∀ a ∈ (calls e.who).answers e.result, Db.Stored s.committed a.1.council a.1.clientId a.2
  agreed   : ∀ e₁ ∈ s.log, ∀ e₂ ∈ s.log, ∀ a₁ ∈ (calls e₁.who).answers e₁.result,
    ∀ a₂ ∈ (calls e₂.who).answers e₂.result, a₁.1.council = a₂.1.council → a₁.1.clientId = a₂.1.clientId →
      a₁.2 = a₂.2
  whole    : ∀ e ∈ s.log, ∀ fw today records l, calls e.who = .sync fw today records → e.result = .ok (some l) →
    l.length = records.length
  resent   : ∀ e ∈ s.log, (calls e.who).Resent c → e.after = e.before
  refused  : ∀ e ∈ s.log, ∀ err, e.result = .error err → e.after = e.before

-- This holds of every schedule.
theorem replayed_concurrently [DecidableEq ι] [Fintype ι] {calls : ι → Errand} {n : Name → ℕ}
    {s : Sys relational.schema ι (Option (List MobileSyncRecord))} (hc : Unique (R := relational) .syncRecord c)
    (hother : ∀ i p, calls i = .other p → p.Keeps Db.SameRecords)
    (h : Sys.Run (fun _ _ _ => True) (Sys.start c n fun i => (calls i).respond) s) : Acknowledged calls c s := by
  have recorded : ∀ e ∈ s.log, Dispatched (calls e.who) c e :=
    h.sound (L := fun _ => filing) (fun _ _ he _ _ => he.archived)
      (fun _ _ _ _ => ⟨fun _ _ _ _ _ => trivial, fun _ _ _ _ => trivial, fun _ _ hf => hf.elim⟩)
      fun i d hd => (wp_respond (hd.guar.unique hc) hd.guar.kept <| hother i).mono
        fun r _ _ _ h => by cases r <;> exact h
  have hunique := h.linked.preserves (P := Unique (R := relational) .syncRecord) hc
    fun e he => (recorded e he).archived.unique
  have hanswered : ∀ e ∈ s.log, ∀ a ∈ (calls e.who).answers e.result,
      Db.Stored s.committed a.1.council a.1.clientId a.2 := fun e he a ha =>
    h.linked.lasts (P := (Db.Stored · a.1.council a.1.clientId a.2))
      (fun e' he' hr => hr.kept (recorded e' he').archived.kept) e he <| (recorded e he).answered a ha
  refine ⟨?_, hunique, hanswered, fun e₁ he₁ e₂ he₂ a₁ ha₁ a₂ ha₂ hcouncil hclient => ?_,
    fun e he => (recorded e he).whole, fun e he => (recorded e he).resent, fun e he => (recorded e he).refused⟩
  · exact h.linked.preserves (P := Db.SyncKept c) (Std.Refl.refl _)
      fun e he hk => IsTrans.trans _ _ _ hk (recorded e he).archived.kept
  · refine Db.Stored.eq_of_unique hunique (hanswered e₁ he₁ a₁ ha₁) ?_
    rw [hcouncil, hclient]
    exact hanswered e₂ he₂ a₂ ha₂

end Runs

namespace Sample

-- The batch is sent twice, the second time before the first has been answered.
def impatient : Bool → Errand :=
  fun _ => .sync collecting day [cashCollected]

def bothSyncing : Sys relational.schema Bool (Option (List MobileSyncRecord)) :=
  (Sys.start fielded.1 fielded.2 fun i => (impatient i).respond).exec ((List.replicate 60 [true, false]).flatten)

end Sample

set_option maxRecDepth 20000 in
-- Both calls are sent the one record back. The cash is posted twice all the same.
theorem sample_replayed : Acknowledged Sample.impatient Sample.fielded.1 Sample.bothSyncing ∧
    (Sample.bothSyncing.log.map fun e => e.result.toOption.join.map fun l => l.map (·.status)) =
      [some [.accepted], some [.accepted]] ∧
    (Sample.bothSyncing.committed.table .syncRecord).rows.length = 1 ∧
    (Sample.bothSyncing.committed.table .payment).rows.length = 2 := by
  refine ⟨replayed_concurrently ?_ (fun i p hp => by contradiction) <| .exec .start _, by decide +kernel,
    by decide +kernel, by decide +kernel⟩
  refine Unique.of_pairwise ?_
  decide +kernel

end ACRev360
