import ACRev360.Theorems.Assignments

namespace ACRev360

open Relational Relational.Database

variable {fw : Framework} {today : Date} {s t : Db} {n m : Name → ℕ} {r : SyncRequest} {k : ℕ}
  {agent : FieldAgent} {payer : Payer}

theorem mem_getWorklist {council : ℕ} (hk : (s.table .payer).get k = some payer) :
    (k, payer) ∈ getWorklist s council agent ↔
      payer.council = council ∧ agent.assignedWard = some payer.ward ∧ payer.handler = agent.user := by
  rw [getWorklist, Table.mem_filter_iff]
  cases ha : payer.assignedAgent <;> simp [hk, ha, Payer.handler, and_assoc]

-- The worklist of an agent is what the agent sees of the payers of the ward.
theorem mem_getWorklist_iff {council : ℕ} (hk : (s.table .payer).get k = some payer)
    (hlevel : s.accessLevel agent.user = some .agent) : (k, payer) ∈ getWorklist s council agent ↔
      payer.council = council ∧ agent.assignedWard = some payer.ward ∧ portfolioFilter s agent.user payer := by
  rw [mem_getWorklist hk, agent_sees hlevel]

-- The payload of the record names a bill of the council, of a payer in the agent's ward.
structure InWard (fw : Framework) (s : Db) (r : SyncRequest) (bill payerId : ℕ) (payer : Payer) : Prop where
  named : ∃ data row, fw.postPayment r.payload = some data ∧
    billInCouncil s data.billId r.council = some ⟨bill, row⟩ ∧ row.payer = payerId
  found : (s.table .payer).get payerId = some payer
  ward  : r.agent.assignedWard = some payer.ward

-- The payments that are new since `s` are to bills that the record names.
def PaidInWard (fw : Framework) (r : SyncRequest) (s t : Db) : Prop :=
  ∀ ⦃k p⦄, (t.table .payment).get k = some p → (s.table .payment).get k = none →
    ∃ payerId payer, InWard fw s r p.bill payerId payer

theorem PaidInWard.of_only {s₀ : Db} {ts : List Name} (h : Only ts s t) (ht : Name.payment ∉ ts) :
    Preserves (S := relational.schema) (PaidInWard fw r s₀) s t := by
  intro hs k p hp
  rw [h .payment ht] at hp
  exact hs hp

theorem PaidInWard.refl : PaidInWard fw r s s := by
  intro k p hp hn
  simp [hn] at hp

theorem paidInWard_post {s₀ : Db} {bill : Loaded Bill} {pr : PaymentRequest} {payerId : ℕ}
    (h : InWard fw s₀ r bill.id payerId payer) : (postPayment today bill pr).Maintains (PaidInWard fw r s₀) := by
  have hcreate : (createPayment today bill.id pr).Keeps
      (Preserves (S := relational.schema) (PaidInWard fw r s₀)) := by
    refine .bind ?geo fun _ => .bind store_keeps fun _ => .bind storeText_keeps fun _ => ?create
    case geo => split; exacts [.ret, keeps_abort]
    case create =>
      refine .bind (keeps_create fun k s hs i p hp hn => ?_) fun _ =>
        .bind (keeps_save fun s hs i p hp hn => ?_) fun _ => .ret
      · rcases get_insert_cases hp with ⟨_, rfl⟩ | hp
        · exact ⟨payerId, payer, h⟩
        · exact hs hp hn
      · obtain ⟨q, hq, ⟨_, rfl⟩ | rfl⟩ := get_modify_cases hp
        · exact hs (p := q) hq hn
        · exact hs hq hn
  exact postPayment_maintains (.of_keeps hcreate) fun h => PaidInWard.of_only h (by simp)

theorem post_replayPayment : Prog.Post (replayPayment fw today r.council r.agent r.actor r.payload) s fun out t =>
    (∀ ref detail, out = .ok (.accepted, ref, detail) → ∃ bill payerId payer, InWard fw s r bill payerId payer) ∧
    PaidInWard fw r s t := by
  unfold replayPayment
  split
  case h_2 => exact .ret ⟨nofun, .refl⟩
  case h_1 data hdata =>
    refine .bind <| post_select ?_
    simp only
    split
    case h_2 => exact .ret ⟨nofun, .refl⟩
    case h_1 bill hbill =>
      refine .bind <| post_load (fun payer hpayer => ?_) fun _ => ⟨nofun, .refl⟩
      simp only
      split
      case isTrue => exact .ret ⟨nofun, .refl⟩
      case isFalse hward =>
        have hin : InWard fw s r bill.id bill.row.payer payer :=
          ⟨⟨data, bill.row, hdata, hbill, rfl⟩, hpayer, not_not.mp hward⟩
        have hchannel : (getOrCreateChannel data.channelCode).Maintains (PaidInWard fw r s) :=
          .of_keeps <| getOrCreateChannel_keeps fun h => PaidInWard.of_only h (by simp)
        suffices h : ∀ {p : Service Outcome}, p.Maintains (PaidInWard fw r s) → Prog.Post p s fun out t =>
            (∀ ref detail, out = .ok (.accepted, ref, detail) →
              ∃ bill payerId payer, InWard fw s r bill payerId payer) ∧ PaidInWard fw r s t by
          refine h <| .bind hchannel fun channel => .bind (.of_keeps keeps_select) fun terminal => ?_
          refine .bind (.attempt <| .atomic <| paidInWard_post hin) fun out => ?_
          split
          · exact .ret
          · split
            · exact .ret
            · exact .raise
        exact fun hp => (hp s .refl).mono fun _ _ ht => ⟨fun _ _ _ => ⟨_, _, _, hin⟩, ht⟩

theorem post_replay (htype : r.recordType = .payment) :
    Prog.Post (replay fw today r) s fun out t => ((∀ ref detail, out = .ok (.accepted, ref, detail) →
      ∃ bill payerId payer, InWard fw s r bill payerId payer) ∧ PaidInWard fw r s t) ∧
        t.table .syncRecord = s.table .syncRecord := by
  have hrecords : (replay fw today r).Maintains fun t : Db => t.table .syncRecord = s.table .syncRecord := by
    have hO {ts : List Name} {t u : Db} (h : Only ts t u) (ht : Name.syncRecord ∉ ts) :
        Preserves (S := relational.schema) (fun t : Db => t.table .syncRecord = s.table .syncRecord) t u :=
      fun hs => (h .syncRecord ht).trans hs
    refine replay_maintains (.of_keeps <| postPayment_keeps ?_ (fun _ => ?_) (fun h => hO h (by simp)) ?_) fun h => hO h (by simp)
    · exact fun hs => (insert_table_ne (by decide)).trans hs
    · exact fun hs => (modify_table_ne (by decide)).trans hs
    · exact fun hs => (modify_table_ne (by decide)).trans hs
  refine .and ?_ (hrecords s rfl)
  rw [replay, htype]
  exact post_replayPayment

theorem post_replaySyncRecord (htype : r.recordType = .payment) :
    Prog.Post (replaySyncRecord fw today r) s fun out t => (∀ record, out = .ok record →
      syncRecordOf s r.council r.clientId = none → record.status = .accepted →
        ∃ bill payerId payer, InWard fw s r bill payerId payer) ∧ PaidInWard fw r s t := by
  refine .bind <| post_select ?_
  show Prog.Post (S := relational.schema) _ s _
  split
  case h_1 existing hexisting => exact .ret ⟨fun _ _ hnew => by simp [hexisting] at hnew, .refl⟩
  case h_2 =>
    refine .bind <| .attempt <| (post_replay htype).mono fun out u ⟨⟨haccepted, hpaid⟩, hrecords⟩ => ?_
    show Prog.Post (S := relational.schema) _ u _
    extract_lets again enter
    -- What is recorded is the outcome of the replay.
    have hrecord (outcome : Outcome) (h : outcome.1 = .accepted → ∃ bill payerId payer, InWard fw s r bill payerId payer) :
        Prog.Post (enter outcome) u fun out t => (∀ record, out = .ok record →
          syncRecordOf s r.council r.clientId = none → record.status = .accepted →
            ∃ bill payerId payer, InWard fw s r bill payerId payer) ∧ PaidInWard fw r s t := by
      have hcreate {record : MobileSyncRecord} : (createSyncRecord record).Maintains (PaidInWard fw r s) :=
        .of_keeps <| createSyncRecord_keeps <| PaidInWard.of_only (only_insert <| .head []) (by simp)
      refine .bind <| .attempt <| .atomic <| (hcreate u hpaid).mono fun out v hpaid' => ?_
      cases out with
      | ok k => exact .ret ⟨fun record he _ hs => h <| by cases he; exact hs, hpaid'⟩
      | error e =>
        refine post_guard (fun _ => ⟨nofun, hpaid⟩) fun _ => .bind <| post_select ?_
        simp only [syncRecordOf, hrecords]
        split
        case h_1 existing hexisting => exact .ret ⟨fun _ _ hnew => by simp [hexisting] at hnew, hpaid⟩
        case h_2 => exact post_refuse ⟨nofun, hpaid⟩
    cases out with
    | ok outcome => exact .bind <| .ret <| hrecord _ fun he => haccepted _ _ <| congrArg _ <| Prod.ext he rfl
    | error e =>
      refine post_guard (fun _ => ⟨nofun, hpaid⟩) fun _ => ?_
      exact hrecord (.rejected, "", .unprocessable e.error) nofun

-- A record of a payment that is accepted, not returned as what its client_id has come to before, is for a
-- bill of the council whose payer is in the agent's ward, and so is each payment that the call leaves. The
-- agent's own payers among these are on the agent's worklist.
theorem replaySyncRecord_inWard {out : Except relational.Exn MobileSyncRecord} (htype : r.recordType = .payment)
    (hagent : agent.assignedWard = r.agent.assignedWard)
    (hr : respond (replaySyncRecord fw today r).atomic s n = (out, t, m)) :
    (∀ record, out = .ok record → syncRecordOf s r.council r.clientId = none → record.status = .accepted →
      ∃ bill payerId payer, InWard fw s r bill payerId payer) ∧
    PaidInWard fw r s t ∧
    ∀ {bill payerId payer}, InWard fw s r bill payerId payer → ((payerId, payer) ∈ getWorklist s r.council agent ↔
      payer.council = r.council ∧ payer.handler = agent.user) := by
  have hpost : Prog.Post (replaySyncRecord fw today r).atomic s fun out t => (∀ record, out = .ok record →
      syncRecordOf s r.council r.clientId = none → record.status = .accepted →
        ∃ bill payerId payer, InWard fw s r bill payerId payer) ∧ PaidInWard fw r s t := by
    refine .atomic <| (post_replaySyncRecord htype).mono fun out t ht => ?_
    cases out with
    | ok record => exact ht
    | error e => exact ⟨nofun, .refl⟩
  rw [← and_assoc]
  refine ⟨?_, fun {bill payerId payer} h => ?_⟩
  case refine_1 =>
    rcases respond_post hpost hr with ⟨rfl, e, rfl⟩ | ⟨ht, _⟩
    · exact ⟨nofun, .refl⟩
    · exact ht
  case refine_2 =>
    rw [mem_getWorklist h.found, hagent, and_iff_right h.ward]

namespace Sample

-- The manager's payer owes a bill.
def fielded : Db × (Name → ℕ) :=
  serve (supervised none, fun _ => 10) <| issue [1] false

def cashPayload : Json :=
  .obj [("bill_id", .int 10), ("amount", .int 5), ("channel_code", .str "CASH")]

def collecting : Framework where
  postPayment _ := some ⟨10, 5, .cash, "", none, none⟩
  createPayer _ := none
  coordinate v  := if v.isNull then some none else none

-- The agent has taken cash for the bill while offline.
def cashCollected : SyncRequest :=
  ⟨1, ⟨1, some 1⟩, 2, "c1", .payment, cashPayload⟩

def synced : Except relational.Exn MobileSyncRecord × Db × (Name → ℕ) :=
  respond (replaySyncRecord collecting day cashCollected).atomic fielded.1 fielded.2

set_option maxRecDepth 20000 in
theorem synced_accepted : ∃ record, synced.1 = .ok record ∧ record.status = .accepted := by
  have h : synced.1.toOption.any (·.status = .accepted) := by decide +kernel
  cases hs : synced.1 with
  | error e => simp [hs, Except.toOption] at h
  | ok record => exact ⟨record, rfl, by simpa [hs, Except.toOption] using h⟩

end Sample

set_option maxRecDepth 20000 in
theorem sample_inWard : ∃ bill payerId payer,
    InWard Sample.collecting Sample.fielded.1 Sample.cashCollected bill payerId payer := by
  obtain ⟨record, hrecord, haccepted⟩ := Sample.synced_accepted
  have h := replaySyncRecord_inWard (r := Sample.cashCollected) rfl
    (rfl : (⟨1, 2, some 1⟩ : FieldAgent).assignedWard = some 1) (rfl : respond (replaySyncRecord Sample.collecting
      Sample.day Sample.cashCollected).atomic Sample.fielded.1 Sample.fielded.2 = Sample.synced)
  exact h.1 record hrecord (by decide +kernel) haccepted

-- The payment of a payer whom the manager has registered and handed to nobody is accepted of an agent who has
-- the payer neither on the worklist nor in view.
theorem synced_not_listed : (∃ record, Sample.synced.1 = .ok record ∧ record.status = .accepted) ∧
    ((Sample.fielded.1.table .bill).get 10).any (fun bill => bill.payer = 1) ∧
    getWorklist Sample.fielded.1 1 ⟨1, 2, some 1⟩ = [] ∧
    ((Sample.fielded.1.table .payer).get 1).any fun payer => !portfolioFilter Sample.fielded.1 2 payer :=
  ⟨Sample.synced_accepted, by decide +kernel, by decide +kernel, by decide +kernel⟩

end ACRev360
