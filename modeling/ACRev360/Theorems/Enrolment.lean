import ACRev360.Theorems.Idempotency
import ACRev360.Theorems.Retirement

namespace ACRev360

open Relational Relational.Database

-- The calls of create_payer without force: the registration of a payer online, and the replay of one
-- that has been registered offline.
inductive Enrolment where
  | online (council actor : ℕ) (revenueItemIds : List ℤ) (enumeratedBy : Option ℕ) (fields : PayerFields)
  | offline (council : ℕ) (agent : Agent) (actor : ℕ) (clientId : String) (payload : Json)

namespace Enrolment

inductive Answer where
  | created (payer drafts : ℕ)
  | replayed (record : MobileSyncRecord)

def serve (fw : Framework) (today : Date) : Enrolment → Service Answer
  | online council actor revenueItemIds enumeratedBy fields => do
    let (payer, drafts) ← registerPayer council actor revenueItemIds false enumeratedBy fields
    return .created payer drafts
  | offline council agent actor clientId payload => do
    return .replayed <| ←
      replaySyncRecord fw today { council, agent, actor, clientId, recordType := .payer, payload }

-- The call asks for a payer of the council with the phone.
def Seeks (fw : Framework) (council : ℕ) (phone : String) : Enrolment → Prop
  | online c _ _ _ fields       => c = council ∧ fields.phone = phone
  | offline c agent _ _ payload => c = council ∧ ∃ data, Registers fw agent payload data ∧ data.phone = phone

end Enrolment

namespace Db

-- The payer is one of the council with the phone.
def Registered (s : Db) (council : ℕ) (phone : String) (k : ℕ) : Prop :=
  ∃ p, (s.table .payer).get k = some p ∧ p.council = council ∧ p.phone = phone

def Single (s : Db) (council : ℕ) (phone : String) : Prop :=
  ∀ ⦃j k⦄, s.Registered council phone j → s.Registered council phone k → j = k

-- A record is stored under the client_id.
def Stored (s : Db) (council : ℕ) (clientId : String) (r : MobileSyncRecord) : Prop :=
  r.council = council ∧ r.clientId = clientId ∧ ∃ k, (s.table .syncRecord).get k = some r

def SamePhone (council : ℕ) (phone : String) (s t : Db) : Prop :=
  ∀ k, t.Registered council phone k ↔ s.Registered council phone k

instance {council : ℕ} {phone : String} : Std.Refl (SamePhone council phone) where
  refl _ _ := .rfl

instance {council : ℕ} {phone : String} : IsTrans Db (SamePhone council phone) where
  trans _ _ _ h₁ h₂ k := (h₂ k).trans (h₁ k)

-- The records of replays stay.
def SyncKept (s t : Db) : Prop :=
  ∀ k r, (s.table .syncRecord).get k = some r → (t.table .syncRecord).get k = some r

instance : Std.Refl SyncKept where
  refl _ _ _ := id

instance : IsTrans Db SyncKept where
  trans _ _ _ h₁ h₂ k r := h₂ k r ∘ h₁ k r

end Db

variable {s t c d : Db} {fw : Framework} {today : Date} {council k : ℕ} {phone clientId : String}

section Phones

theorem Db.SamePhone.single (h : Db.SamePhone council phone s t) (hs : s.Single council phone) :
    t.Single council phone :=
  fun _ _ hj hk => hs ((h _).mp hj) ((h _).mp hk)

theorem samePhone_of_only {ts : List Name} (h : Database.Only ts s t) (hp : Name.payer ∉ ts) :
    Db.SamePhone council phone s t := by
  intro k
  rw [Db.Registered, Db.Registered, h .payer hp]

theorem samePhone_of_same (h : Database.Same (R := relational) (.phone council phone) s t) :
    Db.SamePhone council phone s t := by
  have observed : ∀ (u : Db) k, u.Registered council phone k ↔
      ((u.table .payer).get k).bind (Facet.obs (.phone council phone) k) = some () := by
    intro u k
    rw [Db.Registered]
    cases (u.table .payer).get k <;> simp
  intro k
  rw [observed t k, observed s k, h k]

theorem samePhone_insert {p : Payer} (h : ¬(p.council = council ∧ p.phone = phone)) :
    Db.SamePhone council phone s (s.insert .payer k p) := by
  intro j
  refine ⟨fun ⟨q, hq, hc, hphone⟩ => ?_, fun ⟨q, hq, hc⟩ => ⟨q, get_insert_of_some hq, hc⟩⟩
  rcases get_insert_cases hq with ⟨_, rfl⟩ | hq
  · exact absurd ⟨hc, hphone⟩ h
  · exact ⟨q, hq, hc, hphone⟩

theorem samePhone_insert_ne {t : Name} {r : Rec t} (h : t ≠ .payer) :
    Db.SamePhone council phone s (s.insert t k r) :=
  samePhone_of_only (only_insert <| List.mem_singleton_self t) (by simpa using h.symm)

theorem samePhone_modify {payerRef : String} : Db.SamePhone council phone s
    (s.modify .payer k fun p => { p with payerRef }) := by
  intro j
  simp only [Db.Registered, modify_table, Table.get_modify]
  split
  case isFalse => rfl
  case isTrue h =>
    subst h
    cases (s.table .payer).get j <;> simp

theorem syncKept_of_only {ts : List Name} (h : Database.Only ts s t) (hs : Name.syncRecord ∉ ts) :
    s.SyncKept t :=
  fun _ _ hr => by rwa [h .syncRecord hs]

theorem syncKept_insert {t : Name} {r : Rec t} : s.SyncKept (s.insert t k r) :=
  fun _ _ hr => get_insert_of_some hr

theorem payerByPhone_some (h : payerByPhone s council phone = some k) : s.Registered council phone k := by
  have ⟨⟨_, p⟩, hp, hk⟩ := Option.map_eq_some_iff.mp h
  have ⟨hget, hmatch⟩ := Table.first_some hp
  simp only [Bool.and_eq_true, decide_eq_true_eq] at hmatch
  exact ⟨p, hk ▸ hget, hmatch⟩

theorem payerByPhone_none (h : payerByPhone s council phone = none) : ¬s.Registered council phone k := by
  intro ⟨p, hp, hmatch⟩
  exact Table.first_none (Option.map_eq_none_iff.mp h) hp <| by simpa using hmatch

theorem syncRecordOf_some {r : MobileSyncRecord} (h : syncRecordOf s council clientId = some r) :
    s.Stored council clientId r := by
  have ⟨⟨k, _⟩, hr, he⟩ := Option.map_eq_some_iff.mp h
  have ⟨hget, hmatch⟩ := Table.first_some hr
  simp only [Bool.and_eq_true, decide_eq_true_eq] at hmatch
  exact he ▸ ⟨hmatch.1, hmatch.2, k, hget⟩

theorem Db.Stored.kept {r : MobileSyncRecord} (h : s.Stored council clientId r) (hk : s.SyncKept t) :
    t.Stored council clientId r := by
  have ⟨hc, hi, k, hr⟩ := h
  exact ⟨hc, hi, k, hk k r hr⟩

end Phones

-- The others leave the payers with the phone as they are once a call has looked for one.
def watch (council : ℕ) (phone : String) : Rely relational.schema where
  guar _      := Db.SyncKept
  calm f      := f = .phone council phone
  takes _ _ _ := True
  lands _ _   := True
  refl _      := Std.Refl.refl
  trans       := IsTrans.trans _ _ _
  anti _ h    := h

section Calls

variable {x : Txn relational.schema} {seen : List Facet}

theorem watch_phone (h : Interf (watch council phone) x seen c d) (hf : .phone council phone ∈ seen) :
    Db.SamePhone council phone c d :=
  samePhone_of_same <| h.same _ hf rfl

-- The call has looked for the phone and found no payer, and has made at most one.
structure Sole (council : ℕ) (phone : String) (c : Db) (x : Txn relational.schema) (seen : List Facet) : Prop where
  seen   : .phone council phone ∈ seen
  free   : ∀ k, ¬c.Registered council phone k
  single : Db.Single (x.pend c) council phone

theorem Sole.interf (h : Sole council phone c x seen) (hd : Interf (watch council phone) x seen c d) :
    Sole council phone d x seen where
  seen   := h.seen
  free k := (watch_phone hd h.seen k).not.mpr <| h.free k
  single := (samePhone_of_same <| hd.view_same h.seen rfl).single h.single

theorem Sole.keeps {α : Type} {p : Service α} (h : Sole council phone c x seen)
    (hp : p.Keeps (Db.SamePhone council phone)) :
    p.Wp (watch council phone) (fun _ d y seen' => Sole council phone d y seen') c x seen := by
  refine (Prog.Wp.frame (I := fun d => Sole council phone d x seen) hp (fun hd h => h.interf hd) h).mono ?_
  exact fun _ d y _ ⟨hd, hy, hs⟩ => ⟨hs hd.seen, hd.free, (hy d).single hd.single⟩

theorem Sole.start (hf : .phone council phone ∈ seen) (h : ∀ k, ¬c.Registered council phone k)
    (hx : x.pend = Txn.start.pend) : Sole council phone c x seen :=
  ⟨hf, h, fun _ _ hj => by rw [hx] at hj; exact absurd hj (h _)⟩

theorem Sole.create {p : Payer} (h : Sole council phone c .start seen) :
    Sole council phone c (Txn.start.add (insertAct .payer k p)) seen where
  seen   := h.seen
  free   := h.free
  single := by
    have made : ∀ {j}, Db.Registered (Database.insert c .payer k p) council phone j → j = k := by
      intro j ⟨q, hq, hc⟩
      rcases get_insert_cases hq with ⟨hj, _⟩ | hq
      · exact hj
      · exact absurd ⟨q, hq, hc⟩ (h.free j)
    exact fun _ _ hi hj => (made hi).trans (made hj).symm

-- What a call of create_payer for the phone leaves.
theorem wp_createPayer {actor : ℕ} {items : List (Loaded RevenueItem)} {enumeratedBy : Option ℕ}
    {fields : PayerFields} {extra : Bool} (hphone : fields.phone ≠ "") :
    (createPayer council actor items false enumeratedBy fields extra).Wp (watch council fields.phone)
      (fun r d y seen' => .phone council fields.phone ∈ seen' ∧
        ((∃ k, r = .error ⟨.duplicatePayer k, false⟩ ∧ Db.Registered d council fields.phone k) ∨
          Sole council fields.phone d y seen')) c .start seen := by
  unfold createPayer
  extract_lets fields' insert unlessExtra
  have create : ∀ u {d seen}, Sole council fields.phone d .start seen → (unlessExtra u).Wp
      (watch council fields.phone) (fun _ d y seen' => Sole council fields.phone d y seen') d .start seen := by
    intro u d seen h
    refine wp_guard (fun _ => h) fun _ => .bind <| wp_create (fun k hk _ e he => ?_) fun _ e y he _ hy => ?_
    · refine (h.create.interf he).keeps ?_
      refine .bind (keeps_save fun _ => samePhone_modify) fun _ => .bind (forM_keeps fun item _ => ?_) fun _ => .ret
      refine .bind (createDraftAssessment_keeps ?_) fun _ => .ret
      exact fun _ => samePhone_insert_ne nofun
    · exact .start h.seen (h.interf he).free hy
  rw [if_pos (by simpa using hphone)]
  refine .bind <| wp_select fun d hd => ?_
  have hf : Facet.phone council fields.phone ∈ [.phone council fields.phone] ++ seen := by simp
  simp only [Txn.start_pend]
  cases hk : payerByPhone c council fields.phone with
  | some k =>
    exact .bind <| .raise ⟨hf, .inl ⟨k, rfl, (watch_phone hd hf k).mpr <| payerByPhone_some hk⟩⟩
  | none =>
    refine (create () <| .start hf (fun k hd' => ?_) rfl).mono fun _ _ _ _ h => ⟨h.seen, .inr h⟩
    exact payerByPhone_none hk <| (watch_phone hd hf k).mp hd'

-- What the replay of a registration for the phone leaves.
theorem wp_replayPayer {agent : Agent} {actor : ℕ} {payload : Json} {data : PayerForm}
    (h : Registers fw agent payload data) (hphone : data.phone ≠ "") :
    (replayPayer fw council agent actor payload).Wp (watch council data.phone)
      (fun r d y seen' => .phone council data.phone ∈ seen' ∧
        ((∃ k, r = .ok (.conflict, "", .error (.duplicatePayer k)) ∧ Db.Registered d council data.phone k ∧
            y = .start) ∨ Sole council data.phone d y seen')) c .start seen := by
  obtain ⟨members, rfl, hward, hdata⟩ := h
  unfold replayPayer
  simp only [hward, hdata, Bool.not_true, Bool.false_eq_true, if_false]
  refine .bind <| wp_select fun d _ => .bind <| .attempt <| .atomic <| (wp_createPayer hphone).mono ?_
  rintro (e | ⟨payer, drafts⟩) d y seen' ⟨hf, h⟩
  case error =>
    intro d' hd'
    rcases h with ⟨k, he, hk⟩ | hsole
    · cases he
      exact .ret ⟨hf, .inl ⟨k, rfl, (watch_phone hd' hf k).mpr hk, rfl⟩⟩
    · have hsole' : Sole council data.phone d' .start seen' :=
        .start hf (fun k hk => hsole.free k <| (watch_phone hd' hf k).mp hk) rfl
      simp only
      split
      · exact .ret ⟨hf, .inr hsole'⟩
      · split
        · exact .ret ⟨hf, .inr hsole'⟩
        · exact .raise ⟨hf, .inr hsole'⟩
  case ok =>
    have hsole : Sole council data.phone d y seen' := by simpa using h
    simp only
    split
    case h_2 => exact .raise ⟨hf, .inr hsole⟩
    case h_1 =>
      refine (hsole.keeps ?_).mono fun _ _ _ _ h => ⟨h.seen, .inr h⟩
      refine unless_keeps (createAsset_keeps fun ho => ?_) .ret
      exact samePhone_of_only ho (by simp)

-- The answer names the payer, or is what has been stored under the client_id.
def Conflicts (s : Db) (council : ℕ) (agent : Agent) (clientId : String) (k : ℕ)
    (record : MobileSyncRecord) : Prop :=
  s.Stored council clientId record ∨ record = {
    council, clientId, recordType := .payer, agent := agent.id, status := .conflict, resultRef := ""
    detail := .error (.duplicatePayer k) }

-- How the replay of a registration for the phone ends.
structure Answered (council : ℕ) (phone : String) (agent : Agent) (clientId : String)
    (r : Except relational.Exn MobileSyncRecord) (c d : Db) : Prop where
  single : c.Single council phone → d.Single council phone
  left   : ∀ {k}, c.Registered council phone k →
    d.table .payer = c.table .payer ∧ d.table .assessment = c.table .assessment
  names  : c.Single council phone → ∀ {k}, c.Registered council phone k → ∀ {record}, r = .ok record →
    Conflicts c council agent clientId k record

theorem Sole.answered {agent : Agent} {r : Except relational.Exn MobileSyncRecord}
    (h : Sole council phone c x seen) : Answered council phone agent clientId r c (x.pend c) where
  single _     := h.single
  left hk      := absurd hk (h.free _)
  names _ _ hk := absurd hk (h.free _)

theorem wp_replaySyncRecord {agent : Agent} {actor : ℕ} {payload : Json} {data : PayerForm}
    (h : Registers fw agent payload data) (hphone : data.phone ≠ "") :
    (replaySyncRecord fw today { council, agent, actor, clientId, recordType := .payer, payload }).Wp
      (watch council data.phone)
      (fun r d y _ => Answered council data.phone agent clientId r d (y.pend d)) c .start seen := by
  refine .bind <| wp_select fun d hd => ?_
  generalize hr : syncRecordOf _ council clientId = existing
  cases existing with
  | some existing =>
    refine .ret ⟨id, fun _ => ⟨rfl, rfl⟩, fun _ k _ record he => .inl ?_⟩
    cases he
    exact (syncRecordOf_some hr).kept hd.guar
  | none =>
    refine .bind <| .attempt <| (wp_replayPayer h hphone).mono ?_
    rintro r d y seen' ⟨hf, h⟩
    change Prog.Wp _ _ _ _ _ _
    extract_lets again enter
    have enter_keeps {P : Db → Db → Prop} [Std.Refl P]
        (hP : ∀ {k a s}, P s (Database.insert s .syncRecord k a)) outcome : (enter outcome).Keeps P := by
      refine .bind (.attempt <| .atomic <| createSyncRecord_keeps hP) fun r => ?_
      split
      · exact .ret
      · refine when_keeps .raise <| .bind keeps_select fun existing => ?_
        split
        · exact .ret
        · exact keeps_refuse
    have enter_answers : ∀ outcome, (enter outcome).Wp (watch council data.phone) (fun r d y _ =>
        ∀ record, r = .ok record → Db.Stored d council clientId record ∨ record = {
          council, clientId, recordType := .payer, agent := agent.id, status := outcome.1
          resultRef := outcome.2.1, detail := outcome.2.2 }) d .start seen' := by
      intro outcome
      refine .bind <| .attempt <| .atomic <| .of_forall fun r d y seen' => ?_
      cases r with
      | ok k => exact .ret fun _ he => .inr (Except.ok.inj he).symm
      | error e =>
        intro d' _
        refine wp_guard (fun _ => nofun) fun _ => .bind <| wp_select fun d hd => ?_
        generalize hr : syncRecordOf _ _ _ = existing
        cases existing with
        | some existing =>
          refine .ret fun _ he => .inl ?_
          exact (Except.ok.inj he) ▸ (syncRecordOf_some hr).kept hd.guar
        | none => exact .raise nofun
    clear_value enter
    rcases h with ⟨k, rfl, hk, rfl⟩ | hsole
    · refine .bind <| .ret ?_
      refine ((Prog.Wp.frame (I := fun d => Db.Registered d council data.phone k) 
        (enter_keeps (only_insert <| List.mem_singleton_self Name.syncRecord) _) (fun hd hk => (watch_phone hd hf k).mpr hk) hk).and (enter_answers _)).mono ?_
      rintro r d y _ ⟨⟨hk, hy, _⟩, hr⟩
      have hs : Db.SamePhone council data.phone d (y.pend d) := samePhone_of_only (hy d) (by simp)
      refine ⟨hs.single, fun _ => ⟨hy d .payer (by simp), hy d .assessment (by simp)⟩, ?_⟩
      intro hd j hj record he
      exact hd hj hk ▸ hr record he
    · have enter_sole : ∀ {outcome}, (enter outcome).Wp (watch council data.phone)
          (fun r d y _ => Answered council data.phone agent clientId r d (y.pend d)) d y seen' :=
        (hsole.keeps <| enter_keeps (samePhone_insert_ne nofun) _).mono fun _ _ _ _ h => h.answered
      cases r with
      | ok outcome => exact .bind <| .ret enter_sole
      | error e => exact wp_guard (fun _ => hsole.answered) fun _ => .bind <| .ret enter_sole

end Calls

namespace Enrolment

-- How the call is answered when the payer `k` has the phone already.
def Refused (k : ℕ) (c : Db) (r : Except relational.Exn Answer) : Enrolment → Prop
  | online .. => r = .error ⟨.duplicatePayer k, false⟩
  | offline council agent _ clientId _ => ∀ a, r = .ok a →
    ∃ record, a = .replayed record ∧ Conflicts c council agent clientId k record

-- What a call has done when it ends.
structure Ended (fw : Framework) (council : ℕ) (phone : String) (call : Enrolment)
    (r : Except relational.Exn Answer) (c d : Db) : Prop where
  kept    : c.SyncKept d
  single  : c.Single council phone → d.Single council phone
  refused : c.Single council phone → call.Seeks fw council phone → ∀ {k}, c.Registered council phone k →
    call.Refused k c r ∧ d.table .payer = c.table .payer ∧ d.table .assessment = c.table .assessment

variable {call : Enrolment}

theorem Ended.of_free {r : Except relational.Exn Answer} (hk : c.SyncKept d)
    (hs : d.Single council phone) (h : ∀ k, ¬c.Registered council phone k) :
    Ended fw council phone call r c d :=
  ⟨hk, fun _ => hs, fun _ _ _ hk => absurd hk (h _)⟩

theorem Ended.free {r : Except relational.Exn Answer} (h : ∀ k, ¬c.Registered council phone k) :
    Ended fw council phone call r c c :=
  .of_free (Std.Refl.refl _) (fun _ _ hj => absurd hj (h _)) h

theorem Ended.unsought {r : Except relational.Exn Answer} (h : ¬call.Seeks fw council phone) :
    Ended fw council phone call r c c :=
  ⟨Std.Refl.refl _, id, fun _ h' => (h h').elim⟩

theorem serve_samePhone (h : ¬call.Seeks fw council phone) :
    (call.serve fw today).Keeps (Db.SamePhone council phone) := by
  cases call with
  | online c actor ids enumeratedBy fields =>
    refine .bind (.bind keeps_select fun items => ?_) fun _ => .ret
    refine createPayer_keeps (fun _ hc hp => samePhone_insert fun he => h ?_) samePhone_modify ?_
    · exact ⟨hc.symm.trans he.1, hp.symm.trans he.2⟩
    · exact fun _ _ _ _ _ _ => samePhone_insert_ne nofun
  | offline c agent actor clientId payload =>
    refine .bind (replaySyncRecord_keeps ?_ (samePhone_insert_ne nofun)) fun _ => .ret
    refine replayPayer_keeps (fun hdata _ hc hp => samePhone_insert fun he => h ?_) samePhone_modify ?_
    · exact ⟨hc.symm.trans he.1, _, hdata, hp.symm.trans he.2⟩
    · exact (samePhone_of_only · (by simp))

theorem serve_syncKept : (call.serve fw today).Keeps Db.SyncKept := by
  have hm {k payerRef} {s : Db} : s.SyncKept (s.modify .payer k fun p => { p with payerRef }) :=
    syncKept_of_only (only_modify <| List.mem_singleton_self _) (by simp)
  cases call with
  | online c actor ids enumeratedBy fields =>
    refine .bind (.bind keeps_select fun items => ?_) fun _ => .ret
    exact createPayer_keeps (fun _ _ _ => syncKept_insert) hm fun _ _ _ _ _ _ => syncKept_insert
  | offline c agent actor clientId payload =>
    refine .bind (replaySyncRecord_keeps ?_ syncKept_insert) fun _ => .ret
    exact replayPayer_keeps (fun _ _ _ _ => syncKept_insert) hm (syncKept_of_only · (by simp))

theorem wp_online {actor : ℕ} {ids : List ℤ} {enumeratedBy : Option ℕ} {fields : PayerFields}
    (hphone : fields.phone ≠ "") :
    ((online council actor ids enumeratedBy fields).serve fw today).Wp (watch council fields.phone)
      (fun r d y seen' => (∃ k, r = .error ⟨.duplicatePayer k, false⟩ ∧ Db.Registered d council fields.phone k) ∨
        Sole council fields.phone d y seen') c .start [] := by
  refine .bind <| .bind <| wp_select fun d _ => (wp_createPayer hphone).mono ?_
  rintro (e | ⟨payer, drafts⟩) d y seen' ⟨_, ⟨k, hr, hk⟩ | h⟩
  · exact .inl ⟨k, congrArg _ (Except.error.inj hr), hk⟩
  · exact .inr h
  · contradiction
  · exact .ret <| .inr h

theorem wp_offline {agent : Agent} {actor : ℕ} {payload : Json} {data : PayerForm}
    (h : Registers fw agent payload data) (hphone : data.phone ≠ "") :
    ((offline council agent actor clientId payload).serve fw today).Wp (watch council data.phone)
      (fun r d y _ => (Db.Single d council data.phone → Db.Single (y.pend d) council data.phone) ∧
        (Db.Single d council data.phone → ∀ {k}, Db.Registered d council data.phone k →
          (offline council agent actor clientId payload).Refused k d r ∧
            (y.pend d).table .payer = d.table .payer ∧ (y.pend d).table .assessment = d.table .assessment))
      c .start [] := by
  refine .bind <| (wp_replaySyncRecord h hphone).mono fun r d y _ hr => ?_
  cases r with
  | ok record =>
    refine .ret ⟨hr.single, fun hd _ hk => ⟨fun _ he => ⟨record, ?_, hr.names hd hk rfl⟩, hr.left hk⟩⟩
    exact (Except.ok.inj he).symm
  | error e => exact ⟨hr.single, fun _ _ hk => ⟨nofun, hr.left hk⟩⟩

theorem wp_serve {ι : Type} {i : ι} (hphone : phone ≠ "") : (call.serve fw today).Wp (watch council phone)
    (Sys.Ended (watch council phone) (fun e : Event relational.schema ι Answer =>
      Ended fw council phone call e.result e.before e.after) i) c .start [] := by
  have kept : (call.serve fw today).Wp (watch council phone) (fun _ _ y _ => Txn.Extends Db.SyncKept .start y) c .start [] :=
    Prog.Wp.keeps serve_syncKept
  by_cases hseeks : call.Seeks fw council phone
  case neg =>
    refine (kept.and <| .keeps <| serve_samePhone hseeks).mono fun r d y _ ⟨hk, hs⟩ => ?_
    cases r with
    | ok a => exact ⟨fun _ _ => ⟨hk d, (hs d).single, fun _ h => (hseeks h).elim⟩, .unsought hseeks⟩
    | error e => exact .unsought hseeks
  case pos =>
    cases call with
    | online _ actor ids enumeratedBy fields =>
      obtain ⟨rfl, rfl⟩ := hseeks
      refine (kept.and <| wp_online hphone).mono ?_
      rintro r d y _ ⟨hk, ⟨k, rfl, hreg⟩ | hsole⟩
      · exact ⟨Std.Refl.refl _, id, fun hd _ _ hj => ⟨by rw [hd hj hreg]; rfl, rfl, rfl⟩⟩
      · cases r with
        | ok a => exact ⟨fun _ _ => .of_free (hk d) hsole.single hsole.free, .free hsole.free⟩
        | error e => exact .free hsole.free
    | offline _ agent actor clientId payload =>
      obtain ⟨rfl, data, hdata, rfl⟩ := hseeks
      refine (kept.and <| wp_offline hdata hphone).mono fun r d y _ ⟨hk, hsingle, hrefused⟩ => ?_
      cases r with
      | ok a =>
        refine ⟨fun _ _ => ⟨hk d, hsingle, fun hd _ _ => hrefused hd⟩, ?_⟩
        exact ⟨Std.Refl.refl _, id, fun _ _ _ _ => ⟨nofun, rfl, rfl⟩⟩
      | error e => exact ⟨Std.Refl.refl _, id, fun _ _ _ _ => ⟨nofun, rfl, rfl⟩⟩

variable {ι : Type}

-- There is at most one payer of the council with the phone. The calls that end when there is one are
-- refused, and leave no payer or assessment.
structure OnePayer (fw : Framework) (council : ℕ) (phone : String) (calls : ι → Enrolment)
    (s : Sys relational.schema ι Answer) : Prop where
  single  : Db.Single s.committed council phone
  refused : ∀ e ∈ s.log, (calls e.who).Seeks fw council phone →
    ∀ {k}, Db.Registered e.before council phone k → (calls e.who).Refused k e.before e.result ∧
      e.after.table .payer = e.before.table .payer ∧ e.after.table .assessment = e.before.table .assessment

-- No call commits a payer with the phone while another one that has looked for it is still running.
theorem one_payer_per_phone [DecidableEq ι] [Fintype ι] {calls : ι → Enrolment} {days : ι → Date}
    {n : Name → ℕ} {s : Sys relational.schema ι Answer} (hphone : phone ≠ "")
    (hc : ∀ k, ¬c.Registered council phone k)
    (h : Sys.Run (Sys.Calm (S := relational.schema) (.phone council phone)) (Sys.start c n fun i => (calls i).serve fw (days i)) s) :
    OnePayer fw council phone calls s := by
  have ended : ∀ e ∈ s.log, Ended fw council phone (calls e.who) e.result e.before e.after :=
    h.sound (L := fun _ => watch council phone) (fun _ _ he _ _ => he.kept)
      (fun _ _ _ hcalm => ⟨fun _ _ _ _ _ => trivial, fun _ _ _ _ => trivial, fun _ _ hf => hf ▸ hcalm⟩)
      fun i d _ => (wp_serve hphone).mono fun r _ _ _ h => by cases r <;> exact h
  have hsingle : Db.Single c council phone := fun _ _ hj => absurd hj (hc _)
  have keep : ∀ e ∈ s.log, Db.Single e.before council phone → Db.Single e.after council phone :=
    fun e he => (ended e he).single
  refine ⟨h.linked.preserves (P := (Db.Single · council phone)) hsingle keep, fun e he hseeks _ hk => ?_⟩
  have hbefore := h.linked.before (P := (Db.Single · council phone)) hsingle keep e he
  exact (ended e he).refused hbefore hseeks hk

end Enrolment

namespace Sample

-- Two users register a payer with the same phone.
def enrolments : Bool → Enrolment :=
  fun _ => .online 1 1 [1] none (fields "0801")

def enrol (i : Bool) : Service Enrolment.Answer :=
  (enrolments i).serve framework day

-- The payer of the council has the first primary key.
def enrolling : Sys relational.schema Bool Enrolment.Answer :=
  Sys.start Sample.council (Function.update keys .payer 2) enrol

def enrolledOnce : Except relational.Exn Enrolment.Answer × Db × (Name → ℕ) :=
  (enrol false).call Sample.council (Function.update keys .payer 2)

def enrolledTwice : Except relational.Exn Enrolment.Answer × Db × (Name → ℕ) :=
  (enrol true).call enrolledOnce.2.1 enrolledOnce.2.2

end Sample

theorem sample_one_payer : ∃ s : Sys relational.schema Bool Enrolment.Answer,
    s.committed = Sample.enrolledTwice.2.1 ∧ Db.Registered s.committed 1 "0801" 2 ∧
      Enrolment.OnePayer Sample.framework 1 "0801" Sample.enrolments s := by
  let ok := Sys.Calm (S := relational.schema) (ι := Bool) (α := Enrolment.Answer) (.phone 1 "0801")
  have initial : Sys.Run ok Sample.enrolling Sample.enrolling := .start
  obtain ⟨held, once⟩ := initial.serve (i := false) rfl (fun j _ => .inl ⟨_, rfl⟩)
    (fun t t' ht _ => ht.calm _ _) rfl
  obtain ⟨held', twice⟩ := once.serve (i := true) rfl (fun
    | false, _ => .inr ⟨_, rfl⟩
    | true, h  => absurd rfl h) (fun t t' ht _ => ht.calm _ _) rfl
  have hfree : ∀ k, ¬Db.Registered Sample.council 1 "0801" k := by
    intro k ⟨p, hp, _, hphone⟩
    have hall : (Sample.council.table .payer).rows.all (·.2.phone ≠ "0801") := by decide +kernel
    have := List.all_eq_true.mp hall _ <| Table.mem_rows_iff.mpr hp
    simp [hphone] at this
  refine ⟨_, rfl, ?_, Enrolment.one_payer_per_phone (by decide) hfree twice⟩
  have registered : ((Sample.enrolledTwice.2.1.table .payer).get 2).any (fun p => p.council = 1 ∧ p.phone = "0801") := by
    decide +kernel
  obtain ⟨p, hp, hp'⟩ := (Option.any_eq_true _ _).mp registered
  exact ⟨p, hp, by simpa using hp'⟩

set_option maxRecDepth 20000 in
theorem two_payers : ∃ s : Sys relational.schema Bool Enrolment.Answer,
    Sys.Run (fun _ _ _ => True) Sample.enrolling s ∧
      ¬Enrolment.OnePayer Sample.framework 1 "0801" Sample.enrolments s := by
  refine ⟨_, .exec .start ((List.replicate 20 [true, false]).flatten), fun h => ?_⟩
  generalize hs : Sample.enrolling.exec _ = s at h
  have registered : ((s.committed.table .payer).get 2).any (fun p => p.council = 1 ∧ p.phone = "0801") ∧
      ((s.committed.table .payer).get 3).any (fun p => p.council = 1 ∧ p.phone = "0801") := by
    subst hs
    decide +kernel
  obtain ⟨p, hp, hp'⟩ := (Option.any_eq_true _ _).mp registered.1
  obtain ⟨q, hq, hq'⟩ := (Option.any_eq_true _ _).mp registered.2
  exact absurd (h.single ⟨p, hp, by simpa using hp'⟩ ⟨q, hq, by simpa using hq'⟩) (by decide)

end ACRev360
