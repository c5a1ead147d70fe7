import ACRev360.Services.Scoping
import ACRev360.Theorems.Idempotency

namespace ACRev360

open Relational

variable {fw : Framework} {s t : Db} {k user : ℕ} {p : Payer} {ward firm : ℕ}

-- The user whose payer this is: the agent who was handed it last, or who registered it.
def Payer.handler (p : Payer) : ℕ :=
  p.assignedAgent.getD p.enumeratedBy

theorem agent_sees (h : s.accessLevel user = some .agent) :
    portfolioFilter s user p ↔ p.handler = user := by
  simp only [portfolioFilter, h]
  cases ha : p.assignedAgent <;> simp [Payer.handler, ha]

theorem supervisor_sees (h : s.accessLevel user = some .agentSupervisor) :
    portfolioFilter s user p ↔ ∃ ward, s.wardOf user = some ward ∧ s.wardOf p.handler = some ward := by
  simp only [portfolioFilter, h]
  cases s.wardOf user with
  | none => simp
  | some ward => cases ha : p.assignedAgent <;> simp [Payer.handler, ha]

theorem firm_sees {level : AccessLevel} (h : s.accessLevel user = some level) (hl : level.portfolioScoped) :
    portfolioFilter s user p ↔ s.firmOf p.enumeratedBy = s.firmOf user := by
  simp only [portfolioFilter, h]
  split
  · simp_all [AccessLevel.portfolioScoped]
  · simp_all [AccessLevel.portfolioScoped]
  · simp_all
  · simp_all

-- Agents of a firm handle only the payers that the firm has registered.
def Db.InFirm (s : Db) : Prop :=
  ∀ ⦃k p firm⦄, (s.table .payer).get k = some p → s.firmOf p.handler = some firm →
    s.firmOf p.enumeratedBy = some firm

namespace Db.InFirm

theorem of_unassigned (h : ∀ {k p}, (s.table .payer).get k = some p → p.assignedAgent = none) :
    s.InFirm := by
  intro k p firm hp hf
  rwa [Payer.handler, h hp] at hf

theorem insert (hs : s.InFirm) (hp : p.assignedAgent = none) :
    InFirm (Database.insert s .payer k p) := by
  have hfirm : Db.firmOf (Database.insert s .payer k p) = s.firmOf := by
    funext user
    simp [Db.firmOf]
  intro i q firm hq hf
  rw [hfirm] at hf ⊢
  rcases Database.get_insert_cases hq with ⟨_, rfl⟩ | hq
  case inl => rwa [Payer.handler, hp] at hf
  case inr => exact hs hq hf

theorem modify {g : Payer → Payer} (hs : s.InFirm)
    (hg : ∀ p, (s.table .payer).get k = some p → ∀ firm, s.firmOf (g p).handler = some firm →
      s.firmOf (g p).enumeratedBy = some firm) :
    InFirm (Database.modify s .payer k g) := by
  have hfirm : Db.firmOf (Database.modify s .payer k g) = s.firmOf := by
    funext user
    simp [Db.firmOf]
  intro i q firm hq hf
  rw [hfirm] at hf ⊢
  rw [Database.modify_table, Table.get_modify] at hq
  split at hq
  case isTrue =>
    obtain ⟨p, hp, rfl⟩ := Option.map_eq_some_iff.mp hq
    exact hg p hp firm hf
  case isFalse => exact hs hq hf

theorem of_only (hs : s.InFirm) (h : Database.Only [Name.assessment, Name.asset] s t) : t.InFirm := by
  have hfirm : t.firmOf = s.firmOf := by
    funext user
    rw [Db.firmOf, Db.firmOf, h .user (by simp)]
  intro k p firm hp hf
  rw [h .payer (by simp)] at hp
  rw [hfirm] at hf ⊢
  exact hs hp hf

end Db.InFirm

theorem assignPayer_inFirm {pk payerId : ℕ} : (assignPayer user pk payerId).Maintains Db.InFirm := by
  intro s hs
  refine .bind <| post_select <| post_guard (fun _ => hs) fun _ => .bind <| post_select ?_
  simp only
  split
  case h_2 => exact post_refuse hs
  case h_1 agent _ =>
    refine .bind <| post_getObject (fun payer hpayer _ => ?_) fun _ => hs
    refine .bind <| post_select <| .bind <| post_select ?_
    simp only
    split
    case isTrue => exact .ret hs
    case isFalse hfirm =>
      refine .bind <| post_save (fun _ _ => .ret ?_) fun _ => hs
      refine hs.modify fun p hp firm hf => ?_
      obtain rfl := Option.some.inj <| hpayer.symm.trans hp
      -- The agent has a firm, so the guard has compared the firms.
      rw [Payer.handler, Option.getD_some] at hf
      simpa [hf] using hfirm

theorem registration_inFirm {r : Registration} : (r.serve fw).Maintains Db.InFirm := by
  have hi {k p} {s : Db} (h : p.assignedAgent = none) :
      Preserves (S := relational.schema) Db.InFirm s (Database.insert s .payer k p) := fun hs => hs.insert h
  have hm {k payerRef} {s : Db} : Preserves (S := relational.schema) Db.InFirm s
      (Database.modify s .payer k fun p => { p with payerRef }) := fun hs => hs.modify fun p hp _ hf => hs hp (p := p) hf
  cases r with
  | createPayer =>
    refine .bind (.of_keeps ?_) fun _ => .ret
    exact createPayer_keeps (fun ha _ _ => hi ha) hm fun _ _ _ _ _ _ hs => hs.of_only <| only_insert <| .head _
  | replay =>
    refine .bind (.of_keeps ?_) fun _ => .ret
    exact replayPayer_keeps (fun _ ha _ _ => hi ha) hm fun h hs => hs.of_only h
  | assignPayer => exact .bind assignPayer_inFirm fun _ => .ret

-- Who of the users sees a payer.
structure Db.Partitioned (s : Db) : Prop where
  agents : ∀ {k p u v}, (s.table .payer).get k = some p → s.accessLevel u = some .agent →
    s.accessLevel v = some .agent → portfolioFilter s u p → portfolioFilter s v p → u = v
  firm : ∀ {k p agent firm u level}, (s.table .payer).get k = some p → s.accessLevel agent = some .agent →
    s.firmOf agent = some firm → portfolioFilter s agent p → s.accessLevel u = some level →
    level ∈ [AccessLevel.consultant, .consultantStaff, .revenueOfficer] → s.firmOf u = some firm →
    portfolioFilter s u p
  ward : ∀ {k p agent ward u}, (s.table .payer).get k = some p → s.accessLevel agent = some .agent →
    s.wardOf agent = some ward → portfolioFilter s agent p → s.accessLevel u = some .agentSupervisor →
    s.wardOf u = some ward → portfolioFilter s u p
  supervisors : ∀ {k p u v w₁ w₂}, (s.table .payer).get k = some p → s.accessLevel u = some .agentSupervisor →
    s.accessLevel v = some .agentSupervisor → s.wardOf u = some w₁ → s.wardOf v = some w₂ →
    portfolioFilter s u p → portfolioFilter s v p → w₁ = w₂

theorem Db.InFirm.partitioned (hs : s.InFirm) : s.Partitioned where
  agents _ hu hv hpu hpv := ((agent_sees hu).mp hpu).symm.trans <| (agent_sees hv).mp hpv
  firm hp ha hfa hpa hu hl hfu := by
    have hh := (agent_sees ha).mp hpa
    rw [firm_sees hu (by simpa [AccessLevel.portfolioScoped] using hl), hfu]
    exact hs hp (hh ▸ hfa)
  ward _ ha hwa hpa hu hwu := by
    have hh := (agent_sees ha).mp hpa
    exact (supervisor_sees hu).mpr ⟨_, hwu, hh ▸ hwa⟩
  supervisors _ hu hv hwu hwv hpu hpv := by
    have ⟨_, hw₁, hh₁⟩ := (supervisor_sees hu).mp hpu
    have ⟨_, hw₂, hh₂⟩ := (supervisor_sees hv).mp hpv
    have hw := Option.some.inj <| hh₁.symm.trans hh₂
    exact Option.some.inj <| hwu.symm.trans <| hw₁.trans <| hw ▸ hw₂.symm.trans hwv

-- Registrations and assignments, from a state in which no payer has been handed to an agent yet, leave each
-- payer to one agent, to the firm of the agent and to the supervisors of the agent's ward.
theorem payers_partitioned {s₀ : Db}
    (h₀ : ∀ {k p}, (s₀.table .payer).get k = some p → p.assignedAgent = none)
    (h : Registration.Served fw s₀ s) : s.Partitioned :=
  (h.preserves (fun _ => registration_inFirm) <| .of_unassigned h₀).partitioned

namespace Sample

-- A firm's manager, who has registered the payer, and an agent of the firm.
def staff : Table AppUser :=
  Table.empty.insert 1 ⟨"ngozi", "Ngozi Eze", "ngozi@example.org", "", some 1, some 1, some 1⟩
    |>.insert 2 ⟨"musa", "Musa Bello", "musa@example.org", "", some 1, some 2, some 1⟩

def staffed : Db where
  table
    | .user       => staff
    | .role       => Table.empty.insert 1 ⟨"CONSULTANT", .consultant⟩ |>.insert 2 ⟨"FIELD_AGENT", .agent⟩
    | .consultant => Table.empty.insert 1 ⟨1, 0, .active, none⟩
    | .fieldAgent => Table.empty.insert 1 ⟨1, 2, some 1⟩
    | t           => tables t
  retired _ := []

-- The manager hands the payer to the agent.
def handed : Db :=
  (((Registration.assignPayer 1 1 1).serve framework).call staffed keys).2.1

theorem served_handed : Registration.Served framework staffed handed :=
  .serve (n := keys) (.assignPayer 1 1 1) .start rfl

end Sample

set_option maxRecDepth 20000 in
theorem sample_partitioned :
    (((Sample.handed.table .payer).get 1).any fun p => p.assignedAgent = some 2) ∧ Sample.handed.Partitioned := by
  refine ⟨by decide +kernel, payers_partitioned (fun {k p} hp => ?_) Sample.served_handed⟩
  have hall : (Sample.staffed.table .payer).rows.all fun r => r.2.assignedAgent = none := by decide +kernel
  exact of_decide_eq_true <| List.all_eq_true.mp hall (k, p) <| Table.mem_rows_iff.mpr hp

end ACRev360
