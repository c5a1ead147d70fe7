import ACRev360.Services.Middleware
import ACRev360.Theorems.Visibility

namespace ACRev360

open Relational Relational.Database

variable {s t : Db} {n m : Name → ℕ} {user pk payerId : ℕ} {agent : FieldAgent} {payer : Payer}

-- What has been checked of an agent and a payer when the payer is handed to the agent.
structure Assignable (s : Db) (user pk payerId : ℕ) (agent : FieldAgent) (payer : Payer) : Prop where
  found   : (s.table .fieldAgent).get pk = some agent
  named   : (s.table .payer).get payerId = some payer
  team    : agentInQueryset s user agent
  council : payer.council = agent.council
  firm    : ∀ firm, s.firmOf agent.user = some firm → s.firmOf payer.enumeratedBy = some firm

-- The agents of a supervisor.
theorem supervisor_team (h : s.accessLevel user = some .agentSupervisor) (ht : agentInQueryset s user agent) :
    ∃ ward, s.wardOf user = some ward ∧ agent.assignedWard = some ward := by
  simp only [agentInQueryset, h, Bool.and_eq_true, Option.any_eq_true, decide_eq_true_eq] at ht
  exact ht.2

-- A supervisor hands a payer to an agent just if the checks are met.
theorem runs_assignPayer (h : s.accessLevel user = some .agentSupervisor) :
    Runs (assignPayer user pk payerId) s fun out _ =>
      out = .ok .assigned ↔ ∃ agent payer, Assignable s user pk payerId agent payer := by
  refine .of_refs fun hrefs => .bind <| runs_select <| runs_when (fun hl => ?_) fun _ => ?_
  case refine_1 => simp [h] at hl
  refine .bind <| runs_select ?_
  simp only
  split
  case h_2 hnone =>
    refine .raise <| iff_of_false (by simp) fun hpost => ?_
    obtain ⟨agent, payer, ha⟩ := hpost
    refine hnone agent ?_
    rw [ha.found, Option.filter_some, if_pos ha.team]
  case h_1 agent hagent =>
    obtain ⟨hagent, hteam⟩ := Option.filter_eq_some_iff.mp hagent
    refine .bind <| runs_getObject (fun payer hpayer hcouncil => ?found) fun hnone => ?absent
    case absent =>
      refine iff_of_false (by simp) fun hpost => ?_
      obtain ⟨agent', payer, ha⟩ := hpost
      obtain rfl := Option.some.inj <| hagent.symm.trans ha.found
      exact hnone payer ha.named <| decide_eq_true ha.council
    refine .bind <| runs_select <| .bind <| runs_select ?_
    simp only
    split
    case isTrue hfirm =>
      refine .ret <| iff_of_false (by simp) fun hpost => ?_
      obtain ⟨agent', payer', ha⟩ := hpost
      obtain rfl := Option.some.inj <| hagent.symm.trans ha.found
      obtain rfl := Option.some.inj <| hpayer.symm.trans ha.named
      simp only [Bool.and_eq_true, Option.isSome_iff_exists, decide_eq_true_eq] at hfirm
      obtain ⟨⟨firm, hf⟩, hne⟩ := hfirm
      exact hne <| (ha.firm firm hf).trans hf.symm
    case isFalse hfirm =>
      refine .bind <| runs_save hpayer (fun ref href => ?refs) <| .ret <| iff_of_true rfl
        ⟨agent, payer, hagent, hpayer, hteam, of_decide_eq_true hcouncil, fun firm hf => ?firm⟩
      case refs =>
        have huser : Database.Has s (.user, agent.user) := hrefs .fieldAgent pk agent hagent _ <| by simp
        simp only [List.mem_append, List.mem_cons, List.mem_map, Option.mem_toList] at href ⊢
        rcases href with (rfl | ⟨u, hu, rfl⟩) | h
        · exact .inl <| .inl <| .inl rfl
        · exact .inr <| Option.some.inj hu ▸ huser
        · exact .inl <| .inr h
      case firm => simpa [hf] using hfirm

-- What a supervisor hands over stays in the ward just if each payer who passes the checks has been in the
-- hands of an agent of the ward.
theorem assignPayer_confined (hs : Database.Proper s n) (h : s.accessLevel user = some .agentSupervisor) :
    (∀ {t m}, respond (assignPayer user pk payerId) s n = (.ok .assigned, t, m) →
      ∃ agent payer ward, (s.table .fieldAgent).get pk = some agent ∧
        (s.table .payer).get payerId = some payer ∧ s.wardOf user = some ward ∧
        agent.assignedWard = some ward ∧ portfolioFilter s user payer) ↔
    ∀ {agent payer}, Assignable s user pk payerId agent payer →
      ∃ ward, s.wardOf user = some ward ∧ s.wardOf payer.handler = some ward := by
  constructor
  case mp =>
    intro hconfined agent payer ha
    generalize hr : respond (assignPayer user pk payerId) s n = end_
    obtain ⟨out, t, m⟩ := end_
    have ⟨_, hout⟩ := respond_runs (runs_assignPayer h) hs hr
    have hok : out = .ok .assigned := by
      rcases hout with ⟨_, hout⟩ | ⟨hmarks, _, u, hout⟩
      · exact hout.mpr ⟨agent, payer, ha⟩
      · exact hout.mpr ⟨agent, payer, ha⟩
    obtain ⟨agent', payer', ward, _, hpayer, _, _, hsees⟩ := hconfined <| hok ▸ hr
    obtain rfl := Option.some.inj <| ha.named.symm.trans hpayer
    exact (supervisor_sees h).mp hsees
  case mpr =>
    intro hhands t m hr
    have ⟨_, hout⟩ := respond_runs (runs_assignPayer h) hs hr
    have ⟨agent, payer, ha⟩ : ∃ agent payer, Assignable s user pk payerId agent payer := by
      rcases hout with ⟨_, hout⟩ | ⟨_, _, u, hout⟩
      · exact hout.mp rfl
      · exact hout.mp rfl
    obtain ⟨ward, hward, hassigned⟩ := supervisor_team h ha.team
    exact ⟨agent, payer, ward, ha.found, ha.named, hward, hassigned, (supervisor_sees h).mpr <| hhands ha⟩

namespace Sample

-- The agent's supervisor, with the agent's payer or with one whom the manager has not handed over.
def supervised (assignedAgent : Option ℕ) : Db where
  table
    | .user       => staff.insert 3 ⟨"aisha", "Aisha Sani", "aisha@example.org", "", some 1, some 3, none⟩
    | .role       => Table.empty.insert 1 ⟨"CONSULTANT", .consultant⟩ |>.insert 2 ⟨"FIELD_AGENT", .agent⟩
        |>.insert 3 ⟨"AGENT_SUPERVISOR", .agentSupervisor⟩
    | .fieldAgent => Table.empty.insert 1 ⟨1, 2, some 1⟩ |>.insert 2 ⟨1, 3, some 1⟩
    | .payer      => Table.empty.insert 1 { Sample.payer.row with assignedAgent }
    | t           => staffed.table t
  retired _ := []

theorem proper_supervised : Database.Proper (supervised none) fun _ => 10 :=
  proper_of_bounds (by decide +kernel) (by decide +kernel)

theorem proper_kept : Database.Proper (supervised <| some 2) fun _ => 10 :=
  proper_of_bounds (by decide +kernel) (by decide +kernel)

-- The supervisor hands the payer to the agent.
def reassigned (assignedAgent : Option ℕ) : Except relational.Exn AssignResponse × Db × (Name → ℕ) :=
  respond (assignPayer 3 1 1) (supervised assignedAgent) fun _ => 10

theorem reassigned_ok : (reassigned <| some 2).1 = .ok .assigned ∧ (reassigned none).1 = .ok .assigned :=
  ⟨rfl, rfl⟩

end Sample

theorem sample_confined : ∃ agent payer ward, ((Sample.supervised <| some 2).table .fieldAgent).get 1 = some agent ∧
    ((Sample.supervised <| some 2).table .payer).get 1 = some payer ∧
    (Sample.supervised <| some 2).wardOf 3 = some ward ∧ agent.assignedWard = some ward ∧
    portfolioFilter (Sample.supervised <| some 2) 3 payer := by
  refine (assignPayer_confined Sample.proper_kept rfl).mpr (fun {agent payer} ha => ⟨1, by decide +kernel, ?_⟩)
    (Prod.ext Sample.reassigned_ok.1 rfl)
  have hwards : ((Sample.supervised <| some 2).table .payer).rows.all fun r =>
    (Sample.supervised <| some 2).wardOf r.2.handler = some 1 := by decide +kernel
  exact of_decide_eq_true <| List.all_eq_true.mp hwards (1, payer) <| Table.mem_rows_iff.mpr ha.named

-- A payer whom the manager has registered is handed to an agent by a supervisor who did not see the payer.
theorem assignPayer_not_confined : (Sample.reassigned none).1 = .ok .assigned ∧
    (Sample.supervised none).accessLevel 3 = some .agentSupervisor ∧
    (((Sample.supervised none).table .payer).get 1).any fun payer =>
      !portfolioFilter (Sample.supervised none) 3 payer :=
  ⟨Sample.reassigned_ok.2, by decide +kernel, by decide +kernel⟩

end ACRev360
