import ACRev360.Services.Portfolios
import ACRev360.Theorems.Visibility

namespace ACRev360

open Relational

variable {s t : Db} {today : Date} {user pk item portfolio k : ℕ} {ward : Option ℕ}

theorem granted_iff {consultant : ℕ} : s.granted consultant item ↔
    ∃ k g, (s.table .consultantPortfolio).get k = some g ∧ g.consultant = consultant ∧ g.item = item ∧
      g.effectiveTo = none := by
  simp [Db.granted, Table.isSome_first, and_assoc]

-- The consultant of the agent that a grant is for may handle the item, unless it is retired.
def Db.Covered (s : Db) (g : AgentPortfolio) : Prop :=
  ∀ ⦃agent consultant i⦄, (s.table .fieldAgent).get g.agent = some agent →
    s.accessLevel agent.user = some .agent → s.firmOf agent.user = some consultant →
    (s.table .item).get g.item = some i → i.isActive → s.granted consultant g.item

def Db.Narrowing (s : Db) : Prop :=
  ∀ ⦃k g⦄, (s.table .agentPortfolio).get k = some g → g.effectiveTo = none → s.Covered g

-- What a portfolio request does not write decides who is an agent of whom.
theorem Db.Covered.of_only {g : AgentPortfolio} (hg : s.Covered g)
    (h : Database.Only [Name.consultantPortfolio, Name.agentPortfolio] s t)
    (hgrant : ∀ {agent consultant}, (s.table .fieldAgent).get g.agent = some agent →
      s.accessLevel agent.user = some .agent → s.firmOf agent.user = some consultant →
      ((s.table .item).get g.item).any (·.isActive) → s.granted consultant g.item →
      t.granted consultant g.item) : t.Covered g := by
  intro agent consultant i hagent hlevel hfirm hi hactive
  rw [Db.accessLevel, h .user (by simp), h .role (by simp)] at hlevel
  rw [Db.firmOf, h .user (by simp)] at hfirm
  rw [h .fieldAgent (by simp)] at hagent
  rw [h .item (by simp)] at hi
  exact hgrant hagent hlevel hfirm (by rw [hi]; exact hactive) <| hg hagent hlevel hfirm hi hactive

-- The grant that a request ends.
def EndsGrant (s : Db) (user pk portfolio : ℕ) (g : ConsultantPortfolio) : Prop :=
  s.accessLevel user = some .councilAdmin ∧
  (∃ c, (s.table .consultant).get pk = some c ∧ s.councilOf user = some c.council) ∧
  (s.table .consultantPortfolio).get portfolio = some g ∧ g.consultant = pk ∧ g.effectiveTo = none

-- Agents of a consultant have been granted an item by themselves.
def Db.Held (s : Db) (consultant item : ℕ) : Prop :=
  ((s.table .item).get item).any (·.isActive) ∧
  ∃ k g agent, (s.table .agentPortfolio).get k = some g ∧ g.item = item ∧ g.effectiveTo = none ∧
    (s.table .fieldAgent).get g.agent = some agent ∧ s.accessLevel agent.user = some .agent ∧
    s.firmOf agent.user = some consultant

-- A consultant's last grant of an item is not ended while agents of the consultant hold the item.
def PortfolioRequest.Releases (s : Db) : PortfolioRequest → Prop
  | finish user pk portfolio => ∀ ⦃g⦄, EndsGrant s user pk portfolio g → s.Held pk g.item →
    ∃ j g', j ≠ portfolio ∧ (s.table .consultantPortfolio).get j = some g' ∧ g'.consultant = pk ∧
      g'.item = g.item ∧ g'.effectiveTo = none
  | _ => True

section Narrowing

variable (hs : s.Narrowing)
include hs

theorem post_assignPortfolio :
    Prog.Post (assignPortfolio user pk item ward) s fun _ t => Db.Narrowing t := by
  refine .bind <| post_select <| post_guard (fun _ => hs) fun _ => .bind <| post_select ?_
  simp only
  split
  case h_2 => exact post_refuse hs
  case h_1 consultant _ =>
    split
    case isTrue => exact .ret hs
    refine .bind <| .bind <| post_select <| post_guard (fun _ => hs) fun _ => .ret ?_
    refine .bind <| post_select ?_
    simp only
    split
    case isTrue => exact .ret hs
    refine .bind <| post_create (fun j hj => .ret ?_) fun _ => hs
    intro k g hg ho
    rw [Database.insert_table_ne (by simp)] at hg
    refine (hs hg ho).of_only (only_insert <| by simp) fun _ _ _ _ hgrant => ?_
    have ⟨i, g', hg', hrest⟩ := granted_iff.mp hgrant
    exact granted_iff.mpr ⟨i, g', Database.get_insert_of_some hg', hrest⟩

theorem post_assignAgentPortfolio :
    Prog.Post (assignAgentPortfolio user pk item ward) s fun _ t => Db.Narrowing t := by
  refine .bind <| post_select <| post_guard (fun _ => hs) fun _ => .bind <| post_select ?_
  simp only
  split
  case h_2 => exact post_refuse hs
  case h_1 agent hagent =>
    refine .bind <| .bind <| post_select <| post_guard (fun _ => hs) fun _ => .ret ?_
    refine .bind <| post_select ?_
    simp only
    split
    case h_2 => exact .ret hs
    case h_1 consultant hfirm =>
      refine .bind <| post_select ?_
      simp only
      split
      case isTrue => exact .ret hs
      case isFalse hgranted =>
        refine .bind <| post_select ?_
        simp only
        split
        case isTrue => exact .ret hs
        refine .bind <| post_create (fun j hj => .ret ?_) fun _ => hs
        have hO : Database.Only [Name.consultantPortfolio, Name.agentPortfolio] s
            (Database.insert s .agentPortfolio j ⟨agent.council, pk, item, ward, none⟩) :=
          only_insert <| by simp
        have hsame : (Database.insert s .agentPortfolio j
            ⟨agent.council, pk, item, ward, none⟩).table .consultantPortfolio = s.table .consultantPortfolio :=
          Database.insert_table_ne <| by simp
        intro k g hg ho
        rcases Database.get_insert_cases hg with ⟨_, rfl⟩ | hg
        case inl =>
          -- The guard has found the item among the consultant's own.
          intro agent' consultant' i hagent' hlevel hfirm' hi _
          rw [hO .fieldAgent (by simp)] at hagent'
          rw [Db.firmOf, hO .user (by simp)] at hfirm'
          obtain rfl := Option.some.inj <| hagent'.symm.trans (Option.filter_eq_some_iff.mp hagent).1
          obtain rfl := Option.some.inj <| hfirm'.symm.trans hfirm
          rw [Db.granted, hsame]
          exact eq_true_of_ne_false <| by simpa [Db.granted] using hgranted
        case inr =>
          refine (hs hg ho).of_only hO fun _ _ _ _ hgrant => ?_
          rwa [Db.granted, hsame]

theorem post_endAgentPortfolio :
    Prog.Post (endAgentPortfolio today user pk portfolio) s fun _ t => Db.Narrowing t := by
  refine .bind <| post_select <| post_guard (fun _ => hs) fun _ => .bind <| post_select ?_
  simp only
  split
  case h_2 => exact post_refuse hs
  case h_1 =>
    refine .bind <| post_getObject (fun entry hentry _ => ?_) fun _ => hs
    refine .bind <| post_close (fun _ _ => .ret ?_) fun _ => hs
    intro k g hg ho
    rw [Database.modify_table, Table.get_modify] at hg
    split at hg
    case isTrue =>
      obtain ⟨g, _, rfl⟩ := Option.map_eq_some_iff.mp hg
      exact absurd ho (by simp)
    case isFalse =>
      refine (hs hg ho).of_only (only_modify <| by simp) fun _ _ _ _ hgrant => ?_
      rwa [Db.granted, Database.modify_table_ne (by simp)]

theorem post_endPortfolio (hr : (PortfolioRequest.finish user pk portfolio).Releases s) :
    Prog.Post (endPortfolio today user pk portfolio) s fun _ t => Db.Narrowing t := by
  refine .bind <| post_select <| post_guard (fun _ => hs) fun hlevel => .bind <| post_select ?_
  simp only
  split
  case h_2 => exact post_refuse hs
  case h_1 consultant hconsultant =>
    have ⟨hc, hcouncil⟩ := Option.filter_eq_some_iff.mp hconsultant
    refine .bind <| post_getObject (fun entry hentry hpk => ?_) fun _ => hs
    refine .bind <| post_close (fun _ _ => .ret ?_) fun _ => hs
    intro k g hg ho
    rw [Database.modify_table_ne (by simp)] at hg
    refine (hs hg ho).of_only (only_modify <| by simp) fun hagent hlevel' hfirm hactive hgrant => ?_
    obtain ⟨j, g', hg', rfl, hitem, ho'⟩ := granted_iff.mp hgrant
    rw [granted_iff]
    by_cases hj : j = portfolio
    case neg => exact ⟨j, g', by rwa [Database.modify_table, Table.get_modify, if_neg hj], rfl, hitem, ho'⟩
    case pos =>
      subst hj
      obtain rfl := Option.some.inj <| hentry.symm.trans hg'
      obtain rfl := of_decide_eq_true hpk
      have ⟨j', g'', hne, hg'', hrest⟩ := hr
        ⟨not_not.mp hlevel, ⟨consultant, hc, of_decide_eq_true hcouncil⟩, hentry, rfl, ho'⟩
        ⟨hitem ▸ hactive, k, g, _, hg, hitem.symm, ho, hagent, hlevel', hfirm⟩
      exact ⟨j', g'', by rwa [Database.modify_table, Table.get_modify, if_neg hne], hitem ▸ hrest⟩

theorem post_portfolioRequest {r : PortfolioRequest} (hr : r.Releases s) :
    Prog.Post (r.serve today) s fun _ t => Db.Narrowing t := by
  cases r with
  | assign => exact post_assignPortfolio hs
  | finish => exact post_endPortfolio hs hr
  | assignAgent => exact post_assignAgentPortfolio hs
  | finishAgent => exact post_endAgentPortfolio hs

end Narrowing

theorem PortfolioRequest.Reachable.narrowing (h : PortfolioRequest.Reachable Releases s) : s.Narrowing := by
  induction h with
  | start _ ha =>
    intro k g hg
    rw [ha, Table.get_empty] at hg
    contradiction
  | serve today r _ hr hc hs =>
    rename_i out _
    cases out with
    | error e => exact Prog.call_error hc ▸ hs
    | ok a => exact (Prog.call_ok (post_portfolioRequest hs hr) hc).1

-- The manager of the consultant that an agent works for.
structure ManagerOf (s : Db) (manager agent : ℕ) : Prop where
  level   : s.accessLevel manager = some .consultant
  firm    : s.firmOf manager = s.firmOf agent
  council : s.councilOf manager = s.councilOf agent

-- Agents of a consultant get no items that the consultant does not get.
def Db.InsidePortfolio (s : Db) : Prop :=
  ∀ ⦃agent manager consultant⦄, s.accessLevel agent = some .agent → s.firmOf agent = some consultant →
    ManagerOf s manager agent → ∀ item, itemInQueryset s agent item → itemInQueryset s manager item

theorem Db.Narrowing.inside (hs : s.Narrowing) : s.InsidePortfolio := by
  intro agent manager consultant hlevel hfirm hm item h
  simp only [itemInQueryset, hlevel, hm.level, hm.firm, hm.council, hfirm, Bool.and_eq_true] at h ⊢
  refine ⟨h.1, ?_⟩
  have ⟨i, hi, hactive⟩ := Option.any_eq_true _ _ |>.mp h.1
  simp only [AccessLevel.portfolioScoped, List.mem_cons, true_or, decide_true, if_true]
  split at h
  case isFalse => simpa using h.2
  case isTrue =>
    obtain ⟨k, g, hg, hp⟩ := Table.isSome_first.mp h.2
    simp only [Bool.and_eq_true, decide_eq_true_eq] at hp
    obtain ⟨fa, hfa, huser⟩ := Option.any_eq_true _ _ |>.mp hp.2
    obtain rfl := of_decide_eq_true huser
    exact hp.1.1 ▸ hs hg hp.1.2 hfa hlevel hfirm (hp.1.1.symm ▸ hi) (by simp_all)

-- While no consultant's last grant of an item is ended under agents who hold the item, agents get no items
-- that their consultant does not get.
theorem agentPortfolios_inside (h : PortfolioRequest.Reachable PortfolioRequest.Releases s) : s.InsidePortfolio :=
  h.narrowing.inside

namespace Sample

-- A council's admin with the firm's manager and agent.
def administered : Db where
  table
    | .user => staff.insert 3 ⟨"amina", "Amina Sani", "amina@example.org", "", some 1, some 3, none⟩
    | .role => (staffed.table .role).insert 3 ⟨"COUNCIL_ADMIN", .councilAdmin⟩
    | t     => staffed.table t
  retired _ := []

def portfolioServe (s : Db × (Name → ℕ)) (r : PortfolioRequest) : Db × (Name → ℕ) :=
  ((r.serve day).call s.1 s.2).2

-- The admin grants an item to the firm, and then to the agent.
def assigned : Db × (Name → ℕ) :=
  portfolioServe (administered, keys) <| .assign 3 1 1 none

def granted : Db × (Name → ℕ) :=
  portfolioServe assigned <| .assignAgent 3 1 1 none

def withdrawn : Db × (Name → ℕ) :=
  portfolioServe granted <| .finish 3 1 1

theorem reachable_portfolioServe {ok : Db → PortfolioRequest → Prop} {s : Db × (Name → ℕ)}
    {r : PortfolioRequest} (h : PortfolioRequest.Reachable ok s.1) (hr : ok s.1 r) :
    PortfolioRequest.Reachable ok (portfolioServe s r).1 :=
  .serve (n := s.2) day r h hr rfl

theorem reachable_granted {ok : Db → PortfolioRequest → Prop} (hf : ok administered (.assign 3 1 1 none))
    (ha : ok assigned.1 (.assignAgent 3 1 1 none)) : PortfolioRequest.Reachable ok granted.1 :=
  reachable_portfolioServe (reachable_portfolioServe (s := (administered, keys)) (.start rfl rfl) hf) ha

end Sample

set_option maxRecDepth 20000 in
theorem sample_inside : itemInQueryset Sample.granted.1 2 1 ∧ Db.InsidePortfolio Sample.granted.1 :=
  ⟨by decide +kernel, agentPortfolios_inside <| Sample.reachable_granted trivial trivial⟩

set_option maxRecDepth 20000 in
-- The firm's grant ends, and the agent's stays.
theorem agentPortfolio_outlives : ¬∀ s, PortfolioRequest.Reachable (fun _ _ => True) s → s.InsidePortfolio := by
  intro h
  have hw : PortfolioRequest.Reachable (fun _ _ => True) Sample.withdrawn.1 :=
    Sample.reachable_portfolioServe (Sample.reachable_granted trivial trivial) trivial
  have hm : ManagerOf Sample.withdrawn.1 1 2 := ⟨by decide +kernel, by decide +kernel, by decide +kernel⟩
  have hi : itemInQueryset Sample.withdrawn.1 2 1 ∧ ¬itemInQueryset Sample.withdrawn.1 1 1 := by decide +kernel
  exact hi.2 <| @h _ hw _ _ 1 (by decide +kernel) (by decide +kernel) hm 1 hi.1

end ACRev360
