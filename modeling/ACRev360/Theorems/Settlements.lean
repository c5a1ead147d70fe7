import ACRev360.Services.Settlements
import ACRev360.Services.Effects
import ACRev360.Theorems.Ledger

namespace ACRev360

open Relational Relational.Database

variable {s t u : Db} {k : ℕ} {today : Date} {council consultant actor : ℕ} {periodStart periodEnd : Date}

-- The row is the settlement of a consultant for a period.
structure IsFor (council consultant : ℕ) (periodStart periodEnd : Date) (row : CommissionSettlement) :
    Prop where
  council     : row.council = council
  consultant  : row.consultant = consultant
  periodStart : row.periodStart = periodStart
  periodEnd   : row.periodEnd = periodEnd

def IsActive (s : Db) (council consultant : ℕ) : Prop :=
  ∃ c, (s.table .consultant).get consultant = some c ∧ c.council = council ∧ c.status = .active

-- The row has been computed for an active consultant of the council, from the payments in `s`.
structure Computed (s : Db) (council : ℕ) (periodStart periodEnd : Date) (row : CommissionSettlement) :
    Prop where
  status : row.status = .computed
  isFor  : IsFor council row.consultant periodStart periodEnd row
  active : IsActive s council row.consultant
  gross  : row.grossCollections.units =
    grossCollections s council row.consultant periodStart (periodEnd + 1)
  dated  : periodStart < Date.max ∧ periodEnd < Date.max
  share  : ∃ commission, commissionOf (kobo row.grossCollections.units) row.commissionRate = some commission ∧
    row.commissionAmount.units = cents commission

-- A consultant has one settlement a period.
def OnePerPeriod (s : Db) : Prop :=
  ∀ ⦃k k' r r'⦄, (s.table .settlement).get k = some r → (s.table .settlement).get k' = some r' →
    r.consultant = r'.consultant → r.periodStart = r'.periodStart → r.periodEnd = r'.periodEnd → k = k'

-- What `compute_settlements` does to the settlements: those that it returns have been computed, and
-- the others are as they were.
structure Settled (s : Db) (council : ℕ) (periodStart periodEnd : Date) (results : List ℕ) (t : Db) :
    Prop where
  computed : ∀ k ∈ results, ∃ row, (t.table .settlement).get k = some row ∧
    Computed s council periodStart periodEnd row ∧ ∀ r, (s.table .settlement).get k = some r →
      IsFor council row.consultant periodStart periodEnd r
  others   : ∀ k ∉ results, (t.table .settlement).get k = (s.table .settlement).get k
  only     : Database.Only [Name.settlement] s t
  one      : OnePerPeriod s → OnePerPeriod t

theorem Settled.refl : Settled s council periodStart periodEnd [] s where
  computed _ h := by simp at h
  others _ _   := rfl
  only _ _     := rfl
  one          := id

theorem grossCollections_congr (h : Database.Only [Name.settlement] s t) :
    grossCollections t = grossCollections s := by
  have hconsultant : consultantOf t = consultantOf s := by
    funext bill
    rw [consultantOf, consultantOf, h .bill (by simp), h .payer (by simp), h .user (by simp)]
  have hcounts : counts t = counts s := by
    funext council consultant windowStart windowEnd k p
    rw [counts, counts, hconsultant, h .bill (by simp)]
  funext council consultant windowStart windowEnd
  rw [grossCollections, grossCollections, hcounts, h .payment (by simp)]

theorem settlementOf_some (h : settlementOf s council consultant periodStart periodEnd = some k) :
    ∃ r, (s.table .settlement).get k = some r ∧ IsFor council consultant periodStart periodEnd r := by
  have ⟨⟨k', r⟩, hr, he⟩ := Option.map_eq_some_iff.mp h
  have ⟨hget, hp⟩ := Table.first_some hr
  simp only [Bool.and_eq_true, decide_eq_true_eq] at hp
  exact ⟨r, he ▸ hget, hp.1.1.1, hp.1.1.2, hp.1.2, hp.2⟩

-- One settlement is entered, over the one of its consultant and period or where none was.
structure Entered (t : Db) (k : ℕ) (row : CommissionSettlement) (u : Db) : Prop where
  get    : (u.table .settlement).get k = some row
  others : ∀ i ≠ k, (u.table .settlement).get i = (t.table .settlement).get i
  found  : ∀ r, (t.table .settlement).get k = some r →
    IsFor row.council row.consultant row.periodStart row.periodEnd r
  absent : (t.table .settlement).get k = none → ∀ i r, (t.table .settlement).get i = some r →
    r.consultant = row.consultant → r.periodStart = row.periodStart → r.periodEnd ≠ row.periodEnd
  only   : Database.Only [Name.settlement] t u

theorem Entered.onePerPeriod {row : CommissionSettlement} (h : Entered t k row u) (ht : OnePerPeriod t) :
    OnePerPeriod u := by
  have single : ∀ i r, (t.table .settlement).get i = some r → r.consultant = row.consultant →
      r.periodStart = row.periodStart → r.periodEnd = row.periodEnd → i = k := by
    intro i r hr hc hs he
    cases hk : (t.table .settlement).get k with
    | none => exact absurd he (h.absent hk i r hr hc hs)
    | some r₀ =>
      have hf := h.found r₀ hk
      exact ht hr hk (hc.trans hf.consultant.symm) (hs.trans hf.periodStart.symm) (he.trans hf.periodEnd.symm)
  intro i j r r' hr hr' hc hs he
  rcases eq_or_ne i k with hi | hi <;> rcases eq_or_ne j k with hj | hj
  · exact hi.trans hj.symm
  · rw [hi, h.get, Option.some.injEq] at hr
    rw [h.others j hj] at hr'
    subst hr
    exact absurd (single j r' hr' hc.symm hs.symm he.symm) hj
  · rw [hj, h.get, Option.some.injEq] at hr'
    rw [h.others i hi] at hr
    subst hr'
    exact absurd (single i r hr hc hs he) hi
  · exact ht (h.others i hi ▸ hr) (h.others j hj ▸ hr') hc hs he

theorem Settled.enter {row : CommissionSettlement} {results : List ℕ}
    (h : Settled s council periodStart periodEnd results t) (he : Entered t k row u)
    (hrow : Computed s council periodStart periodEnd row) :
    Settled s council periodStart periodEnd (results ++ [k]) u where
  computed i hi := by
    have hfor := hrow.isFor
    by_cases hk : i = k
    case neg =>
      rw [he.others i hk]
      exact h.computed i <| by simpa [hk] using hi
    case pos =>
      refine hk ▸ ⟨row, he.get, hrow, fun r hr => ?_⟩
      have hfound : ∀ r, (t.table .settlement).get k = some r →
          IsFor council row.consultant periodStart periodEnd r := fun r hr => by
        rw [← hfor.council, ← hfor.periodStart, ← hfor.periodEnd]
        exact he.found r hr
      by_cases hmem : k ∈ results
      case neg => exact hfound r <| (h.others k hmem).trans hr
      case pos =>
        have ⟨row', hrow', _, hr'⟩ := h.computed k hmem
        exact (hfound row' hrow').consultant ▸ hr' r hr
  others i hi := by
    have ⟨hmem, hk⟩ : i ∉ results ∧ i ≠ k := by simpa using hi
    rw [he.others i hk, h.others i hmem]
  only    := IsTrans.trans _ _ _ h.only he.only
  one hone := he.onePerPeriod <| h.one hone

theorem post_updateOrCreateSettlement {c : Loaded SubConsultant} {gross commission : ℚ} :
    Prog.Post (updateOrCreateSettlement council c periodStart periodEnd gross commission actor) s <|
      Prog.OnReturn fun k t => ∃ row, Entered s k row t ∧ IsFor council c.id periodStart periodEnd row ∧
        row.status = .computed ∧ row.grossCollections.units = cents gross ∧
        row.commissionRate = c.row.commissionRate ∧ row.commissionAmount.units = cents commission := by
  let Q (k : ℕ) (t : Db) := ∃ row, Entered s k row t ∧ IsFor council c.id periodStart periodEnd row ∧
    row.status = .computed ∧ row.grossCollections.units = cents gross ∧
    row.commissionRate = c.row.commissionRate ∧ row.commissionAmount.units = cents commission
  let Found (out : ℕ × Bool) (t : Db) := if out.2 then Q out.1 t else
    t = s ∧ settlementOf s council c.id periodStart periodEnd = some out.1
  refine .seq (post_getOrCreate (Q := Found) (fun k hk => ⟨rfl, hk⟩) fun hn => ?create) ?update
  case create =>
    refine .bind <| post_store (fun amount hgross => .bind ?_) fun _ => trivial
    refine post_store (fun _ hcommission => ?_) fun _ => trivial
    refine post_create (fun k hk => ?_) fun _ => trivial
    have ⟨hr, hk, hu⟩ := conflicts_false hk
    refine ⟨_, ⟨by rw [insert_table hr, Table.get_insert_self hk], fun i hi => ?_, fun r hr' => ?_,
      fun _ i r hr' hc hs he => ?_, only_insert <| .head _⟩, ⟨rfl, rfl, rfl, rfl⟩, rfl, hgross, rfl, hcommission⟩
    · rw [insert_table hr, Table.get_insert_ne hi]
    · simp [hk] at hr'
    · exact hu (.settlement c.id periodStart periodEnd) (.head _) .settlement i
        ⟨r, hr', List.mem_singleton.mpr <| by rw [hc, hs, he]⟩
  case update =>
    rintro ⟨k, created⟩ t h
    cases created with
    | true => exact .ret h
    | false =>
      obtain ⟨rfl, hk⟩ := h
      have ⟨r, hr, hf⟩ := settlementOf_some hk
      refine .bind <| post_getForUpdate (fun _ _ => .bind ?_) fun _ => trivial
      refine post_store (fun amount hgross => .bind ?_) fun _ => trivial
      refine post_store (fun commission hcommission => .bind ?_) fun _ => trivial
      refine post_save (fun _ _ => .ret ⟨{ r with
        grossCollections := amount, commissionRate := c.row.commissionRate
        commissionAmount := commission, status := .computed, computedBy := actor },
        ⟨?_, fun i hi => ?_, fun r' hr' => ?_, fun hn => ?_, only_modify <| .head _⟩, ⟨hf.1, hf.2, hf.3, hf.4⟩,
        rfl, hgross, rfl, hcommission⟩)
        fun _ => trivial
      · rw [modify_table, Table.get_modify, if_pos rfl, hr]
        rfl
      · rw [modify_table, Table.get_modify, if_neg hi]
      · rw [hr, Option.some.injEq] at hr'
        exact hr' ▸ ⟨rfl, rfl, rfl, rfl⟩
      · simp [hr] at hn

theorem post_computeSettlements :
    Prog.Post (computeSettlements council periodStart periodEnd actor) s <|
      Prog.OnReturn fun results t => Settled s council periodStart periodEnd results t := by
  refine .bind <| post_select ?_
  let I (results : List ℕ) (rest : List (Loaded SubConsultant)) (t : Db) :=
    Settled s council periodStart periodEnd results t ∧ ∀ c ∈ rest, IsActive s council c.id
  refine .imp (Prog.Post.foldlM (S := relational.schema) (I := I) (fun {results c rest t} h => ?step)
    ⟨.refl, ?start⟩) fun _ _ h => h.1
  case start =>
    intro c hc
    have ⟨⟨k, row⟩, hmem, he⟩ := List.mem_map.mp hc
    have ⟨hget, hp⟩ := Table.mem_filter_iff.mp hmem
    simp only [Bool.and_eq_true, decide_eq_true_eq] at hp
    exact he ▸ ⟨row, hget, hp⟩
  case step =>
    have window : ∀ {day : Date} {u : Db}, Prog.Post (dateSpanBounds day) u <|
        Prog.OnReturn fun w t => t = u ∧ w = (day, day + 1) ∧ day < Date.max := by
      intro day u
      unfold dateSpanBounds
      split
      case isTrue h => exact .ret ⟨rfl, rfl, h⟩
      case isFalse => exact .raise trivial
    refine .seq window fun w t₁ ⟨ht₁, hw, hstart⟩ => .seq window fun w' t₂ ⟨ht₂, hw', hend⟩ => ?_
    subst ht₂ ht₁ hw hw'
    refine .bind <| post_select ?_
    simp only
    split
    case h_2 => exact .raise trivial
    case h_1 commission hcommission =>
      refine .seq post_updateOrCreateSettlement fun k u ⟨row, he, hf, hstatus, hgross, hrate, hshare⟩ => .ret ?_
      refine ⟨h.1.enter he ⟨hstatus, ?_, ?_, ?_, ⟨hstart, hend⟩, commission, ?_, hshare⟩,
        fun c hc => h.2 c <| .tail _ hc⟩
      · exact hf.consultant.symm ▸ hf
      · exact hf.consultant.symm ▸ h.2 c (.head _)
      · rw [hgross, cents_kobo, hf.consultant, grossCollections_congr h.1.only]
      · rw [hgross, cents_kobo, hrate, hcommission]

-- The settlements that differ are the ones that the request works on.
theorem Request.serve_settlement {r : Request} :
    Prog.Post (r.serve today) s <| Prog.OnReturn fun _ t => t.table .settlement = s.table .settlement := by
  have hw : Writes [Name.payer, Name.assessment, Name.bill, Name.line, Name.payment, Name.allocation,
      Name.receipt, Name.debtCase] (r.serve today) :=
    Request.serve_keeps (only_insert <| by simp) (fun _ => only_modify <| by simp) (fun h => h.mono <| by simp)
      (only_modify <| by simp)
  exact .imp hw.returns fun _ t ht => ht .settlement (by simp)

section Immutability

-- Every status is the one from before, or follows it by an allowed transition.
def Lawful (s t : Db) : Prop :=
  ∀ ⦃k r⦄, (s.table .settlement).get k = some r → ∃ r', (t.table .settlement).get k = some r' ∧
    (r'.status = r.status ∨ r'.status ∈ r.status.allowedTransitions)

-- What is settled stays as it is.
def Final (s t : Db) : Prop :=
  ∀ ⦃k r⦄, (s.table .settlement).get k = some r → r.status = .settled →
    (t.table .settlement).get k = some r

theorem Lawful.of_eq (h : t.table .settlement = s.table .settlement) : Lawful s t :=
  fun _ r hr => ⟨r, h ▸ hr, .inl rfl⟩

theorem Final.of_eq (h : t.table .settlement = s.table .settlement) : Final s t :=
  fun _ _ hr _ => h ▸ hr

theorem Final.trans (h₁ : Final s t) (h₂ : Final t u) : Final s u :=
  fun _ _ hr hs => h₂ (h₁ hr hs) hs

-- The settlements that a computation would compute again are not past COMPUTED.
def SettlementRequest.Undisturbed (s : Db) : SettlementRequest → Prop
  | compute council periodStart periodEnd _ => ∀ ⦃k r⦄, (s.table .settlement).get k = some r →
      IsFor council r.consultant periodStart periodEnd r → IsActive s council r.consultant →
      r.status = .computed
  | _ => True

theorem Settled.lawful {results : List ℕ} (h : Settled s council periodStart periodEnd results t)
    (hs : SettlementRequest.Undisturbed s (.compute council periodStart periodEnd actor)) :
    Lawful s t ∧ Final s t := by
  constructor
  · intro k r hr
    by_cases hk : k ∈ results
    case neg => exact ⟨r, (h.others k hk).trans hr, .inl rfl⟩
    case pos =>
      have ⟨row, hrow, hc, hfor⟩ := h.computed k hk
      have hfor := hfor r hr
      have hstatus := hs hr (hfor.consultant.symm ▸ hfor) (hfor.consultant ▸ hc.active)
      exact ⟨row, hrow, .inl <| hc.status.trans hstatus.symm⟩
  · intro k r hr hsettled
    by_cases hk : k ∈ results
    case neg => exact (h.others k hk).trans hr
    case pos =>
      have ⟨row, hrow, hc, hfor⟩ := h.computed k hk
      have hfor := hfor r hr
      have hstatus := hs hr (hfor.consultant.symm ▸ hfor) (hfor.consultant ▸ hc.active)
      simp [hsettled] at hstatus

theorem post_statusChange {status : SettlementStatus} :
    Prog.Post (statusChange council k status) s <| Prog.OnReturn fun _ t => Lawful s t ∧ Final s t := by
  refine .bind <| post_getObject (fun r hr _ => ?_) fun _ => trivial
  refine post_guard (fun _ => trivial) fun hstatus => ?_
  replace hstatus := not_not.mp hstatus
  refine post_save (fun _ _ => ⟨fun i r' hr' => ?_, fun i r' hr' hsettled => ?_⟩) fun _ => trivial
  · rw [modify_table, Table.get_modify]
    split
    case isTrue hi =>
      rw [hi, hr, Option.some.injEq] at hr'
      exact ⟨_, by rw [hr]; rfl, .inr <| hr' ▸ hstatus⟩
    case isFalse => exact ⟨r', hr', .inl rfl⟩
  · rw [modify_table, Table.get_modify]
    split
    case isTrue hi =>
      rw [hi, hr, Option.some.injEq] at hr'
      rw [hr', hsettled] at hstatus
      simp [SettlementStatus.allowedTransitions] at hstatus
    case isFalse => exact hr'

theorem SettlementRequest.post_serve {r : SettlementRequest} (h : r.Undisturbed s) :
    Prog.Post (r.serve today) s <| Prog.OnReturn fun _ t => Lawful s t ∧ Final s t := by
  have same : ∀ {t : Db}, t.table .settlement = s.table .settlement → Lawful s t ∧ Final s t :=
    fun ht => ⟨.of_eq ht, .of_eq ht⟩
  cases r with
  | compute council periodStart periodEnd actor =>
    exact .imp post_computeSettlements fun _ _ ht => ht.lawful h
  | statusChange council pk status => exact .seq post_statusChange fun _ _ ht => .ret ht
  | commissionRate council pk rate =>
    refine .seq (Q := fun _ (t : Db) => t.table .settlement = s.table .settlement) ?_ fun _ _ ht => .ret <| same ht
    refine .bind <| post_getObject (fun c _ _ => ?_) fun _ => trivial
    exact post_save (fun _ _ => modify_table_ne <| by decide) fun _ => trivial
  | consultantStatus council pk status =>
    refine .seq (Q := fun _ (t : Db) => t.table .settlement = s.table .settlement) ?_ fun _ _ ht => .ret <| same ht
    refine .bind <| post_getObject (fun c _ _ => .bind <| post_select ?_) fun _ => trivial
    refine post_guard (fun _ => trivial) fun _ => ?_
    exact post_save (fun _ _ => modify_table_ne <| by decide) fun _ => trivial
  | money r => exact .seq Request.serve_settlement fun _ _ ht => .ret <| same ht

-- The states that requests lead to from `s₀` that are served one after the other and meet `ok`.
inductive SettlementRequest.Leads (ok : Db → SettlementRequest → Prop) (s₀ : Db) : Db → Prop
  | start : Leads ok s₀ s₀
  | serve {s t n m out} (today : Date) (r : SettlementRequest) :
    Leads ok s₀ s → ok s r → (r.serve today).call s n = (out, t, m) → Leads ok s₀ t

theorem SettlementRequest.call_lawful {r : SettlementRequest} {n m : Name → ℕ}
    {out : Except relational.Exn (List ℕ)} (h : r.Undisturbed s)
    (hc : (r.serve today).call s n = (out, t, m)) : Lawful s t ∧ Final s t := by
  cases out with
  | ok results => exact (Prog.call_ok (SettlementRequest.post_serve h) hc).1
  | error e =>
    have := Prog.call_error hc
    exact ⟨.of_eq <| by rw [this], .of_eq <| by rw [this]⟩

-- Settlements only move along the allowed transitions, and those that are settled never change,
-- unless one that is past COMPUTED is computed again.
theorem settlements_immutable {s₀ : Db} (h : SettlementRequest.Leads SettlementRequest.Undisturbed s₀ s)
    {r : SettlementRequest} (hr : r.Undisturbed s) {n m : Name → ℕ} {out : Except relational.Exn (List ℕ)}
    (hc : (r.serve today).call s n = (out, t, m)) : Lawful s t ∧ Final s₀ t := by
  have final : Final s₀ s := by
    clear hr hc
    induction h with
    | start => exact .of_eq rfl
    | serve today r _ hok hc hi => exact hi.trans (SettlementRequest.call_lawful hok hc).2
  have ⟨hlawful, hfinal⟩ := SettlementRequest.call_lawful hr hc
  exact ⟨hlawful, final.trans hfinal⟩

namespace Sample

def contractedTables : (t : Name) → Table (Rec t)
  | .consultant => Table.empty.insert 1 ⟨1, ⟨3000, by decide⟩, .active, none⟩
  | .user       => Table.empty.insert 1 ⟨"ngozi", "Ngozi Eze", "ngozi@example.org", "", some 1, none, some 1⟩
  | t           => tables t

-- The payer has been registered by a user of a consultant at 30 percent.
def contracted : Db × (Name → ℕ) :=
  (⟨contractedTables, fun _ => []⟩, keys)

def settle (s : Db × (Name → ℕ)) (r : SettlementRequest) : Db × (Name → ℕ) :=
  ((r.serve day).call s.1 s.2).2

def collected : Db × (Name → ℕ) :=
  settle (settle contracted <| .money <| issue [1] false) <| .money <| pay 1 20

def computed : Db × (Name → ℕ) :=
  settle collected <| .compute 1 day day 1

def settled : Db × (Name → ℕ) :=
  settle (settle computed <| .statusChange 1 1 .approved) <| .statusChange 1 1 .settled

-- The consultant gets another rate.
def rerated : Db × (Name → ℕ) :=
  settle settled <| .commissionRate 1 1 ⟨2500, by decide⟩

-- The period of the settled row is computed again.
def recomputed : Db × (Name → ℕ) :=
  settle rerated <| .compute 1 day day 1

theorem leads_settle {ok : Db → SettlementRequest → Prop} {s₀ : Db} {s : Db × (Name → ℕ)}
    {r : SettlementRequest} (h : SettlementRequest.Leads ok s₀ s.1) (hr : ok s.1 r) :
    SettlementRequest.Leads ok s₀ (settle s r).1 :=
  .serve (n := s.2) day r h hr rfl

end Sample

set_option maxRecDepth 20000 in
theorem sample_immutable : Lawful Sample.settled.1 (Sample.settle Sample.settled
      (.compute 1 (Sample.day - 1) Sample.day 1)).1 ∧
    Final Sample.settled.1 (Sample.settle Sample.settled (.compute 1 (Sample.day - 1) Sample.day 1)).1 := by
  have hc : (SettlementRequest.serve Sample.day (.compute 1 (Sample.day - 1) Sample.day 1)).call
    Sample.settled.1 Sample.settled.2 = _ := rfl
  refine settlements_immutable .start ?_ hc
  intro k r hr hfor _
  have hperiods : (Sample.settled.1.table .settlement).rows.all fun r => r.2.periodStart ≠ Sample.day - 1 := by
    decide +kernel
  have := List.all_eq_true.mp hperiods (k, r) <| Table.mem_rows_iff.mpr hr
  exact absurd hfor.periodStart <| by simpa using this

set_option maxRecDepth 20000 in
-- A settled row goes back to COMPUTED, and to another rate.
theorem not_immutable_of_recomputed : ∃ (s t : Db) (r : SettlementRequest) (n m : Name → ℕ)
    (out : List ℕ), SettlementRequest.Leads (fun _ _ => True) Sample.contracted.1 s ∧
      (r.serve Sample.day).call s n = (.ok out, t, m) ∧ ¬Lawful s t ∧ ¬Final s t := by
  have hs : ((Sample.rerated.1.table .settlement).get 1).map (·.status) = some .settled := by decide +kernel
  have ht : ((Sample.recomputed.1.table .settlement).get 1).map (·.status) = some .computed := by
    decide +kernel
  have ⟨r, hr, hstatus⟩ := Option.map_eq_some_iff.mp hs
  have ⟨r', hr', hstatus'⟩ := Option.map_eq_some_iff.mp ht
  have hc := Sample.call_returns (s := Sample.rerated) (a := [1])
    (p := SettlementRequest.serve Sample.day (.compute 1 Sample.day Sample.day 1)) (by decide +kernel)
  refine ⟨Sample.rerated.1, _, _, _, _, _, ?_, hc, fun h => ?_, fun h => ?_⟩
  · repeat' apply Sample.leads_settle
    all_goals first | exact .start | trivial
  · have ⟨_, hr₁, hlawful⟩ := h hr
    have := Option.some.inj <| hr'.symm.trans hr₁
    rw [← this, hstatus, hstatus'] at hlawful
    simp [SettlementStatus.allowedTransitions] at hlawful
  · have := Option.some.inj <| hr'.symm.trans <| h hr hstatus
    rw [this, hstatus] at hstatus'
    contradiction

end Immutability

section Accounts

variable {counted : ℕ → List ℕ} {results : List ℕ}

-- Payments stay on record with what was paid, when, and on which bill.
def PaymentsKept (s t : Db) : Prop :=
  ∀ ⦃k q⦄, (s.table .payment).get k = some q → ∃ q', (t.table .payment).get k = some q' ∧
    fixedColumns .payment q' = fixedColumns .payment q

instance : Std.Refl PaymentsKept where
  refl _ _ q hq := ⟨q, hq, rfl⟩

instance : IsTrans Db PaymentsKept where
  trans _ _ _ h₁ h₂ _ _ hq :=
    have ⟨_, hq', he⟩ := h₁ hq
    have ⟨q'', hq'', he'⟩ := h₂ hq'
    ⟨q'', hq'', he'.trans he⟩

theorem PaymentsKept.of_eq (h : t.table .payment = s.table .payment) : PaymentsKept s t :=
  fun _ q hq => ⟨q, h ▸ hq, rfl⟩

theorem Request.serve_payments {r : Request} : (r.serve today).Keeps PaymentsKept := by
  refine Request.serve_keeps (fun {k q s} _ q' hq' => ?insert) (fun {k g s} hg i q hq => ?modify)
    (fun h => .of_eq <| h .payment (by simp)) (fun {k s} => ?close)
  case insert => exact ⟨q', get_insert_of_some hq', rfl⟩
  case close => exact .of_eq <| modify_table_ne (by decide)
  case modify =>
    rw [modify_table, Table.get_modify]
    split
    case isTrue hi => exact ⟨g q, by rw [← hi, hq]; rfl, hg.fixed q⟩
    case isFalse => exact ⟨q, hq, rfl⟩

-- The payments that a computation of the row sums up.
def countedBy (s : Db) (row : CommissionSettlement) : List ℕ :=
  (s.table .payment).filter
    (counts s row.council row.consultant row.periodStart (row.periodEnd + 1)) |>.map (·.1)

def Db.amountOf (s : Db) (payment : ℕ) : ℤ :=
  ((s.table .payment).get payment |>.map (·.amount.units)).getD 0

-- What is counted after a request that has computed `results`.
def recount (s t : Db) (results : List ℕ) (counted : ℕ → List ℕ) (k : ℕ) : List ℕ :=
  if k ∈ results then ((t.table .settlement).get k |>.map (countedBy s)).getD [] else counted k

-- The states that requests lead to, with the payments that each settlement has counted.
inductive Accounts : Db → (ℕ → List ℕ) → Prop
  | start {s : Db} : s.table .settlement = .empty → Accounts s fun _ => []
  | serve {s t : Db} {counted : ℕ → List ℕ} {results : List ℕ} {n m : Name → ℕ} (today : Date)
    (r : SettlementRequest) :
    Accounts s counted → (r.serve today).call s n = (.ok results, t, m) →
    Accounts t (recount s t results counted)

-- A row that has not been computed is the one from before, except for its status.
structure Recorded (s : Db) (results : List ℕ) (t : Db) : Prop where
  rows     : ∀ {k row}, (t.table .settlement).get k = some row →
    (k ∈ results ∧ row.grossCollections.units =
      grossCollections s row.council row.consultant row.periodStart (row.periodEnd + 1)) ∨
    (k ∉ results ∧ ∃ status, ∃ r, (s.table .settlement).get k = some r ∧ row = { r with status })
  payments : PaymentsKept s t
  one      : OnePerPeriod s → OnePerPeriod t

theorem Recorded.of_eq (h : t.table .settlement = s.table .settlement) (hp : PaymentsKept s t) :
    Recorded s [] t where
  rows {k row} hrow := .inr ⟨List.not_mem_nil, row.status, row, h ▸ hrow, rfl⟩
  payments := hp
  one hone := by
    unfold OnePerPeriod
    rwa [h]

theorem Settled.recorded (h : Settled s council periodStart periodEnd results t) : Recorded s results t where
  rows {k row} hrow := by
    by_cases hk : k ∈ results
    case neg => exact .inr ⟨hk, row.status, row, h.others k hk ▸ hrow, rfl⟩
    case pos =>
      have ⟨row', hrow', hc, _⟩ := h.computed k hk
      rw [hrow, Option.some.injEq] at hrow'
      subst hrow'
      exact .inl ⟨hk, by rw [hc.gross, hc.isFor.council, hc.isFor.periodStart, hc.isFor.periodEnd]⟩
  payments := .of_eq <| h.only .payment (by simp)
  one      := h.one

theorem post_statusChange_recorded {status : SettlementStatus} :
    Prog.Post (statusChange council k status) s <| Prog.OnReturn fun _ t => Recorded s [] t := by
  refine .bind <| post_getObject (fun r hr _ => ?_) fun _ => trivial
  refine post_guard (fun _ => trivial) fun _ => post_save (fun _ _ => ?_) fun _ => trivial
  have rows : ∀ {i row}, ((s.modify .settlement k fun r => { r with status }).table .settlement).get i =
      some row → ∃ status, ∃ r, (s.table .settlement).get i = some r ∧ row = { r with status } := by
    intro i row hrow
    rw [modify_table, Table.get_modify] at hrow
    split at hrow
    case isTrue hi =>
      have ⟨r', hr', he⟩ := Option.map_eq_some_iff.mp hrow
      exact ⟨status, r', hi ▸ hr', he.symm⟩
    case isFalse => exact ⟨row.status, row, hrow, rfl⟩
  refine ⟨fun hrow => .inr ⟨List.not_mem_nil, rows hrow⟩, .of_eq <| modify_table_ne (by decide),
    fun hone i j r r' hr hr' hc hs he => ?_⟩
  have ⟨_, r₁, hr₁, h₁⟩ := rows hr
  have ⟨_, r₂, hr₂, h₂⟩ := rows hr'
  subst h₁ h₂
  exact hone hr₁ hr₂ hc hs he

theorem SettlementRequest.post_recorded {r : SettlementRequest} :
    Prog.Post (r.serve today) s <| Prog.OnReturn fun results t => Recorded s results t := by
  cases r with
  | compute council periodStart periodEnd actor =>
    exact .imp post_computeSettlements fun _ _ ht => ht.recorded
  | statusChange council pk status => exact .seq post_statusChange_recorded fun _ _ ht => .ret ht
  | commissionRate council pk rate =>
    refine .seq (Q := fun _ (t : Db) => Recorded s [] t) ?_ fun _ _ ht => .ret ht
    refine .bind <| post_getObject (fun c _ _ => ?_) fun _ => trivial
    exact post_save (fun _ _ => .of_eq (modify_table_ne <| by decide) <|
      .of_eq <| modify_table_ne <| by decide) fun _ => trivial
  | consultantStatus council pk status =>
    refine .seq (Q := fun _ (t : Db) => Recorded s [] t) ?_ fun _ _ ht => .ret ht
    refine .bind <| post_getObject (fun c _ _ => .bind <| post_select ?_) fun _ => trivial
    refine post_guard (fun _ => trivial) fun _ => ?_
    exact post_save (fun _ _ => .of_eq (modify_table_ne <| by decide) <|
      .of_eq <| modify_table_ne <| by decide) fun _ => trivial
  | money r =>
    refine .seq (.both Request.serve_settlement Request.serve_payments.returns) fun _ _ ht => .ret ?_
    exact .of_eq ht.1 ht.2

-- The payments that a settlement has counted are of its period, each is counted once, and they make up
-- its gross collections.
structure Accounted (s : Db) (counted : ℕ → List ℕ) : Prop where
  gross  : ∀ {k row}, (s.table .settlement).get k = some row →
    row.grossCollections.units = ((counted k).map s.amountOf).sum
  within : ∀ {k row p}, (s.table .settlement).get k = some row → p ∈ counted k →
    ∃ q, (s.table .payment).get p = some q ∧ row.periodStart ≤ q.createdAt ∧ q.createdAt ≤ row.periodEnd
  nodup  : ∀ {k row}, (s.table .settlement).get k = some row → (counted k).Nodup
  one    : OnePerPeriod s

theorem mem_countedBy {row : CommissionSettlement} {p : ℕ} (h : p ∈ countedBy s row) :
    ∃ q, (s.table .payment).get p = some q ∧ row.periodStart ≤ q.createdAt ∧
      q.createdAt ≤ row.periodEnd := by
  have ⟨⟨_, q⟩, hmem, he⟩ := List.mem_map.mp h
  have ⟨hget, hcounts⟩ := Table.mem_filter_iff.mp hmem
  simp only [counts, Bool.and_eq_true, decide_eq_true_eq] at hcounts
  exact ⟨q, he ▸ hget, hcounts.1.2, Nat.lt_succ_iff.mp hcounts.2⟩

theorem countedBy_nodup {row : CommissionSettlement} : (countedBy s row).Nodup := by
  have hsorted := (s.table .payment).sorted.sublist (List.filter_sublist
    (p := fun r => counts s row.council row.consultant row.periodStart (row.periodEnd + 1) r.1 r.2))
  exact List.pairwise_map.mpr <| hsorted.imp fun h => h.ne

theorem sum_countedBy {row : CommissionSettlement} : ((countedBy s row).map s.amountOf).sum =
    grossCollections s row.council row.consultant row.periodStart (row.periodEnd + 1) := by
  refine Eq.trans ?_ <| Table.sum_filter (f := fun _ (p : Payment) => p.amount.units)
  rw [countedBy, List.map_map]
  refine congrArg List.sum <| List.map_congr_left fun r hr => ?_
  rw [Function.comp_apply, Db.amountOf, (Table.mem_filter_iff.mp hr).1]
  rfl

theorem PaymentsKept.amountOf (h : PaymentsKept s t) {p : ℕ} {q : Payment}
    (hq : (s.table .payment).get p = some q) : Db.amountOf t p = s.amountOf p := by
  have ⟨q', hq', he⟩ := h hq
  rw [Db.amountOf, Db.amountOf, hq, hq']
  exact congrArg (fun c : ℕ × Money × Date => c.2.1.units) he

theorem recount_of_mem {row : CommissionSettlement} (h : k ∈ results)
    (hrow : (t.table .settlement).get k = some row) :
    recount s t results counted k = countedBy s row := by
  rw [recount, if_pos h, hrow]
  rfl

theorem recount_of_notMem (h : k ∉ results) : recount s t results counted k = counted k :=
  if_neg h

theorem Accounted.recount (h : Accounted s counted) (hr : Recorded s results t) :
    Accounted t (recount s t results counted) where
  gross {k row} hrow := by
    rcases hr.rows hrow with ⟨hk, hgross⟩ | ⟨hk, _, r, hget, he⟩
    · rw [recount_of_mem hk hrow, hgross, ← sum_countedBy]
      refine congrArg List.sum <| List.map_congr_left fun p hp => ?_
      have ⟨q, hq, _⟩ := mem_countedBy hp
      exact (hr.payments.amountOf hq).symm
    · rw [recount_of_notMem hk, he, h.gross hget]
      refine congrArg List.sum <| List.map_congr_left fun p hp => ?_
      have ⟨q, hq, _⟩ := h.within hget hp
      exact (hr.payments.amountOf hq).symm
  within {k row p} hrow hp := by
    have kept : ∀ {q}, (s.table .payment).get p = some q →
        ∃ q', (t.table .payment).get p = some q' ∧ q'.createdAt = q.createdAt := fun hq => by
      have ⟨q', hq', he⟩ := hr.payments hq
      exact ⟨q', hq', congrArg (fun c : ℕ × Money × Date => c.2.2) he⟩
    rcases hr.rows hrow with ⟨hk, _⟩ | ⟨hk, _, r, hget, he⟩
    · have ⟨q, hq, hday⟩ := mem_countedBy <| recount_of_mem hk hrow ▸ hp
      have ⟨q', hq', hcreated⟩ := kept hq
      exact ⟨q', hq', hcreated ▸ hday⟩
    · have ⟨q, hq, hday⟩ := h.within hget <| recount_of_notMem hk ▸ hp
      have ⟨q', hq', hcreated⟩ := kept hq
      exact ⟨q', hq', he ▸ hcreated ▸ hday⟩
  nodup {k row} hrow := by
    rcases hr.rows hrow with ⟨hk, _⟩ | ⟨hk, _, r, hget, _⟩
    · exact recount_of_mem hk hrow ▸ countedBy_nodup
    · exact recount_of_notMem hk ▸ h.nodup hget
  one := hr.one h.one

theorem Accounts.accounted (h : Accounts s counted) : Accounted s counted := by
  induction h with
  | start h => exact {
      gross  := fun hrow => by simp [h] at hrow
      within := fun hrow => by simp [h] at hrow
      nodup  := fun hrow => by simp [h] at hrow
      one    := fun _ _ _ _ hrow => by simp [h] at hrow
    }
  | serve today r _ hc hi => exact hi.recount (Prog.call_ok SettlementRequest.post_recorded hc).1

-- Two settlements of a consultant are for different periods, and what both count was paid in both
-- periods. The gross collections of each are the sum of the payments that it counts, each counted once.
structure Apart (s : Db) (counted : ℕ → List ℕ) : Prop where
  gross   : ∀ {k row}, (s.table .settlement).get k = some row → (counted k).Nodup ∧
    row.grossCollections.units = ((counted k).map s.amountOf).sum
  periods : ∀ {i j row row'}, i ≠ j → (s.table .settlement).get i = some row →
    (s.table .settlement).get j = some row' → row.consultant = row'.consultant →
    (row.periodStart, row.periodEnd) ≠ (row'.periodStart, row'.periodEnd)
  both    : ∀ {i j row row' p}, (s.table .settlement).get i = some row →
    (s.table .settlement).get j = some row' → p ∈ counted i → p ∈ counted j →
    ∃ q, (s.table .payment).get p = some q ∧ row.periodStart ≤ q.createdAt ∧ q.createdAt ≤ row.periodEnd ∧
      row'.periodStart ≤ q.createdAt ∧ q.createdAt ≤ row'.periodEnd

theorem settlements_apart (h : Accounts s counted) : Apart s counted := by
  have ha := h.accounted
  refine ⟨fun hrow => ⟨ha.nodup hrow, ha.gross hrow⟩, fun hne hrow hrow' hc he => ?_,
    fun hrow hrow' hp hp' => ?_⟩
  · have ⟨hs, he⟩ := Prod.mk.inj he
    exact hne <| ha.one hrow hrow' hc hs he
  · have ⟨q, hq, hday⟩ := ha.within hrow hp
    have ⟨q', hq', hday'⟩ := ha.within hrow' hp'
    obtain rfl := Option.some.inj <| hq.symm.trans hq'
    exact ⟨q, hq, hday.1, hday.2, hday'.1, hday'.2⟩

namespace Sample

-- The day of the payment is settled once more, with the day before it.
def overlapping : Db × (Name → ℕ) :=
  settle computed <| .compute 1 (day - 1) day 1

theorem accounts_settle {s : Db × (Name → ℕ)} {r : SettlementRequest} {counted : ℕ → List ℕ}
    {results : List ℕ} (h : Accounts s.1 counted)
    (hr : ((r.serve day).call s.1 s.2).1.toOption = some results) :
    Accounts (settle s r).1 (recount s.1 (settle s r).1 results counted) :=
  .serve day r h <| call_returns hr

set_option maxRecDepth 20000 in
theorem accounts_overlapping : ∃ counted, Accounts overlapping.1 counted ∧
    counted 1 = [1] ∧ counted 2 = [1] := by
  have hcontracted : Accounts contracted.1 _ := .start rfl
  have hcollected : Accounts collected.1 _ := accounts_settle
    (accounts_settle hcontracted (show _ = some [] by decide +kernel)) (show _ = some [] by decide +kernel)
  have hcomputed : Accounts computed.1 _ := accounts_settle hcollected (show _ = some [1] by decide +kernel)
  have hoverlapping : Accounts overlapping.1 _ :=
    accounts_settle hcomputed (show _ = some [2] by decide +kernel)
  refine ⟨_, hoverlapping, ?_, ?_⟩
  all_goals decide +kernel

end Sample

theorem sample_apart : ∃ counted, Accounts Sample.overlapping.1 counted ∧
    Apart Sample.overlapping.1 counted :=
  have ⟨counted, h, _⟩ := Sample.accounts_overlapping
  ⟨counted, h, settlements_apart h⟩

set_option maxRecDepth 20000 in
-- A payment of a day that two periods share is counted for both.
theorem counted_twice : ∃ (s : Db) (counted : ℕ → List ℕ) (i j p : ℕ) (row row' : CommissionSettlement)
    (q : Payment), Accounts s counted ∧ i ≠ j ∧ (s.table .settlement).get i = some row ∧
      (s.table .settlement).get j = some row' ∧ row.consultant = row'.consultant ∧
      (s.table .payment).get p = some q ∧ q.txnStatus = .confirmed ∧ p ∈ counted i ∧ p ∈ counted j := by
  have ⟨counted, h, h₁, h₂⟩ := Sample.accounts_overlapping
  have hrow : ((Sample.overlapping.1.table .settlement).get 1).map (·.consultant) = some 1 := by
    decide +kernel
  have hrow' : ((Sample.overlapping.1.table .settlement).get 2).map (·.consultant) = some 1 := by
    decide +kernel
  have hq : ((Sample.overlapping.1.table .payment).get 1).map (·.txnStatus) = some .confirmed := by
    decide +kernel
  have ⟨row, hrow, hc⟩ := Option.map_eq_some_iff.mp hrow
  have ⟨row', hrow', hc'⟩ := Option.map_eq_some_iff.mp hrow'
  have ⟨q, hq, hstatus⟩ := Option.map_eq_some_iff.mp hq
  exact ⟨_, counted, 1, 2, 1, row, row', q, h, by decide, hrow, hrow', hc.trans hc'.symm, hq, hstatus,
    by simp [h₁], by simp [h₂]⟩

end Accounts

end ACRev360
