import ACRev360.Services.Deletions
import ACRev360.Theorems.Ledger
import ACRev360.Theorems.Reckoning

namespace ACRev360

open Relational Relational.Database

variable {s t u : Db} {b k council pk : ℕ} {today : Date}

-- Following superseded_by from the bill reaches a bill that is not superseded.
inductive Owned (s : Db) : ℕ → Prop
  | live {b r} : (s.table .bill).get b = some r → r.status ≠ .superseded → Owned s b
  | next {b r k} : (s.table .bill).get b = some r → r.supersededBy = some k → Owned s k → Owned s b

-- A bill is superseded if and only if superseded_by is set, and what is superseded has a live owner.
structure Succeeded (s : Db) : Prop where
  set   : ∀ {b r}, (s.table .bill).get b = some r → (r.status = .superseded ↔ r.supersededBy.isSome)
  owned : ∀ {b r}, (s.table .bill).get b = some r → Owned s b

-- No successor has been removed while its predecessors stay superseded.
def SuccessorsKept (s t : Db) : Prop :=
  ∀ ⦃b r k r'⦄, (s.table .bill).get b = some r → r.supersededBy = some k → (t.table .bill).get k = none →
    (t.table .bill).get b = some r' → r'.status ≠ .superseded

theorem Owned.exists_row (h : Owned s b) : ∃ r, (s.table .bill).get b = some r := by
  cases h with
  | live hr => exact ⟨_, hr⟩
  | next hr => exact ⟨_, hr⟩

theorem Succeeded.successor {r : Bill} (h : Succeeded s) (hr : (s.table .bill).get b = some r)
    (hk : r.supersededBy = some k) : Owned s k := by
  cases h.owned hr with
  | live hr' hlive =>
    obtain rfl := Option.some.inj <| hr.symm.trans hr'
    exact absurd ((h.set hr).mpr <| by simp [hk]) hlive
  | next hr' hk' howned =>
    obtain rfl := Option.some.inj <| hr.symm.trans hr'
    obtain rfl := Option.some.inj <| hk.symm.trans hk'
    exact howned

theorem Succeeded.successorsKept (h : Succeeded s)
    (hkept : ∀ {k r}, (s.table .bill).get k = some r → ∃ r', (t.table .bill).get k = some r') :
    SuccessorsKept s t := by
  intro b r k r' hr hk hnone
  have ⟨_, hrk⟩ := (h.successor hr hk).exists_row
  have ⟨_, hrk'⟩ := hkept hrk
  simp [hnone] at hrk'

section Steps

-- The bills are superseded as they have been.
def SameLinks (s t : Db) : Prop :=
  ∀ k, ((t.table .bill).get k).map (fun r => (r.supersededBy, decide (r.status = .superseded))) =
    ((s.table .bill).get k).map fun r => (r.supersededBy, decide (r.status = .superseded))

theorem SameLinks.get {r : Bill} (h : SameLinks s t) (hr : (s.table .bill).get k = some r) :
    ∃ r', (t.table .bill).get k = some r' ∧ r'.supersededBy = r.supersededBy ∧
      (r'.status = .superseded ↔ r.status = .superseded) := by
  have hk := h k
  rw [hr, Option.map_some] at hk
  have ⟨r', hr', he⟩ := Option.map_eq_some_iff.mp hk
  have ⟨hnext, hstatus⟩ := Prod.mk.inj he
  exact ⟨r', hr', hnext, decide_eq_decide.mp hstatus⟩

theorem SameLinks.symm (h : SameLinks s t) : SameLinks t s :=
  fun k => (h k).symm

theorem SameLinks.owned (h : SameLinks s t) (hb : Owned s b) : Owned t b := by
  induction hb with
  | live hr hlive =>
    have ⟨r', hr', _, hstatus⟩ := h.get hr
    exact .live hr' <| hstatus.not.mpr hlive
  | next hr hk _ hi =>
    have ⟨r', hr', hnext, _⟩ := h.get hr
    exact .next hr' (hnext.trans hk) hi

theorem SameLinks.succeeded (h : SameLinks s t) (hs : Succeeded s) : Succeeded t where
  set hr'   := by
    have ⟨r, hr, hnext, hstatus⟩ := h.symm.get hr'
    rw [← hnext, ← hstatus]
    exact hs.set hr
  owned hr' := by
    have ⟨r, hr, _⟩ := h.symm.get hr'
    exact h.owned <| hs.owned hr

-- Recomputing a bill does not change whether it is superseded.
theorem Reckoned.sameLinks {paid : ℚ} (h : Reckoned today b paid s t) : SameLinks s t := by
  intro k
  by_cases hk : k = b
  case neg => rw [h.others k hk]
  case pos =>
    have ⟨r, x, total, arrears, hr, _, _, _, hr'⟩ := h.row
    rw [hk, hr, hr']
    simp only [Option.map_some, Option.some.injEq, Prod.mk.injEq, true_and, decide_eq_decide]
    unfold statusOf
    split
    case isTrue => rfl
    case isFalse hlive =>
      have : r.status ≠ .superseded := fun he => hlive <| by rw [he]; rfl
      repeat' split
      all_goals simp [this]

theorem Issued.bills {r : IssueRequest} {rolled : List ℕ} (hi : Issued r b rolled s t) {x : Bill}
    (hx : (s.table .bill).get k = some x) : (t.table .bill).get k =
      some (if k ∈ rolled then supersede b x else x) := by
  have hk : k ≠ b := fun he => by simp [he, hi.absent] at hx
  rw [hi.others k hk, hx, Option.map_some]

-- The bills that a bill supersedes are owned by it.
theorem Issued.succeeded {r : IssueRequest} {rolled : List ℕ} (hi : Issued r b rolled s t) (hs : Succeeded s) :
    Succeeded t := by
  obtain ⟨row, hrow, _, _, _, _, _, hlive, hnone⟩ := hi.row
  have hlive : row.status ≠ .superseded := fun he => by simp [he, BillStatus.terminal] at hlive
  have howner : Owned t b := .live hrow hlive
  have rolled_owned : ∀ {k x}, (s.table .bill).get k = some x → k ∈ rolled → Owned t k := fun hx hmem =>
    .next (by rw [hi.bills hx, if_pos hmem]) rfl howner
  have owned : ∀ {k}, Owned s k → Owned t k := by
    intro k hk
    induction hk with
    | @live i x hx hlive =>
      by_cases hmem : i ∈ rolled
      · exact rolled_owned hx hmem
      · exact .live (by rw [hi.bills hx, if_neg hmem]) hlive
    | @next i x j hx hk _ ih =>
      by_cases hmem : i ∈ rolled
      · exact rolled_owned hx hmem
      · exact .next (by rw [hi.bills hx, if_neg hmem]) hk ih
  have cases : ∀ {k x'}, (t.table .bill).get k = some x' → k = b ∨ ∃ x, (s.table .bill).get k = some x ∧
      x' = if k ∈ rolled then supersede b x else x := by
    intro k x' hx'
    by_cases hk : k = b
    case pos => exact .inl hk
    case neg =>
      rw [hi.others k hk] at hx'
      obtain ⟨x, hx, he⟩ := Option.map_eq_some_iff.mp hx'
      exact .inr ⟨x, hx, he.symm⟩
  constructor
  case set =>
    intro k x' hx'
    rcases cases hx' with rfl | ⟨x, hx, rfl⟩
    · obtain rfl := Option.some.inj <| hrow.symm.trans hx'
      simp [hlive, hnone]
    · split
      · simp [supersede]
      · exact hs.set hx
  case owned =>
    intro k x' hx'
    rcases cases hx' with rfl | ⟨x, hx, _⟩
    · exact howner
    · exact owned <| hs.owned hx

end Steps

section Destroying

-- A line of another bill cites an assessment that a line of the bill cites.
def SharesAssessment (s : Db) (b : ℕ) : Prop :=
  ∃ j l k l', (s.table .line).get j = some l ∧ l.bill = b ∧ (s.table .line).get k = some l' ∧
    l'.bill ≠ b ∧ l'.assessment = l.assessment

-- A bill whose successor is no more.
def Bill.forget (pk : ℕ) (r : Bill) : Bill :=
  if r.supersededBy = some pk then { r with supersededBy := none } else r

-- What deleting a bill has done.
structure Destroyed (pk : ℕ) (s t : Db) : Prop where
  bill       : ∀ k, (t.table .bill).get k =
    if k = pk then none else ((s.table .bill).get k).map (Bill.forget pk)
  line       : ∀ k l, (t.table .line).get k = some l ↔ (s.table .line).get k = some l ∧ l.bill ≠ pk
  assessment : ∀ {k a}, (t.table .assessment).get k = some a → (s.table .assessment).get k = some a
  -- The lines that go with the bill have no allocations.
  unpaid     : ∀ {k a l}, (s.table .allocation).get k = some a → (s.table .line).get a.line = some l →
    l.bill ≠ pk
  only       : Database.Only [Name.assessment, Name.bill, Name.line, Name.debtCase] s t

theorem mem_supersedes : k ∈ supersedes s b ↔ ∃ r, (s.table .bill).get k = some r ∧ r.supersededBy = some b := by
  simp [supersedes, Table.mem_filter_iff]

theorem post_unsetSuccessors {ks : List ℕ} : Prog.Post (ks.forM unsetSuccessor) s <| Prog.OnReturn fun _ t =>
    (∀ k, (t.table .bill).get k = ((s.table .bill).get k).map fun r =>
      if k ∈ ks then { r with supersededBy := none } else r) ∧ Database.Only [Name.bill] s t := by
  induction ks generalizing s with
  | nil => exact .ret ⟨fun k => by simp, Std.Refl.refl _⟩
  | cons i ks hi =>
    have unset : Prog.Post (unsetSuccessor i) s <| Prog.OnReturn fun _ t => t.table .bill =
        (s.table .bill).modify i (fun r => { r with supersededBy := none }) ∧ Database.Only [Name.bill] s t := by
      refine .bind <| post_update (fun _ _ => .ret ⟨rfl, only_modify <| .head _⟩) fun hn => .ret ⟨?_, Std.Refl.refl _⟩
      rw [Table.modify_of_none hn]
    refine .seq unset fun _ s₁ ⟨h₁, ho₁⟩ => .imp hi fun _ t ⟨ht, ho⟩ => ⟨fun k => ?_, IsTrans.trans _ _ _ ho₁ ho⟩
    rw [ht, h₁, Table.get_modify]
    by_cases hk : k = i
    case pos =>
      subst hk
      rw [if_pos rfl, Option.map_map]
      congr 1
      funext r
      simp
    case neg => simp [hk]

theorem post_deleteLines {ks : List ℕ} : Prog.Post (ks.forM fun k => delete .line k : Service Unit) s <|
    Prog.OnReturn fun _ t => (∀ k, (t.table .line).get k = if k ∈ ks then none else (s.table .line).get k) ∧
      Database.Only [Name.line] s t := by
  induction ks generalizing s with
  | nil => exact .ret ⟨fun k => by simp, Std.Refl.refl _⟩
  | cons i ks hi =>
    have delete : Prog.Post (delete .line i : Service Unit) s <| Prog.OnReturn fun _ t =>
        (∀ k, (t.table .line).get k = if k = i then none else (s.table .line).get k) ∧
          Database.Only [Name.line] s t := by
      refine post_delete (fun _ _ => ⟨fun k => ?_, only_erase <| .head _⟩) fun hn => ⟨fun k => ?_, Std.Refl.refl _⟩
      · rw [erase_table, Table.get_erase]
      · split
        · rwa [‹k = i›]
        · rfl
    refine .seq delete fun _ s₁ ⟨h₁, ho₁⟩ => .imp hi fun _ t ⟨ht, ho⟩ => ⟨fun k => ?_, IsTrans.trans _ _ _ ho₁ ho⟩
    rw [ht, h₁]
    by_cases hk : k = i <;> simp [hk]

theorem post_removeCase {case : Option (Loaded DebtCase)} :
    Prog.Post (do
      if let some case := case then remove .debtCase case.id
      delete .bill b : Service Unit) s <| Prog.OnReturn fun _ t =>
        (∀ k, (t.table .bill).get k = if k = b then none else (s.table .bill).get k) ∧
          Database.Only [Name.bill, Name.debtCase] s t := by
  have rest : ∀ {u : Db}, u.table .bill = s.table .bill → Database.Only [Name.bill, Name.debtCase] s u →
      Prog.Post (delete .bill b : Service Unit) u (Prog.OnReturn fun _ t =>
        (∀ k, (t.table .bill).get k = if k = b then none else (s.table .bill).get k) ∧
          Database.Only [Name.bill, Name.debtCase] s t) := by
    intro u hbill ho
    refine post_delete (fun _ _ => ⟨fun k => ?_, IsTrans.trans _ _ _ ho <| only_erase <| .head _⟩) fun hn =>
      ⟨fun k => ?_, ho⟩
    · rw [erase_table, Table.get_erase, hbill]
    · rw [hbill] at hn ⊢
      split
      · rwa [‹k = b›]
      · rfl
  split
  case h_1 case =>
    refine .bind <| post_remove (fun _ _ => rest (erase_table_ne (by decide)) <| only_erase <| by simp) fun _ => ?_
    exact rest rfl <| Std.Refl.refl _
  case h_2 => exact rest rfl <| Std.Refl.refl _

theorem post_deleteBill : Prog.Post (deleteBill b) s <| Prog.OnReturn fun _ t => Destroyed b s t ∧
    t.table .assessment = s.table .assessment := by
  refine .bind <| post_select <| .bind <| post_select <| post_guard (fun _ => trivial) fun hfree => ?_
  refine .bind <| post_select <| .seq post_unsetSuccessors fun _ s₁ ⟨h₁, ho₁⟩ => ?_
  refine .seq post_deleteLines fun _ s₂ ⟨h₂, ho₂⟩ => .imp post_removeCase fun _ t ⟨ht, ho⟩ => ?_
  have ho : Database.Only [Name.bill, Name.line, Name.debtCase] s t := IsTrans.trans _ _ _ (ho₁.mono <| by simp) <|
    IsTrans.trans _ _ _ (ho₂.mono <| by simp) (ho.mono <| by simp)
  have hmem : ∀ {k l}, (s.table .line).get k = some l → (k ∈ (s.linesOf b).map Loaded.id ↔ l.bill = b) := by
    intro k l hl
    constructor
    · intro hk
      have ⟨l', hl', he⟩ := List.mem_map.mp hk
      have ⟨hget, hb⟩ := mem_linesOf.mp hl'
      rw [he, hl, Option.some.injEq] at hget
      rwa [hget]
    · exact fun hb => List.mem_map.mpr ⟨⟨k, l⟩, mem_linesOf.mpr ⟨hl, hb⟩, rfl⟩
  refine ⟨⟨fun k => ?bill, fun k l => ?line, fun ha => ho .assessment (by simp) ▸ ha, fun {k a l} ha hl hb => ?unpaid,
    ho.mono <| by simp⟩, ho .assessment (by simp)⟩
  case bill =>
    rw [ht, ho₂ .bill (by simp), h₁]
    split
    case isTrue => rfl
    case isFalse =>
      cases hr : (s.table .bill).get k with
      | none => rfl
      | some r => simp [mem_supersedes, hr, Bill.forget]
  case line =>
    rw [‹Database.Only [Name.bill, Name.debtCase] s₂ t› .line (by simp), h₂, ho₁ .line (by simp)]
    cases hl : (s.table .line).get k with
    | none => simp
    | some l' =>
      simp only [hmem hl]
      split
      case isTrue hb =>
        simp only [reduceCtorEq, Option.some.injEq, false_iff]
        rintro ⟨rfl, hne⟩
        exact hne hb
      case isFalse hb =>
        simp only [Option.some.injEq]
        exact ⟨fun he => ⟨he, he ▸ hb⟩, And.left⟩
  case unpaid =>
    simp only [Bool.or_eq_true, not_or, List.any_eq_true, not_exists, not_and] at hfree
    refine hfree.2 a.line ((hmem hl).mpr hb) ?_
    exact Table.isSome_first.mpr ⟨k, a, ha, by simp⟩

theorem post_deleteAssessments {ids : List ℕ} : Prog.Post (deleteAssessments ids) s <|
    Prog.OnReturn fun _ t => (∀ {k l}, (s.table .line).get k = some l → l.assessment ∉ ids) ∧
      Database.Only [Name.assessment] s t ∧
      ∀ {k a}, (t.table .assessment).get k = some a → (s.table .assessment).get k = some a := by
  refine .bind <| post_select <| post_guard (fun _ => trivial) fun hnone => ?_
  let I (t : Db) := Database.Only [Name.assessment] s t ∧
    ∀ {k a}, (t.table .assessment).get k = some a → (s.table .assessment).get k = some a
  have delete : Prog.Post (ids.forM fun a => delete .assessment a : Service Unit) s <| Prog.OnReturn fun _ t => I t := by
    refine Prog.Post.forM (S := relational.schema) (I := I) (fun k _ {t} ⟨ho, ht⟩ => ?_) ⟨Std.Refl.refl _, id⟩
    refine post_delete (fun _ _ => ⟨IsTrans.trans _ _ _ ho <| only_erase <| .head _, fun {i a} ha => ?_⟩)
      fun _ => ⟨ho, ht⟩
    rw [erase_table, Table.get_erase] at ha
    split at ha
    · contradiction
    · exact ht ha
  refine .imp delete fun _ t ht => ⟨fun {k l} hl hmem => ?_, ht.1, ht.2⟩
  have := Table.first_none (by simpa using hnone) hl
  simp [hmem] at this

-- A bill is deleted if it has no payments and shares no assessment with another bill.
theorem post_destroy : Prog.Post (destroy council pk) s <| Prog.OnReturn fun _ t =>
    (∃ r, (s.table .bill).get pk = some r ∧ r.council = council) ∧ hasPayments s pk = false ∧
      ¬SharesAssessment s pk ∧ Destroyed pk s t := by
  refine .bind <| post_getObject (fun r hr hc => .bind ?_) fun _ => trivial
  refine post_select <| post_guard (fun _ => trivial) fun hpaid => .bind <| post_select ?_
  refine .seq post_deleteBill fun _ s₁ ⟨h₁, hassessment⟩ => ?_
  refine .imp post_deleteAssessments fun _ t ⟨hnone, ho, ht⟩ =>
    ⟨⟨r, hr, by simpa using hc⟩, by simpa using hpaid, ?shares, ?destroyed⟩
  case shares =>
    rintro ⟨j, l, k, l', hl, hb, hl', hb', hshared⟩
    refine hnone ((h₁.line k l').mpr ⟨hl', hb'⟩) <| List.mem_map.mpr ⟨⟨j, l⟩, mem_linesOf.mpr ⟨hl, hb⟩, hshared.symm⟩
  case destroyed =>
    refine ⟨fun k => ?_, fun k l => ?_, fun ha => h₁.assessment <| ht ha, h₁.unpaid,
      IsTrans.trans _ _ _ h₁.only (ho.mono <| by simp)⟩
    · rw [ho .bill (by simp), h₁.bill]
    · rw [ho .line (by simp), h₁.line]

-- The other bills stay as they are if the bill succeeds none.
theorem Destroyed.erase (h : Destroyed pk s t) (hnone : supersedes s pk = []) :
    t.table .bill = (s.table .bill).erase pk := Table.ext_get fun k => by
  rw [h.bill, Table.get_erase]
  split
  case isTrue => rfl
  case isFalse =>
    cases hr : (s.table .bill).get k with
    | none => rfl
    | some r =>
      have hfree : r.supersededBy ≠ some pk := fun he => by
        have := mem_supersedes.mpr ⟨r, hr, he⟩
        simp [hnone] at this
      simp [Bill.forget, hfree]

-- A bill that succeeds none can be deleted.
theorem Succeeded.deleted (hs : Succeeded s) (hnone : supersedes s pk = [])
    (ht : t.table .bill = (s.table .bill).erase pk) : Succeeded t := by
  have hfree : ∀ {k r}, (s.table .bill).get k = some r → r.supersededBy ≠ some pk := by
    intro k r hr hk
    have := mem_supersedes.mpr ⟨r, hr, hk⟩
    simp [hnone] at this
  have get : ∀ {k}, k ≠ pk → (t.table .bill).get k = (s.table .bill).get k := fun hk => by
    rw [ht, Table.get_erase, if_neg hk]
  have get_some : ∀ {k r}, (t.table .bill).get k = some r → k ≠ pk ∧ (s.table .bill).get k = some r := by
    intro k r hr
    have hk : k ≠ pk := fun he => by simp [ht, he] at hr
    exact ⟨hk, get hk ▸ hr⟩
  have owned : ∀ {k}, Owned s k → k ≠ pk → Owned t k := by
    intro k hk
    induction hk with
    | live hr hlive => exact fun hne => .live (get hne ▸ hr) hlive
    | next hr hk _ hi => exact fun hne => .next (get hne ▸ hr) hk <| hi fun he => hfree hr <| he ▸ hk
  constructor
  case set => exact fun hr => hs.set (get_some hr).2
  case owned =>
    intro k r hr
    have ⟨hne, hr⟩ := get_some hr
    exact owned (hs.owned hr) hne

end Destroying

section Runs

-- A bill is deleted only if it succeeds none. What is refused does not matter.
def BillRequest.Spares (s : Db) : BillRequest → Prop
  | billing _          => True
  | destroy council pk => ∀ ⦃r⦄, (s.table .bill).get pk = some r → r.council = council →
    hasPayments s pk ∨ SharesAssessment s pk ∨ supersedes s pk = []

-- What has been served, the last first.
abbrev BillHistory :=
  List (Prog.Served relational.schema (Date × BillRequest))

-- The runs of requests that work on bills and delete them, from the time before any bill is issued.
abbrev BillSession (ok : BillHistory → Db → Date × BillRequest → Prop) : BillHistory → Db → Prop :=
  Prog.Session Db.Initial (fun r : Date × BillRequest => r.2.serve r.1) ok

theorem Succeeded.billing {r : Request} (hs : Succeeded s) (hsourced : Sourced s) :
    Prog.Post (r.serve today) s <| Prog.OnReturn fun _ t => Succeeded t ∧ SuccessorsKept s t := by
  refine post_serve_cases hsourced (fun _ hi => ⟨hi.succeeded hs, ?_⟩) fun _ _ _ hr => ⟨hr.sameLinks.succeeded hs, ?_⟩
  · exact hs.successorsKept fun hx => ⟨_, hi.bills hx⟩
  · refine hs.successorsKept fun hx => ?_
    have ⟨r', hr', _⟩ := hr.sameLinks.get hx
    exact ⟨r', hr'⟩

theorem Succeeded.serve {r : BillRequest} (hs : Succeeded s) (hsourced : Sourced s) (hr : r.Spares s) :
    Prog.Post (r.serve today) s <| Prog.OnReturn fun _ t => Succeeded t ∧ SuccessorsKept s t := by
  cases r with
  | billing r => exact hs.billing hsourced
  | destroy council pk =>
    refine .imp post_destroy fun _ t ⟨⟨r, hget, hc⟩, hpaid, halone, hgone⟩ => ?_
    have hnone : supersedes s pk = [] := by
      rcases hr hget hc with h | h | h
      · simp [hpaid] at h
      · exact absurd h halone
      · exact h
    have hbill := hgone.erase hnone
    refine ⟨hs.deleted hnone hbill, fun b r k r' hr hk hgone hr' => ?_⟩
    have ⟨_, hrk⟩ := (hs.successor hr hk).exists_row
    have hk' : k = pk := by
      by_contra hne
      simp [hbill, Table.get_erase, hne, hrk] at hgone
    have := mem_supersedes.mpr ⟨r, hr, hk' ▸ hk⟩
    simp [hnone] at this

namespace Sample

-- The state and the sequences after the request.
def undo (s : Db × (Name → ℕ)) (r : BillRequest) : Db × (Name → ℕ) :=
  ((r.serve day).call s.1 s.2).2

-- The bill is superseded by one that charges its item again.
def succeeded : Db × (Name → ℕ) :=
  undo (undo start <| .billing <| issue [1] false) <| .billing <| issue [1] true

-- The successor is deleted.
def orphaned : Db × (Name → ℕ) :=
  undo succeeded <| .destroy 1 2

theorem billSession_undo {ok : BillHistory → Db → Date × BillRequest → Prop} {past : BillHistory}
    {s : Db × (Name → ℕ)} {r : BillRequest} (h : BillSession ok past s.1) (hr : ok past s.1 (day, r)) :
    BillSession ok (⟨(day, r), s.1, (undo s r).1⟩ :: past) (undo s r).1 :=
  .serve (n := s.2) (day, r) h hr rfl

end Sample

-- In every run in which only bills are deleted that succeed none, superseded debt has a live owner.
theorem debt_owned {past : BillHistory} (h : BillSession (fun _ s r => r.2.Spares s) past s) :
    Succeeded s ∧ ∀ x ∈ past, SuccessorsKept x.before x.after := by
  have all : (Sourced s ∧ Succeeded s) ∧ ∀ x ∈ past, SuccessorsKept x.before x.after := by
    refine Prog.Session.preserves h (P := fun past s => (Sourced s ∧ Succeeded s) ∧
        ∀ x ∈ past, SuccessorsKept x.before x.after)
      (fun {s} hi => ?start) (fun {past s r} ⟨⟨hsourced, hs⟩, hp⟩ hok => ?serve) fun {past s r} ⟨hs, hp⟩ => ?fail
    case start =>
      refine ⟨⟨fun _ _ ha => ?_, fun hr => ?_, fun hr => ?_⟩, List.forall_mem_nil _⟩
      · simp [hi.allocation] at ha
      · simp [hi.bill] at hr
      · simp [hi.bill] at hr
    case serve =>
      refine .imp (hs.serve hsourced hok) fun _ t ⟨ht, hkept⟩ hv => ?_
      exact ⟨⟨fun _ _ ha => valid_ref hv ha (.head _), ht⟩, List.forall_mem_cons.mpr ⟨hkept, hp⟩⟩
    case fail =>
      exact ⟨hs, List.forall_mem_cons.mpr ⟨hs.2.successorsKept fun hr => ⟨_, hr⟩, hp⟩⟩
  exact ⟨all.1.2, all.2⟩

theorem sample_owned : ∃ past : BillHistory, past.length = 2 ∧ Succeeded Sample.succeeded.1 ∧
    ∀ x ∈ past, SuccessorsKept x.before x.after := by
  have hs : BillSession (fun _ s r => r.2.Spares s) _ Sample.succeeded.1 :=
    Sample.billSession_undo (Sample.billSession_undo (.start Sample.council_initial) trivial) trivial
  exact ⟨_, rfl, debt_owned hs⟩

set_option maxRecDepth 20000 in
-- The bill stays superseded without a successor.
theorem not_succeeded_of_deleted : ∃ (past : BillHistory) (s : Db), BillSession (fun _ _ _ => True) past s ∧
    ¬Succeeded s ∧ ¬(∀ b r, (s.table .bill).get b = some r → Owned s b) ∧
      ∃ x ∈ past, ¬SuccessorsKept x.before x.after := by
  have hs : BillSession (fun _ _ _ => True) _ Sample.orphaned.1 := Sample.billSession_undo
    (Sample.billSession_undo (Sample.billSession_undo (.start Sample.council_initial) trivial) trivial) trivial
  have hbefore : ((Sample.succeeded.1.table .bill).get 1).any (·.supersededBy = some 2) := by decide +kernel
  have hafter : ((Sample.orphaned.1.table .bill).get 1).any (fun r => r.status = .superseded ∧
      r.supersededBy = none) ∧ (Sample.orphaned.1.table .bill).get 2 = none := by decide +kernel
  have ⟨r, hr, hk⟩ := (Option.any_eq_true _ _).mp hbefore
  have ⟨r', hr', hlost⟩ := (Option.any_eq_true _ _).mp hafter.1
  have ⟨hstatus, hnone⟩ := of_decide_eq_true hlost
  refine ⟨_, _, hs, fun h => ?set, fun h => ?owned, _, .head _, fun h => ?kept⟩
  case set => simpa [hnone] using (h.set hr').mp hstatus
  case owned =>
    cases h 1 r' hr' with
    | live hx hlive =>
      obtain rfl := Option.some.inj <| hr'.symm.trans hx
      exact hlive hstatus
    | next hx hnext =>
      obtain rfl := Option.some.inj <| hr'.symm.trans hx
      simp [hnone] at hnext
  case kept => exact h hr (of_decide_eq_true hk) hafter.2 hr' hstatus

end Runs

end ACRev360
