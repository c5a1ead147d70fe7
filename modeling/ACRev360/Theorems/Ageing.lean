import ACRev360.Theorems.DebtCases

namespace ACRev360

open Relational Relational.Database

variable {s t u : Db} {b k pk council : ℕ} {today day : Date}

section Order

-- The buckets from the youngest on.
def AgeingBucket.rank : AgeingBucket → ℕ
  | upTo30 => 0
  | upTo60 => 1
  | upTo90 => 2
  | over90 => 3

-- How far up the ladder a stage is.
def EnforcementStage.rung (stage : EnforcementStage) : ℕ :=
  enforcementLadder.idxOf stage

theorem bucketFor_mono {m n : ℕ} (h : m ≤ n) : (bucketFor m).rank ≤ (bucketFor n).rank := by
  unfold bucketFor
  split_ifs <;> first | omega | decide

theorem EnforcementStage.rung_le (stage : EnforcementStage) : stage.rung ≤ rung .closed := by
  cases stage <;> decide

end Order

section Closing

-- Cases are closed, and nothing else happens to them.
def OnlyClosed (today : Date) (s t : Db) : Prop :=
  ∀ k, (t.table .debtCase).get k = (s.table .debtCase).get k ∨
    (t.table .debtCase).get k = ((s.table .debtCase).get k).map (closing today)

theorem OnlyClosed.of_eq (h : t.table .debtCase = s.table .debtCase) : OnlyClosed today s t :=
  fun _ => .inl <| by rw [h]

instance : Std.Refl (OnlyClosed today) where
  refl _ := .of_eq rfl

instance : IsTrans Db (OnlyClosed today) where
  trans s t u h₁ h₂ k := by
    rcases h₂ k with h | h
    · rw [h]
      exact h₁ k
    · refine .inr ?_
      rw [h]
      rcases h₁ k with h' | h' <;> rw [h']
      rw [Option.map_map]
      rfl

theorem onlyClosed_serve {r : Request} : (r.serve today).Keeps (OnlyClosed today) := by
  refine Request.serve_keeps (.of_eq <| insert_table_ne (by decide)) (fun _ => .of_eq <| modify_table_ne (by decide))
    (fun h => .of_eq <| h .debtCase (by simp)) fun {k s} i => ?_
  rw [modify_table, Table.get_modify]
  split
  case isTrue hk => exact .inr <| hk ▸ rfl
  case isFalse => exact .inl rfl

end Closing

section Refreshing

-- Cases get another bucket, and the new ones begin at the first notice.
structure OnlyAged (s t : Db) : Prop where
  kept   : ∀ {k c}, (s.table .debtCase).get k = some c → ∃ bucket,
    (t.table .debtCase).get k = some { c with ageingBucket := bucket }
  opened : ∀ {k c}, (t.table .debtCase).get k = some c → (s.table .debtCase).get k = none →
    c.enforcementStage = .firstNotice ∧ c.closedAt = none

theorem OnlyAged.of_eq (h : t.table .debtCase = s.table .debtCase) : OnlyAged s t where
  kept {k c} hc    := ⟨c.ageingBucket, h ▸ hc⟩
  opened hc hnone := by simp [← h, hc] at hnone

instance : Std.Refl OnlyAged where
  refl _ := .of_eq rfl

instance : IsTrans Db OnlyAged where
  trans s t u h₁ h₂ := by
    constructor
    case kept =>
      intro k c hc
      obtain ⟨_, hc'⟩ := h₁.kept hc
      obtain ⟨bucket, hc''⟩ := h₂.kept hc'
      exact ⟨bucket, hc''⟩
    case opened =>
      intro k c hc hnone
      cases hget : (t.table .debtCase).get k with
      | none => exact h₂.opened hc hget
      | some c' =>
        obtain ⟨_, hc'⟩ := h₂.kept hget
        obtain rfl := Option.some.inj <| hc.symm.trans hc'
        obtain ⟨hstage, hclosed⟩ := h₁.opened hget hnone
        exact ⟨hstage, hclosed⟩

theorem OnlyAged.insert {c : DebtCase} (hstage : c.enforcementStage = .firstNotice) (hclosed : c.closedAt = none) :
    OnlyAged s (s.insert .debtCase k c) where
  kept {_ c} hc     := ⟨c.ageingBucket, get_insert_of_some hc⟩
  opened hc hnone := by
    rcases get_insert_cases hc with ⟨-, rfl⟩ | hc
    · exact ⟨hstage, hclosed⟩
    · simp [hc] at hnone

theorem OnlyAged.modify {bucket : AgeingBucket} :
    OnlyAged s (s.modify .debtCase k fun c => { c with ageingBucket := bucket }) where
  kept {_ c} hc := by
    obtain ⟨_, hc', rfl | rfl⟩ := get_modify_of_some hc
    · exact ⟨bucket, hc'⟩
    · exact ⟨_, hc'⟩
  opened hc hnone := by
    obtain ⟨_, hc', -⟩ := get_modify_cases hc
    simp [hc'] at hnone

theorem onlyAged_refreshDebt : (refreshDebt council today).Keeps OnlyAged := by
  refine .bind keeps_select fun bills => .foldlM fun n bill => ?_
  refine when_keeps (keeps_save fun _ => .of_eq <| modify_table_ne (by decide)) ?_
  refine .bind keeps_select fun case => ?_
  split
  case h_1 => exact .bind (keeps_create fun _ _ => .insert rfl rfl) fun _ => .ret
  case h_2 =>
    split
    case isTrue => exact .bind (keeps_save fun _ => .modify) fun _ => .ret
    case isFalse => exact .ret

namespace Renewed

-- A case of `t` is from before or has the bucket of the days its bill is overdue.
theorem case_cases {c : DebtCase} (h : Renewed today (overdueBills s council today) s t)
    (hc : (t.table .debtCase).get k = some c) : (s.table .debtCase).get k = some c ∨
      ∃ r, (s.table .bill).get c.bill = some r ∧ r.dueDate < today ∧ c.ageingBucket = bucketFor (today - r.dueDate) := by
  by_cases hclosed : c.enforcementStage = .closed
  case pos => exact .inl <| (h.closed k c hclosed).mp hc
  case neg =>
    by_cases hmem : c.bill ∈ (overdueBills s council today).map Loaded.id
    case neg => exact .inl <| (h.others k c hmem).mp hc
    case pos =>
      obtain ⟨x, hx, hid⟩ := List.mem_map.mp hmem
      obtain ⟨hget, -, -, hdue⟩ := mem_overdueBills.mp hx
      obtain ⟨i, c', hc', hbill, hbucket⟩ := h.case x hx
      obtain rfl := h.one.eq hc hc' <| hid.symm.trans hbill.symm
      obtain rfl := Option.some.inj <| hc.symm.trans hc'
      exact .inr ⟨x.row, hid ▸ hget, hdue, hbucket hclosed⟩

theorem overdue {r : Bill} (h : Renewed today (overdueBills s council today) s t) (hr : (t.table .bill).get b = some r)
    (hcouncil : r.council = council) (hopen : r.status.isOpen) (hdue : r.dueDate < today) : r.status = .overdue ∧
      ∃ x ∈ overdueBills s council today, x.id = b ∧ x.row.dueDate = r.dueDate := by
  rw [h.bill] at hr
  obtain ⟨r₀, hr₀, he⟩ := Option.map_eq_some_iff.mp hr
  split at he
  case isTrue hmem =>
    obtain ⟨x, hx, hid⟩ := List.mem_map.mp hmem
    have hget := (mem_overdueBills.mp hx).1
    rw [hid, hr₀, Option.some.injEq] at hget
    exact ⟨he ▸ rfl, x, hx, hid, by rw [← he, ← hget]⟩
  case isFalse hmem =>
    refine absurd (List.mem_map.mpr ⟨(⟨b, r⟩ : Loaded Bill), ?_, rfl⟩) hmem
    exact mem_overdueBills.mpr ⟨he ▸ hr₀, hcouncil, hopen, hdue⟩

end Renewed

-- The cases of the open bills of the council that are past due have the buckets of their days overdue, unless
-- they are closed.
def Bucketed (council : ℕ) (today : Date) (s : Db) : Prop :=
  ∀ ⦃k c r⦄, (s.table .debtCase).get k = some c → (s.table .bill).get c.bill = some r → r.council = council →
    r.status.isOpen → r.dueDate < today → c.enforcementStage ≠ .closed → c.ageingBucket = bucketFor (today - r.dueDate)

theorem Renewed.bucketed (h : Renewed today (overdueBills s council today) s t) : Bucketed council today t := by
  intro k c r hc hr hcouncil hopen hdue hstage
  obtain ⟨-, x, hx, hid, he⟩ := h.overdue hr hcouncil hopen hdue
  obtain ⟨i, c', hc', hbill, hbucket⟩ := h.case x hx
  obtain rfl := h.one.eq hc hc' <| hid.symm.trans hbill.symm
  obtain rfl := Option.some.inj <| hc.symm.trans hc'
  exact he ▸ hbucket hstage

-- A bill that has been aged is left alone.
theorem post_ageBill_again {x : Loaded Bill} {case : Loaded DebtCase} {n : ℕ × ℕ} (hx : x.row.status = .overdue)
    (hcase : s.debtCaseOf x.id = some case)
    (hbucket : case.row.enforcementStage ≠ .closed → case.row.ageingBucket = bucketFor (today - x.row.dueDate)) :
    Prog.Post (ageBill council today n x) s fun out t => out = .ok n ∧ t = s := by
  unfold ageBill
  refine post_when (fun h => absurd hx h) fun _ => ?_
  refine .bind <| post_select ?_
  simp only [hcase]
  split
  case isTrue hstale =>
    simp only [Bool.and_eq_true, decide_eq_true_eq] at hstale
    exact absurd (hbucket hstale.2) hstale.1
  case isFalse => exact .ret ⟨rfl, rfl⟩

theorem post_refreshDebt_again (h : Renewed today (overdueBills s council today) s t) :
    Prog.Post (refreshDebt council today) t fun out u => out = .ok (0, 0) ∧ u = t := by
  refine .bind <| post_select ?_
  have hbills : ∀ x ∈ overdueBills t council today, x.row.status = .overdue ∧ ∃ case, t.debtCaseOf x.id = some case ∧
      (case.row.enforcementStage ≠ .closed → case.row.ageingBucket = bucketFor (today - x.row.dueDate)) := by
    intro x hx
    obtain ⟨hget, hcouncil, hopen, hdue⟩ := mem_overdueBills.mp hx
    obtain ⟨hstatus, y, hy, hid, he⟩ := h.overdue hget hcouncil hopen hdue
    obtain ⟨i, c, hc, hbill, -⟩ := h.case y hy
    refine ⟨hstatus, ?_⟩
    cases hcase : t.debtCaseOf x.id with
    | none => exact absurd (hbill.trans hid) <| debtCaseOf_none hcase hc
    | some case =>
      obtain ⟨hget', hbill'⟩ := debtCaseOf_some hcase
      exact ⟨case, rfl, h.bucketed hget' (hbill' ▸ hget) hcouncil hopen hdue⟩
  generalize overdueBills t council today = bills at hbills
  induction bills with
  | nil => exact .ret ⟨rfl, rfl⟩
  | cons x bills hi =>
    obtain ⟨hstatus, case, hcase, hbucket⟩ := hbills x <| .head _
    refine .bind <| (post_ageBill_again hstatus hcase hbucket).mono fun out u hu => ?_
    obtain ⟨rfl, rfl⟩ := hu
    exact hi fun y hy => hbills y <| .tail _ hy

end Refreshing

section Escalation

-- The case `c` has moved up one rung of the ladder, to `c'`.
structure Climbed (today : Date) (pk : ℕ) (c c' : DebtCase) (s t : Db) : Prop where
  before : (s.table .debtCase).get pk = some c
  after  : (t.table .debtCase).get pk = some c'
  rung   : c'.enforcementStage.rung = c.enforcementStage.rung + 1
  row    : c' = { c with
    enforcementStage := c'.enforcementStage
    reminderCount    := c.reminderCount + 1
    closedAt         := if c'.enforcementStage = .closed then some today else c.closedAt }
  others : ∀ k ≠ pk, (t.table .debtCase).get k = (s.table .debtCase).get k
  only   : Database.Only [Name.debtCase] s t

-- A case that has moved up was not closed.
theorem Climbed.closed {c c' : DebtCase} (h : Climbed today pk c c' s t)
    (hc : c.closedAt.isSome ↔ c.enforcementStage = .closed) : c'.closedAt.isSome ↔ c'.enforcementStage = .closed := by
  have hopen : c.enforcementStage ≠ .closed := fun he => by
    have hrung := h.rung
    have hle := c'.enforcementStage.rung_le
    rw [he] at hrung
    omega
  have hclosedAt : c'.closedAt = if c'.enforcementStage = .closed then some today else c.closedAt := by
    conv_lhs => rw [h.row]
  rw [hclosedAt]
  split
  case isTrue hclosed => simp [hclosed]
  case isFalse hnot => simp only [hc, hopen, hnot]

theorem rung_next {stage : EnforcementStage} (h : ¬enforcementLadder.length - 1 ≤ enforcementLadder.idxOf stage) :
    (enforcementLadder.getD (enforcementLadder.idxOf stage + 1) .closed).rung = stage.rung + 1 := by
  cases stage <;> first | rfl | exact absurd (by decide) h

theorem post_escalate_climbed : Prog.Post (escalateView today council pk) s <| Prog.OnReturn fun _ t =>
    ∃ c c', Climbed today pk c c' s t := by
  refine .bind <| post_getObject (fun c hc _ => ?_) fun _ => trivial
  refine post_guard (fun _ => trivial) fun hladder => post_save (fun _ _ => ⟨c, ?_⟩) fun _ => trivial
  constructor
  constructor
  case before => exact hc
  case after =>
    rw [modify_table, Table.get_modify, if_pos rfl, hc]
    rfl
  case rung   => exact rung_next hladder
  case row    => rfl
  case others => exact fun k hk => by rw [modify_table, Table.get_modify, if_neg hk]
  case only   => exact only_modify <| .head _

end Escalation

section Invariant

-- The bucket of each case is the one its bill has had on a day up to `today`, and a case has a date of closing
-- exactly when it is closed.
structure Ageing (today : Date) (s : Db) : Prop where
  sourced : Sourced s
  one     : s.OneCase
  bill    : ∀ {k c}, (s.table .debtCase).get k = some c → ∃ r, (s.table .bill).get c.bill = some r
  closed  : ∀ {k c}, (s.table .debtCase).get k = some c → (c.closedAt.isSome ↔ c.enforcementStage = .closed)
  since   : ∀ {k c r}, (s.table .debtCase).get k = some c → (s.table .bill).get c.bill = some r →
    ∃ day ≤ today, r.dueDate < day ∧ c.ageingBucket = bucketFor (day - r.dueDate)

-- Bills stay, with their due dates.
def DueKept (s t : Db) : Prop :=
  ∀ ⦃b r⦄, (s.table .bill).get b = some r → ∃ r', (t.table .bill).get b = some r' ∧ r'.dueDate = r.dueDate

theorem DueKept.of_eq (h : t.table .bill = s.table .bill) : DueKept s t :=
  fun _ r hr => ⟨r, h ▸ hr, rfl⟩

theorem dueKept_serve {r : Request} (hs : Sourced s) :
    Prog.Post (r.serve today) s <| Prog.OnReturn fun _ t => DueKept s t := by
  refine post_serve_cases hs (fun {q k t} _ hi b r hr => ?issue) fun {b bill t} _ _ _ ht k r hr => ?recompute
  case issue =>
    have hne : b ≠ k := fun he => by simp [he, hi.absent] at hr
    rw [hi.others b hne, hr, Option.map_some]
    refine ⟨_, rfl, ?_⟩
    split <;> rfl
  case recompute =>
    by_cases hk : k = b
    case neg => exact ⟨r, by rw [ht.others k hk, hr], rfl⟩
    case pos =>
      obtain ⟨r', _, _, _, hr', _, _, _, ht'⟩ := ht.row
      rw [← hk, hr, Option.some.injEq] at hr'
      rw [hk]
      exact ⟨_, ht', by rw [hr']⟩

namespace Ageing

theorem mono (h : Ageing day s) (hle : day ≤ today) : Ageing today s where
  sourced := h.sourced
  one     := h.one
  bill    := h.bill
  closed  := h.closed
  since hc hr := by
    obtain ⟨d, hd, hdue, hbucket⟩ := h.since hc hr
    exact ⟨d, hd.trans hle, hdue, hbucket⟩

theorem of_valid (h : Ageing today s) (hv : Database.valid t) (hone : t.OneCase) (hdue : DueKept s t)
    (hcase : ∀ {k c' r'}, (t.table .debtCase).get k = some c' → (t.table .bill).get c'.bill = some r' →
      (c'.closedAt.isSome ↔ c'.enforcementStage = .closed) ∧
      ((∃ c, (s.table .debtCase).get k = some c ∧ c'.bill = c.bill ∧ c'.ageingBucket = c.ageingBucket) ∨
        r'.dueDate < today ∧ c'.ageingBucket = bucketFor (today - r'.dueDate))) : Ageing today t := by
  have hbill : ∀ {k c'}, (t.table .debtCase).get k = some c' → ∃ r', (t.table .bill).get c'.bill = some r' :=
    fun {_ c'} hc' => valid_ref hv hc' (by simp : (Name.bill, c'.bill) ∈ relational.refs Name.debtCase c')
  constructor
  case sourced => exact sourced_of_valid hv
  case one => exact hone
  case bill => exact hbill
  case closed =>
    intro k c' hc'
    obtain ⟨r', hr'⟩ := hbill hc'
    exact (hcase hc' hr').1
  case since =>
    intro k c' r' hc' hr'
    rcases (hcase hc' hr').2 with ⟨c, hc, hb, hbucket⟩ | ⟨hlt, hbucket⟩
    · obtain ⟨r, hr⟩ := h.bill hc
      obtain ⟨r'', hr'', hdue⟩ := hdue hr
      rw [← hb, hr', Option.some.injEq] at hr''
      subst hr''
      rw [hbucket, hdue]
      exact h.since hc hr
    · exact ⟨today, le_rfl, hlt, hbucket⟩

-- A case that is in `t` is from before.
theorem one_of_bill (hs : s.OneCase) (h : ∀ {k c'}, (t.table .debtCase).get k = some c' →
    ∃ c, (s.table .debtCase).get k = some c ∧ c'.bill = c.bill) : t.OneCase := by
  have holds : ∀ {u k}, Holds t u .debtCase k → Holds s u .debtCase k := by
    rintro u k ⟨c', hc', hu⟩
    obtain ⟨c, hc, hbill⟩ := h hc'
    refine ⟨c, hc, ?_⟩
    simpa only [uniqueKeys, hbill] using hu
  exact fun _ _ _ hj hk => hs (holds hj) (holds hk)

end Ageing

-- How a request moves the stage of the case `k`.
def DebtRequest.Moves (k : ℕ) (old new : EnforcementStage) : DebtRequest → Prop
  | billing _     => new = old ∨ new = .closed
  | refresh _     => new = old
  | escalate _ pk => new = old ∨ k = pk ∧ new.rung = old.rung + 1

-- The cases stay, none of them in a younger bucket, with the stages that the request moves them to.
def Advances (r : DebtRequest) (s t : Db) : Prop :=
  ∀ ⦃k c⦄, (s.table .debtCase).get k = some c → ∃ c', (t.table .debtCase).get k = some c' ∧ c'.bill = c.bill ∧
    c.ageingBucket.rank ≤ c'.ageingBucket.rank ∧ r.Moves k c.enforcementStage c'.enforcementStage

namespace Ageing

theorem billing {r : Request} (h : Ageing today s) : Prog.Post (r.serve today) s <| Prog.OnReturn fun _ t =>
    Database.valid t → Ageing today t ∧ Advances (.billing r) s t := by
  refine .imp (.both onlyClosed_serve.returns <| dueKept_serve h.sourced) fun _ t hpost hv => ?_
  obtain ⟨hclosed, hdue⟩ := hpost
  have hcase : ∀ {k c'}, (t.table .debtCase).get k = some c' →
      ∃ c, (s.table .debtCase).get k = some c ∧ (c' = c ∨ c' = closing today c) := by
    intro k c' hc'
    rcases hclosed k with he | he <;> rw [hc'] at he
    · exact ⟨c', he.symm, .inl rfl⟩
    · obtain ⟨c, hc, hclosing⟩ := Option.map_eq_some_iff.mp he.symm
      exact ⟨c, hc, .inr hclosing.symm⟩
  refine ⟨h.of_valid hv (one_of_bill h.one fun hc' => ?one) hdue fun {k c' r'} hc' hr' => ?case, fun k c hc => ?advances⟩
  case one =>
    obtain ⟨c, hc, rfl | rfl⟩ := hcase hc' <;> exact ⟨_, hc, rfl⟩
  case case =>
    obtain ⟨c, hc, rfl | rfl⟩ := hcase hc'
    · exact ⟨h.closed hc, .inl ⟨_, hc, rfl, rfl⟩⟩
    · exact ⟨by simp, .inl ⟨c, hc, rfl, rfl⟩⟩
  case advances =>
    rcases hclosed k with he | he <;> rw [hc] at he
    · exact ⟨c, he, rfl, le_rfl, .inl rfl⟩
    · exact ⟨_, he, rfl, le_rfl, .inr rfl⟩

theorem escalate (h : Ageing today s) : Prog.Post (escalateView today council pk) s <| Prog.OnReturn fun _ t =>
    Database.valid t → Ageing today t ∧ Advances (.escalate council pk) s t := by
  refine .imp post_escalate_climbed fun _ t hpost hv => ?_
  obtain ⟨c₀, c₁, ht⟩ := hpost
  have hbill : t.table .bill = s.table .bill := ht.only .bill (by simp)
  have hsame : c₁.bill = c₀.bill ∧ c₁.ageingBucket = c₀.ageingBucket := by
    rw [ht.row]
    exact ⟨rfl, rfl⟩
  have hcase : ∀ {k c'}, (t.table .debtCase).get k = some c' → (k = pk ∧ c' = c₁) ∨ (s.table .debtCase).get k = some c' := by
    intro k c' hc'
    by_cases hk : k = pk
    case neg => exact .inr <| ht.others k hk ▸ hc'
    case pos =>
      rw [hk, ht.after, Option.some.injEq] at hc'
      exact .inl ⟨hk, hc'.symm⟩
  refine ⟨h.of_valid hv (one_of_bill h.one fun hc' => ?one) (.of_eq hbill) fun {k c' r'} hc' hr' => ?case, fun k c hc => ?advances⟩
  case one =>
    obtain ⟨rfl, rfl⟩ | hc := hcase hc'
    · exact ⟨c₀, ht.before, hsame.1⟩
    · exact ⟨_, hc, rfl⟩
  case case =>
    obtain ⟨rfl, rfl⟩ | hc := hcase hc'
    · exact ⟨ht.closed <| h.closed ht.before, .inl ⟨c₀, ht.before, hsame⟩⟩
    · exact ⟨h.closed hc, .inl ⟨_, hc, rfl, rfl⟩⟩
  case advances =>
    by_cases hk : k = pk
    case neg => exact ⟨c, (ht.others k hk).trans hc, rfl, le_rfl, .inl rfl⟩
    case pos =>
      obtain rfl : c₀ = c := Option.some.inj <| ht.before.symm.trans <| hk ▸ hc
      exact ⟨c₁, hk ▸ ht.after, hsame.1, hsame.2 ▸ le_rfl, .inr ⟨hk, ht.rung⟩⟩

theorem refresh (h : Ageing today s) : Prog.Post (refreshDebt council today) s <| Prog.OnReturn fun _ t =>
    Database.valid t → Ageing today t ∧ Advances (.refresh council) s t := by
  refine .imp (.both (post_refreshDebt h.one) onlyAged_refreshDebt.returns) fun _ t hpost hv => ?_
  obtain ⟨ht, haged⟩ := hpost
  have hdue : DueKept s t := by
    intro b r hr
    rw [ht.bill, hr, Option.map_some]
    refine ⟨_, rfl, ?_⟩
    split <;> rfl
  refine ⟨h.of_valid hv ht.one hdue fun {k c' r'} hc' hr' => ⟨?closed, ?bucket⟩, fun k c hc => ?advances⟩
  case closed =>
    cases hget : (s.table .debtCase).get k with
    | none =>
      obtain ⟨hstage, hclosed⟩ := haged.opened hc' hget
      simp [hstage, hclosed]
    | some c =>
      obtain ⟨_, hkept⟩ := haged.kept hget
      obtain rfl := Option.some.inj <| hc'.symm.trans hkept
      show c.closedAt.isSome ↔ c.enforcementStage = .closed
      exact h.closed hget
  case bucket =>
    rcases ht.case_cases hc' with hc | ⟨r, hr, hlt, hbucket⟩
    · exact .inl ⟨c', hc, rfl, rfl⟩
    · obtain ⟨r'', hr'', he⟩ := hdue hr
      rw [hr', Option.some.injEq] at hr''
      rw [hr'', he]
      exact .inr ⟨hlt, hbucket⟩
  case advances =>
    obtain ⟨bucket, hc'⟩ := haged.kept hc
    refine ⟨_, hc', rfl, ?_, rfl⟩
    rcases ht.case_cases hc' with hsame | ⟨r, hr, -, hbucket⟩
    · rw [hc, Option.some.injEq] at hsame
      exact (congrArg (AgeingBucket.rank ∘ DebtCase.ageingBucket) hsame).le
    · obtain ⟨d, hd, -, hold⟩ := h.since hc hr
      rw [hbucket, hold]
      exact bucketFor_mono <| Nat.sub_le_sub_right hd _

end Ageing

end Invariant

section Runs

-- The runs in which the clock does not go back.
abbrev AgeingSession : DebtHistory → Db → Prop :=
  DebtSession fun past _ r => ∀ x ∈ past, x.request.1 ≤ r.1

-- The cases stay, none of them in a younger bucket or in an earlier stage.
def Onward (s t : Db) : Prop :=
  ∀ ⦃k c⦄, (s.table .debtCase).get k = some c → ∃ c', (t.table .debtCase).get k = some c' ∧ c'.bill = c.bill ∧
    c.ageingBucket.rank ≤ c'.ageingBucket.rank ∧ c.enforcementStage.rung ≤ c'.enforcementStage.rung

instance : Std.Refl Onward where
  refl _ _ c hc := ⟨c, hc, rfl, le_rfl, le_rfl⟩

instance : IsTrans Db Onward where
  trans _ _ _ h₁ h₂ _ _ hc := by
    obtain ⟨c', hc', hbill, hbucket, hstage⟩ := h₁ hc
    obtain ⟨c'', hc'', hbill', hbucket', hstage'⟩ := h₂ hc'
    exact ⟨c'', hc'', hbill'.trans hbill, hbucket.trans hbucket', hstage.trans hstage'⟩

theorem DebtRequest.Moves.rung_le {r : DebtRequest} {old new : EnforcementStage} (h : r.Moves k old new) :
    old.rung ≤ new.rung := by
  cases r with
  | billing =>
    rcases h with rfl | rfl
    · exact le_rfl
    · exact old.rung_le
  | refresh =>
    obtain rfl : new = old := h
    exact le_rfl
  | escalate =>
    rcases h with rfl | ⟨-, hrung⟩
    · exact le_rfl
    · omega

theorem DebtRequest.Moves.refl {r : DebtRequest} {stage : EnforcementStage} : r.Moves k stage stage := by
  cases r with
  | billing  => exact .inl rfl
  | refresh  => exact rfl
  | escalate => exact .inl rfl

theorem Advances.refl {r : DebtRequest} : Advances r s s :=
  fun _ c hc => ⟨c, hc, rfl, le_rfl, .refl⟩

theorem Advances.onward {r : DebtRequest} (h : Advances r s t) : Onward s t := by
  intro k c hc
  obtain ⟨c', hc', hbill, hbucket, hstage⟩ := h hc
  exact ⟨c', hc', hbill, hbucket, hstage.rung_le⟩

theorem Ageing.serve {r : DebtRequest} (h : Ageing today s) : Prog.Post (r.serve today) s <| Prog.OnReturn fun _ t =>
    Database.valid t → Ageing today t ∧ Advances r s t := by
  cases r with
  | billing r           => exact h.billing
  | refresh council     => exact .seq h.refresh fun _ _ ht => .ret ht
  | escalate council pk => exact h.escalate

-- What a run has done to the debt cases.
structure Matured (past : DebtHistory) (s : Db) : Prop where
  closed : ∀ {k c}, (s.table .debtCase).get k = some c → (c.closedAt.isSome ↔ c.enforcementStage = .closed)
  steps  : ∀ x ∈ past, Advances x.request.2 x.before x.after
  onward : ∀ x ∈ past, Onward x.before s

theorem AgeingSession.matured {past : DebtHistory} (h : AgeingSession past s) : Matured past s := by
  have hrun : (∀ day, (∀ x ∈ past, x.request.1 ≤ day) → Ageing day s) ∧
      (∀ x ∈ past, Advances x.request.2 x.before x.after) ∧ ∀ x ∈ past, Onward x.before s := by
    refine Prog.Session.preserves h (P := fun past s => (∀ day, (∀ x ∈ past, x.request.1 ≤ day) → Ageing day s) ∧
      (∀ x ∈ past, Advances x.request.2 x.before x.after) ∧ ∀ x ∈ past, Onward x.before s)
      (fun {s} hinit => ?start) (fun {past s r} hp hok => ?serve) fun {past s r} hp => ?fail
    case start =>
      obtain ⟨hi, hc⟩ := hinit
      have hnone : ∀ k, (s.table .debtCase).get k = none := fun k => hc ▸ Table.get_empty
      refine ⟨fun day _ => ?_, by simp, by simp⟩
      exact {
        sourced := hi.tallied.sourced
        one     := by
          rintro _ _ _ ⟨_, hj, -⟩
          simp [hnone] at hj
        bill    := fun hk => by simp [hnone] at hk
        closed  := fun hk => by simp [hnone] at hk
        since   := fun hk => by simp [hnone] at hk }
    case serve =>
      obtain ⟨today, r⟩ := r
      refine .imp (hp.1 today hok).serve fun _ t ht hv => ?_
      obtain ⟨hageing, hadvances⟩ := ht hv
      refine ⟨fun day hday => hageing.mono <| hday _ <| .head _, ?_, ?_⟩
      · exact List.forall_mem_cons.mpr ⟨hadvances, hp.2.1⟩
      · refine List.forall_mem_cons.mpr ⟨hadvances.onward, fun x hx => ?_⟩
        exact IsTrans.trans _ _ _ (hp.2.2 x hx) hadvances.onward
    case fail =>
      refine ⟨fun day hday => hp.1 day fun x hx => hday x <| .tail _ hx, ?_, ?_⟩
      · exact List.forall_mem_cons.mpr ⟨.refl, hp.2.1⟩
      · exact List.forall_mem_cons.mpr ⟨Std.Refl.refl _, hp.2.2⟩
  refine ⟨fun {k c} hc => ?_, hrun.2.1, hrun.2.2⟩
  have hageing := hrun.1 (past.map fun x => x.request.1).sum fun x hx => List.single_le_sum (by simp) _ <| List.mem_map_of_mem hx
  exact hageing.closed hc

namespace Sample

-- Half of the bill is paid, and a month after it was due its case is taken up and escalated.
def reminded : Db × (Name → ℕ) :=
  debts (debts inDebt late <| .escalate 1 1) (late + 30) <| .refresh 1

end Sample

end Runs

end ACRev360
