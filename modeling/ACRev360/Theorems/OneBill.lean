import ACRev360.Theorems.Ledger

namespace ACRev360

open Relational Relational.Database

-- The bills that calls of issue_bill leave which run concurrently, neither forced nor with arrears to roll.

variable {s t c d : Db} {k payer year : ℕ} {today : Date}

namespace Db

-- The bill is a live one of the payer from the year.
def LiveBill (s : Db) (payer year k : ℕ) : Prop :=
  ∃ b, (s.table .bill).get k = some b ∧ b.payer = payer ∧ b.createdAt.year = year ∧ b.status.terminal = false

def OneLive (s : Db) : Prop :=
  ∀ ⦃payer year i j⦄, s.LiveBill payer year i → s.LiveBill payer year j → i = j

theorem LiveBill.congr (h : s.LiveBill payer year k) (ht : (t.table .bill).get k = (s.table .bill).get k) :
    t.LiveBill payer year k := by
  obtain ⟨b, hb, hlive⟩ := h
  exact ⟨b, ht.trans hb, hlive⟩

theorem existingBill_some (h : existingBill s payer today = some k) : s.LiveBill payer today.year k := by
  obtain ⟨⟨_, b⟩, hb, rfl⟩ := Option.map_eq_some_iff.mp h
  obtain ⟨hget, hmatch⟩ := Table.first_some hb
  simp only [Bool.and_eq_true, decide_eq_true_eq, Bool.not_eq_true'] at hmatch
  exact ⟨b, hget, hmatch.1.1, hmatch.1.2, hmatch.2⟩

theorem existingBill_none (h : existingBill s payer today = none) : ¬s.LiveBill payer today.year k := by
  rintro ⟨b, hb, hpayer, hyear, hlive⟩
  exact Table.first_none (Option.map_eq_none_iff.mp h) hb <| by simp [hpayer, hyear, hlive]

end Db

section Calls

-- What the others commit while the row of the payer is held, or is not.
structure Undisturbed (payer : ℕ) (held : relational.Row → Bool) (c d : Db) : Prop where
  payers : d.table .payer = c.table .payer
  kept   : ∀ {k b}, (c.table .bill).get k = some b → (d.table .bill).get k = some b
  own    : held (.row .payer payer) → ∀ {k b}, (d.table .bill).get k = some b → b.payer = payer →
    (c.table .bill).get k = some b

theorem Undisturbed.liveBill {held : relational.Row → Bool} (h : Undisturbed payer held c d)
    (hk : c.LiveBill payer year k) : d.LiveBill payer year k := by
  obtain ⟨b, hb, hlive⟩ := hk
  exact ⟨b, h.kept hb, hlive⟩

-- The others bill the payer only while they hold its row.
def issuing (payer : ℕ) : Rely relational.schema where
  guar        := Undisturbed payer
  calm _      := False
  takes _ _ _ := True
  lands _ _   := True
  refl _ _    := ⟨rfl, id, fun _ _ _ h _ => h⟩
  trans h₁ h₂ := {
    payers     := h₂.payers.trans h₁.payers
    kept h     := h₂.kept <| h₁.kept h
    own h _ _ hb hp := h₁.own h (h₂.own h hb hp) hp
  }
  anti hh h   := ⟨h.payers, h.kept, fun hr => h.own <| hh _ hr⟩

variable {x : Txn relational.schema} {seen : List Facet}

-- The transaction holds the row of the payer, who has no live bill of the year, and has written no bill.
structure Ready (payer year : ℕ) (c : Db) (x : Txn relational.schema) : Prop where
  held  : x.held (.row .payer payer)
  none  : ∀ k, ¬c.LiveBill payer year k
  clean : ∀ b : Db, (x.pend b).table .bill = b.table .bill

theorem no_live_of_interf (hx : x.held (.row .payer payer)) (h : ∀ k, ¬c.LiveBill payer year k)
    (hd : Interf (issuing payer) x seen c d) (k : ℕ) : ¬d.LiveBill payer year k := by
  rintro ⟨b, hb, hlive⟩
  exact h k ⟨b, hd.guar.own hx hb hlive.1, hlive⟩

theorem Ready.interf (h : Ready payer year c x) (hd : Interf (issuing payer) x seen c d) : Ready payer year d x where
  held  := h.held
  none  := no_live_of_interf h.held h.none hd
  clean := h.clean

theorem Ready.keeps {α : Type} {p : Service α} (h : Ready payer year c x)
    (hp : p.Keeps (Database.Only [Name.assessment])) :
    p.Wp (issuing payer) (fun _ d y _ => Ready payer year d y) c x seen := by
  have hstay : p.Wp (issuing payer) (fun _ d y seen' => Ready payer year d x ∧ x.Sub y ∧ seen ⊆ seen') c x seen :=
    .stable (fun hd h => Ready.interf h hd) h
  refine (hstay.and <| Prog.Wp.keeps hp).mono fun _ d y _ ⟨⟨hd, hsub, _⟩, hy⟩ => ?_
  exact ⟨hsub _ hd.held, hd.none, fun b => ((hy b) .bill (by simp)).trans <| hd.clean b⟩

-- The row of the bill changes, and stays a live one of its payer from its day.
structure Settling (k : ℕ) (s t : Db) : Prop where
  others : ∀ i, i ≠ k → (t.table .bill).get i = (s.table .bill).get i
  own    : ∀ {b}, (s.table .bill).get k = some b → b.status.terminal = false →
    ∃ b', (t.table .bill).get k = some b' ∧ b'.payer = b.payer ∧ b'.createdAt = b.createdAt ∧
      b'.status.terminal = false

theorem Settling.of_eq (h : t.table .bill = s.table .bill) : Settling k s t where
  others _ _   := by rw [h]
  own hb hlive := ⟨_, h ▸ hb, rfl, rfl, hlive⟩

instance : Std.Refl (Settling k) where
  refl _ := .of_eq rfl

instance : IsTrans Db (Settling k) where
  trans _ _ _ h₁ h₂ := {
    others i hi := (h₂.others i hi).trans (h₁.others i hi)
    own hb hlive := by
      obtain ⟨b₁, hb₁, hpayer₁, hday₁, hlive₁⟩ := h₁.own hb hlive
      obtain ⟨b₂, hb₂, hpayer₂, hday₂, hlive₂⟩ := h₂.own hb₁ hlive₁
      exact ⟨b₂, hb₂, hpayer₂.trans hpayer₁, hday₂.trans hday₁, hlive₂⟩
  }

theorem Settling.modify {g : Bill → Bill} (h : ∀ b, (g b).payer = b.payer ∧ (g b).createdAt = b.createdAt ∧
    (b.status.terminal = false → (g b).status.terminal = false)) : Settling k s (s.modify .bill k g) where
  others i hi := by rw [modify_table, Table.get_modify, if_neg hi]
  own {b} hb hlive := by
    refine ⟨g b, ?_, (h b).1, (h b).2.1, (h b).2.2 hlive⟩
    rw [modify_table, Table.get_modify, if_pos rfl, hb, Option.map_some]

theorem finalizeBill_settling {bill : Loaded Bill} (h : bill.row.status.terminal = false) :
    (finalizeBill today bill).Keeps (Settling bill.id) := by
  refine .bind load_keeps fun _ => .bind (keeps_save fun _ => .modify fun _ => ⟨rfl, rfl, id⟩) fun _ => ?_
  refine .bind (.bind keeps_select fun _ => .bind store_keeps fun _ => .bind store_keeps fun _ => ?_) fun _ => .ret
  refine .bind (keeps_save fun _ => .modify fun _ => ⟨rfl, rfl, fun _ => ?_⟩) fun _ => .ret
  exact statusOf_terminal.trans h

-- The transaction holds the row of the payer, who has no live bill of the year, and has inserted the bill.
structure Opening (payer : ℕ) (today : Date) (k : ℕ) (c : Db) (x : Txn relational.schema) : Prop where
  held   : x.held (.row .payer payer)
  none   : ∀ j, ¬c.LiveBill payer today.year j
  own    : x.held (.row .bill k)
  free   : (c.table .bill).get k = .none
  others : ∀ (b : Db) i, i ≠ k → ((x.pend b).table .bill).get i = (b.table .bill).get i
  row    : ∃ r, ((x.pend c).table .bill).get k = some r ∧ r.payer = payer ∧ r.createdAt = today ∧
    r.status.terminal = false

theorem Opening.interf (h : Opening payer today k c x) (hd : Interf (issuing payer) x seen c d) :
    Opening payer today k d x where
  held   := h.held
  none   := no_live_of_interf h.held h.none hd
  own    := h.own
  free   := (hd.agree _ h.own).1 ▸ h.free
  others := h.others
  row    := by
    obtain ⟨r, hr, hrow⟩ := h.row
    exact ⟨r, (hd.view_agree h.own).1 ▸ hr, hrow⟩

theorem Opening.keeps {α : Type} {p : Service α} (h : Opening payer today k c x) (hp : p.Keeps (Settling k)) :
    p.Wp (issuing payer) (fun _ d y _ => Opening payer today k d y) c x seen := by
  have hstay : p.Wp (issuing payer) (fun _ d y seen' => Opening payer today k d x ∧ x.Sub y ∧ seen ⊆ seen') c x seen :=
    .stable (fun hd h => Opening.interf h hd) h
  refine (hstay.and <| Prog.Wp.keeps hp).mono fun _ d y _ ⟨⟨hd, hsub, _⟩, hy⟩ => ?_
  refine ⟨hsub _ hd.held, hd.none, hsub _ hd.own, hd.free, fun b i hi => ?_, ?_⟩
  · exact ((hy b).others i hi).trans (hd.others b i hi)
  · obtain ⟨r, hr, hpayer, hday, hlive⟩ := hd.row
    obtain ⟨r', hr', hpayer', hday', hlive'⟩ := (hy d).own hr hlive
    exact ⟨r', hr', hpayer'.trans hpayer, hday'.trans hday, hlive'⟩

theorem Ready.opening {row : Bill} (h : Ready payer today.year c x) (hk : (x.pend c).conflicts .bill k row = false)
    (hpayer : row.payer = payer) (hday : row.createdAt = today) (hlive : row.status.terminal = false) :
    Opening payer today k c (x.add (insertAct .bill k row)) := by
  obtain ⟨hretired, hnone, -⟩ := conflicts_false hk
  refine ⟨Txn.add_held.mpr <| .inl h.held, h.none, Txn.add_held.mpr <| .inr <| .head _, ?_, fun b i hi => ?_, row, ?_,
    hpayer, hday, hlive⟩
  · rwa [h.clean] at hnone
  · rw [← h.clean b]
    have hagree : Agree (Row.row (R := relational) Name.bill i) (x.pend b) ((x.pend b).insert .bill k row) :=
      agree_insert_of_ne <| by simpa using hi
    exact hagree.1.symm
  · rw [Txn.add_pend]
    show (Table.get (Database.table (Database.insert (x.pend c) .bill k row) .bill) k) = some row
    rw [insert_table hretired]
    exact Table.get_insert_self hnone

-- How a call of issue_bill ends.
def Closing (payer : ℕ) (today : Date) (c : Db) (x : Txn relational.schema) : Except relational.Exn (ℕ × ℕ) → Prop
  | .ok (k, _) => Opening payer today k c x
  | .error e   => ∀ p, (c.table .payer).get payer = some p → ∀ k, c.LiveBill payer today.year k →
    ∃ j, e = ⟨.duplicateBill j, false⟩ ∧ c.LiveBill payer today.year j

theorem Ready.refused (h : Ready payer today.year c x) {e : relational.Exn} : Closing payer today c x (.error e) :=
  fun _ _ _ hk => (h.none _ hk).elim

theorem Opening.refused (h : Opening payer today k c x) {e : relational.Exn} : Closing payer today c x (.error e) :=
  fun _ _ _ hj => (h.none _ hj).elim

theorem wp_writeBill {r : IssueRequest} {assessments : List AssessmentObject} {dueDate : Date}
    (hroll : r.rollArrears = false) (h : Ready r.payer.id today.year c x) :
    (writeBill today r assessments dueDate).Wp (issuing r.payer.id) (fun out d y _ => Closing r.payer.id today d y out)
      c x seen := by
  have hassessment : ∀ {k : ℕ} {s t : Db}, Database.Only [Name.assessment] s t → Settling k s t :=
    fun h => .of_eq <| h .bill (by simp)
  have hline : ∀ {k i l} {s : Db}, Settling k s (s.insert .line i l) := .of_eq <| insert_table_ne (by decide)
  refine .bind <| wp_create (fun k hk _ d hd => ?_) fun _ _ y hd hsub hy => ?_
  · have hopening := (h.opening hk rfl rfl rfl).interf hd
    rw [hroll]
    have hfresh : (assessments.foldlM (createFreshLine k) []).Keeps (Settling k) := .foldlM fun _ _ =>
      createFreshLine_keeps (P := Settling k) hassessment fun _ => hline
    refine .bind <| (hopening.keeps hfresh).mono fun out d y seen' hopening => ?_
    cases out with
    | error e => exact hopening.refused
    | ok fresh =>
      refine .bind <| .ret <| .bind <|
        (hopening.keeps <| @finalizeBill_settling today ⟨k, _⟩ rfl).mono fun out d y seen' hopening => ?_
      cases out with
      | error e => exact hopening.refused
      | ok _ => exact .ret hopening
  · have hready := h.interf hd
    exact fun _ _ _ hk => (hready.none _ hk).elim

theorem wp_issueBill {r : IssueRequest} (hforce : r.force = false) (hroll : r.rollArrears = false) :
    (issueBill today r).Wp (issuing r.payer.id) (fun out d y _ => Closing r.payer.id today d y out) c .start [] := by
  refine .bind <| .bind <| wp_selectForUpdate (fun row _ _ d hd => .ret ?_) fun hnone d hd => .raise fun p hp => ?absent
  case absent => simp [Txn.start_pend, ← hd.guar.payers, hp] at hnone
  simp only
  rw [if_neg (by simp [hroll])]
  refine .bind <| .bind <| wp_select fun d' hd' => ?_
  have hheld : (Txn.start.add (.look [.row .payer r.payer.id] []) : Txn relational.schema).held
      (.row .payer r.payer.id) := by simp [Act.look]
  simp only [Txn.add_pend, Txn.start_pend, Act.look, id_eq]
  cases hk : existingBill d r.payer.id today with
  | some k =>
    have hlive := hd'.guar.liveBill <| Db.existingBill_some hk
    simp only
    rw [if_neg (by simp [hforce])]
    exact .raise fun _ _ _ _ => ⟨k, rfl, hlive⟩
  | none =>
    have hready : Ready r.payer.id today.year d' (Txn.start.add (.look [.row .payer r.payer.id] [])) :=
      ⟨hheld, no_live_of_interf hheld (fun _ => Db.existingBill_none hk) hd', fun _ => rfl⟩
    refine .ret <| .bind <| (hready.keeps <| mergedAssessments_keeps fun h => h).mono fun out d y seen hready => ?_
    cases out with
    | error e => exact hready.refused
    | ok assessments =>
      refine wp_guard (fun _ => hready.refused) fun _ => ?_
      refine .bind <| (hready.keeps dueDateOf_keeps).mono fun out d y seen hready => ?_
      cases out with
      | error e => exact hready.refused
      | ok dueDate => exact wp_writeBill hroll hready

end Calls

section Runs

variable {ι : Type} {r : IssueRequest}

-- The bill has been opened where the payer had no live one of the year.
structure Opens (payer : ℕ) (today : Date) (k : ℕ) (c d : Db) : Prop where
  none   : ∀ j, ¬c.LiveBill payer today.year j
  free   : (c.table .bill).get k = .none
  others : ∀ i, i ≠ k → (d.table .bill).get i = (c.table .bill).get i
  live   : d.LiveBill payer today.year k

theorem Opens.kept (h : Opens payer today k c d) {i : ℕ} {b : Bill} (hb : (c.table .bill).get i = some b) :
    (d.table .bill).get i = some b := by
  have hi : i ≠ k := by
    rintro rfl
    simp [h.free] at hb
  rw [h.others i hi, hb]

-- A live bill that is there afterwards was there before, or is the one that has been opened.
theorem Opens.live_cases (h : Opens payer today k c d) {payer' year i : ℕ} (hi : d.LiveBill payer' year i) :
    c.LiveBill payer' year i ∨ (i = k ∧ payer' = payer ∧ year = today.year) := by
  by_cases hik : i = k
  case neg => exact .inl <| hi.congr (h.others i hik).symm
  case pos =>
    obtain ⟨b, hb, hpayer, hyear, -⟩ := hi
    obtain ⟨b', hb', hpayer', hyear', -⟩ := h.live
    obtain rfl := Option.some.inj <| (hik ▸ hb).symm.trans hb'
    exact .inr ⟨hik, hpayer.symm.trans hpayer', hyear.symm.trans hyear'⟩

theorem Opens.oneLive (h : Opens payer today k c d) (hc : c.OneLive) : d.OneLive := by
  intro payer' year i j hi hj
  rcases h.live_cases hi with hi | ⟨rfl, rfl, rfl⟩ <;> rcases h.live_cases hj with hj | ⟨rfl, hpayer, hyear⟩
  · exact hc hi hj
  · exact (h.none i <| hpayer ▸ hyear ▸ hi).elim
  · exact (h.none j hj).elim
  · rfl

-- What a call of issue_bill has done when it ends.
structure Concluded (r : IssueRequest) (today : Date) (e : Event relational.schema ι (ℕ × ℕ)) : Prop where
  payers  : e.after.table .payer = e.before.table .payer
  opens   : ∀ {k n}, e.result = .ok (k, n) →
    e.held (.row .payer r.payer.id) ∧ Opens r.payer.id today k e.before e.after
  refused : ∀ {err}, e.result = .error err → e.after = e.before ∧
    ∀ p, (e.before.table .payer).get r.payer.id = some p → ∀ k, Db.LiveBill e.before r.payer.id today.year k →
      ∃ j, err = ⟨.duplicateBill j, false⟩ ∧ Db.LiveBill e.before r.payer.id today.year j

variable {e : Event relational.schema ι (ℕ × ℕ)}

theorem Concluded.kept (h : Concluded r today e) {b : Bill} (hb : (e.before.table .bill).get k = some b) :
    (e.after.table .bill).get k = some b := by
  cases hr : e.result with
  | ok a => exact (h.opens hr).2.kept hb
  | error err => rw [(h.refused hr).1, hb]

theorem Concluded.oneLive (h : Concluded r today e) (hb : Db.OneLive e.before) : Db.OneLive e.after := by
  cases hr : e.result with
  | ok a => exact (h.opens hr).2.oneLive hb
  | error err =>
    rw [(h.refused hr).1]
    exact hb

theorem Concluded.undisturbed (h : Concluded r today e) {held : relational.Row → Bool}
    (hfree : ∀ row, held row → e.held row = false) : Undisturbed payer held e.before e.after where
  payers := h.payers
  kept   := h.kept
  own hp i b hb hpayer := by
    cases hr : e.result with
    | error err => rwa [(h.refused hr).1] at hb
    | ok a =>
      obtain ⟨hheld, hopens⟩ := h.opens hr
      by_cases hi : i = a.1
      case neg => rwa [hopens.others i hi] at hb
      case pos =>
        obtain ⟨b', hb', hpayer', -⟩ := hopens.live
        obtain rfl := Option.some.inj <| (hi ▸ hb).symm.trans hb'
        obtain rfl : payer = r.payer.id := hpayer.symm.trans hpayer'
        simp [hfree _ hp] at hheld

theorem wp_concluded {i : ι} (hforce : r.force = false) (hroll : r.rollArrears = false) :
    (issueBill today r).Wp (issuing r.payer.id) (Sys.Ended (issuing r.payer.id) (Concluded r today) i) c .start [] := by
  have hkeeps : (issueBill today r).Keeps (Database.Only [Name.assessment, Name.bill, Name.line, Name.debtCase]) :=
    issueBill_keeps (fun h => h.mono <| by simp) (only_modify <| by simp) (fun _ => only_insert <| by simp)
      (fun _ => only_modify <| by simp) (only_insert <| by simp) fun _ => only_modify <| by simp
  refine ((wp_issueBill hforce hroll).and <| Prog.Wp.keeps hkeeps).mono fun out d y _ ⟨hend, hy⟩ => ?_
  cases out with
  | error err => exact ⟨rfl, fun h => by contradiction, fun h => ⟨rfl, Except.error.inj h ▸ hend⟩⟩
  | ok a =>
    obtain ⟨k, n⟩ := a
    have hopening : Opening r.payer.id today k d y := hend
    refine ⟨fun _ _ => ⟨hy d .payer (by simp), fun h => ?_, fun h => by contradiction⟩, rfl, fun h => by contradiction,
      fun h => ⟨rfl, fun _ _ _ hk => (hopening.none _ hk).elim⟩⟩
    cases h
    obtain ⟨row, hrow, hpayer, hday, hlive⟩ := hopening.row
    exact ⟨hopening.held, hopening.none, hopening.free, hopening.others d, row, hrow, hpayer, hday ▸ rfl, hlive⟩

-- Each payer has at most one live bill a year. A call opens a bill only where there is none, and is refused by the
-- name of the one that there is.
structure OneBill (calls : ι → IssueRequest) (days : ι → Date) (c : Db)
    (s : Sys relational.schema ι (ℕ × ℕ)) : Prop where
  single  : Db.OneLive s.committed
  kept    : ∀ {k b}, (c.table .bill).get k = some b → (s.committed.table .bill).get k = some b
  opens   : ∀ e ∈ s.log, ∀ {k n}, e.result = .ok (k, n) →
    Opens (calls e.who).payer.id (days e.who) k e.before e.after
  refused : ∀ e ∈ s.log, ∀ {err}, e.result = .error err → e.after = e.before
  named   : ∀ e ∈ s.log, ∀ {k}, Db.LiveBill e.before (calls e.who).payer.id (days e.who).year k →
    (c.table .payer).get (calls e.who).payer.id ≠ none → e.result = .error ⟨.duplicateBill k, false⟩

-- This holds of every schedule.
theorem one_bill_per_year [DecidableEq ι] [Fintype ι] {calls : ι → IssueRequest} {days : ι → Date} {n : Name → ℕ}
    {s : Sys relational.schema ι (ℕ × ℕ)} (hcalls : ∀ i, (calls i).force = false ∧ (calls i).rollArrears = false)
    (hc : c.OneLive) (h : Sys.Run (fun _ _ _ => True) (Sys.start c n fun i => issueBill (days i) (calls i)) s) :
    OneBill calls days c s := by
  have concluded : ∀ e ∈ s.log, Concluded (calls e.who) (days e.who) e :=
    h.sound (L := fun i => issuing (calls i).payer.id) (fun _ _ he _ hfree => he.undisturbed hfree)
      (fun _ _ _ _ => ⟨fun _ _ _ _ _ => trivial, fun _ _ _ _ => trivial, fun _ _ hf => hf.elim⟩)
      fun i d _ => (wp_concluded (hcalls i).1 (hcalls i).2).mono fun r _ _ _ h => by cases r <;> exact h
  have honce := h.linked.before (P := Db.OneLive) hc fun e he => (concluded e he).oneLive
  have hpayers := h.linked.before (P := fun d : Db => d.table .payer = c.table .payer) rfl
    fun e he hp => (concluded e he).payers.trans hp
  refine ⟨h.linked.preserves (P := Db.OneLive) hc fun e he => (concluded e he).oneLive, fun {k b} hb => ?_,
    fun e he _ _ hr => ((concluded e he).opens hr).2, fun e he _ hr => ((concluded e he).refused hr).1,
    fun e he k hk hp => ?_⟩
  · exact h.linked.preserves (P := fun d : Db => (d.table .bill).get k = some b) hb fun e he => (concluded e he).kept
  · obtain ⟨p, hp⟩ := Option.ne_none_iff_exists'.mp hp
    cases hr : e.result with
    | ok a => exact (((concluded e he).opens hr).2.none k hk).elim
    | error err =>
      obtain ⟨j, rfl, hj⟩ := ((concluded e he).refused hr).2 p (hpayers e he ▸ hp) k hk
      rw [honce e he hk hj]

end Runs

namespace Sample

-- Two users bill the payer at the same time.
def doubleIssue : Bool → IssueRequest :=
  fun _ => ⟨1, Sample.payer, none, [entry 1], false, false, 1, false⟩

def bothBilling : Sys relational.schema Bool (ℕ × ℕ) :=
  (Sys.start council keys fun i => issueBill day (doubleIssue i)).exec ((List.replicate 30 [true, false]).flatten)

end Sample

set_option maxRecDepth 20000 in
theorem sample_one_bill : Sample.bothBilling.log.map (·.result.toOption) = [none, some (1, 0)] ∧
    OneBill Sample.doubleIssue (fun _ => Sample.day) Sample.council Sample.bothBilling := by
  refine ⟨by decide +kernel, one_bill_per_year (fun _ => ⟨rfl, rfl⟩) (fun _ _ i _ hi => ?_) <| .exec .start _⟩
  obtain ⟨b, hb, -⟩ := hi
  simp [Sample.council_initial.bill] at hb

end ACRev360
