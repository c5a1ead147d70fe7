import ACRev360.Services.Retirement
import ACRev360.Theorems.Coverage
import ACRev360.Theorems.DebtCases

namespace ACRev360

open Relational Relational.Database

variable {s t u : Db} {b k council : ℕ} {today : Date} {ok : ℕ → Prop}

def Db.Active (s : Db) (item : ℕ) : Prop :=
  ∃ i, (s.table .item).get item = some i ∧ i.isActive

theorem Db.active_congr (h : t.table .item = s.table .item) : t.Active = s.Active := by
  funext item
  rw [Active, Active, h]

-- The assessment is of an item that is `ok`.
def Cited (ok : ℕ → Prop) (s : Db) (k : ℕ) : Prop :=
  ∃ a, (s.table .assessment).get k = some a ∧ ok a.item

-- The assessments and the lines of `t` that are not those of `s` are of items that are `ok`.
structure Restricted (ok : ℕ → Prop) (s t : Db) : Prop where
  kept       : ∀ {k a}, (s.table .assessment).get k = some a →
    ∃ a', (t.table .assessment).get k = some a' ∧ a'.item = a.item
  assessment : ∀ {k a'}, (t.table .assessment).get k = some a' →
    (∃ a, (s.table .assessment).get k = some a ∧ a'.item = a.item ∧ (a'.status = .draft → a.status = .draft)) ∨
      ok a'.item ∧ (s.table .assessment).get k = none
  line       : ∀ {k l'}, (t.table .line).get k = some l' →
    (∃ l, (s.table .line).get k = some l ∧ l'.bill = l.bill ∧ l'.assessment = l.assessment) ∨
      Cited ok t l'.assessment

theorem Cited.of_restricted (h : Cited ok s k) (ht : Restricted ok s t) : Cited ok t k := by
  have ⟨a, ha, hok⟩ := h
  have ⟨a', ha', hitem⟩ := ht.kept ha
  exact ⟨a', ha', hitem ▸ hok⟩

namespace Restricted

theorem of_eq (ha : t.table .assessment = s.table .assessment) (hl : t.table .line = s.table .line) :
    Restricted ok s t where
  kept ha'       := ⟨_, ha ▸ ha', rfl⟩
  assessment ha' := .inl ⟨_, ha ▸ ha', rfl, id⟩
  line hl'       := .inl ⟨_, hl ▸ hl', rfl, rfl⟩

theorem of_only {ts : List Name} (ho : Database.Only ts s t)
    (hts : ∀ n ∈ [Name.assessment, Name.line], n ∉ ts) : Restricted ok s t :=
  .of_eq (ho .assessment <| hts _ <| by simp) (ho .line <| hts _ <| by simp)

instance : Std.Refl (Restricted ok) where
  refl _ := .of_eq rfl rfl

instance : IsTrans Db (Restricted ok) where
  trans s t u h₁ h₂ := {
    kept := fun ha => by
      have ⟨a', ha', hitem⟩ := h₁.kept ha
      have ⟨a'', ha'', hitem'⟩ := h₂.kept ha'
      exact ⟨a'', ha'', hitem'.trans hitem⟩
    assessment := fun ha'' => by
      rcases h₂.assessment ha'' with ⟨a', ha', hitem', hdraft'⟩ | ⟨hok, hnone⟩
      · rcases h₁.assessment ha' with ⟨a, ha, hitem, hdraft⟩ | ⟨hok, hnone⟩
        · exact .inl ⟨a, ha, hitem'.trans hitem, hdraft ∘ hdraft'⟩
        · exact .inr ⟨hitem' ▸ hok, hnone⟩
      · refine .inr ⟨hok, Option.eq_none_iff_forall_ne_some.mpr fun a ha => ?_⟩
        have ⟨a', ha', _⟩ := h₁.kept ha
        simp [hnone] at ha'
    line := fun hl'' => by
      rcases h₂.line hl'' with ⟨l', hl', hbill', hcites'⟩ | hcited
      · rcases h₁.line hl' with ⟨l, hl, hbill, hcites⟩ | hcited
        · exact .inl ⟨l, hl, hbill'.trans hbill, hcites'.trans hcites⟩
        · exact .inr <| hcites' ▸ hcited.of_restricted h₂
      · exact .inr hcited }

theorem insert_assessment {a : Assessment} (ha : ok a.item) :
    Restricted ok s (s.insert .assessment k a) where
  kept ha'       := ⟨_, get_insert_of_some ha', rfl⟩
  assessment {i a'} ha' := by
    cases hi : (s.table .assessment).get i with
    | some a₀ =>
      rw [get_insert_of_some hi, Option.some.injEq] at ha'
      exact .inl ⟨a₀, rfl, ha' ▸ rfl, fun h => ha' ▸ h⟩
    | none =>
      rcases get_insert_cases ha' with ⟨_, rfl⟩ | ha'
      · exact .inr ⟨ha, rfl⟩
      · simp [hi] at ha'
  line hl        := .inl ⟨_, by rwa [insert_table_ne (by decide)] at hl, rfl, rfl⟩

theorem modify_assessment {g : Assessment → Assessment}
    (hg : ∀ a, (g a).item = a.item ∧ ((g a).status = .draft → a.status = .draft)) :
    Restricted ok s (s.modify .assessment k g) where
  kept {i a} ha  := by
    have ⟨a', ha', hcases⟩ := get_modify_of_some (k := k) (g := g) ha
    refine ⟨a', ha', ?_⟩
    rcases hcases with rfl | rfl
    · exact (hg a).1
    · rfl
  assessment ha' := by
    have ⟨a, ha, hcases⟩ := get_modify_cases ha'
    refine .inl ⟨a, ha, ?_⟩
    rcases hcases with ⟨_, rfl⟩ | rfl
    · exact hg a
    · exact ⟨rfl, id⟩
  line hl        := .inl ⟨_, hl, rfl, rfl⟩

theorem insert_line {l : BillLine} (hl : Cited ok s l.assessment) : Restricted ok s (s.insert .line k l) where
  kept ha        := ⟨_, by rwa [insert_table_ne (by decide)], rfl⟩
  assessment ha' := .inl ⟨_, by rwa [insert_table_ne (by decide)] at ha', rfl, id⟩
  line hl'       := by
    rcases get_insert_cases hl' with ⟨_, rfl⟩ | hl'
    · refine .inr ?_
      rwa [Cited, insert_table_ne (by decide)]
    · exact .inl ⟨_, hl', rfl, rfl⟩

theorem modify_line {g : BillLine → BillLine}
    (hg : ∀ l, (g l).bill = l.bill ∧ (g l).assessment = l.assessment) :
    Restricted ok s (s.modify .line k g) where
  kept ha        := ⟨_, ha, rfl⟩
  assessment ha' := .inl ⟨_, ha', rfl, id⟩
  line hl'       := by
    have ⟨l, hl, hcases⟩ := get_modify_cases hl'
    refine .inl ⟨l, hl, ?_⟩
    rcases hcases with ⟨_, rfl⟩ | rfl
    · exact hg l
    · exact ⟨rfl, rfl⟩

end Restricted

-- The drafts, and the lines of the bills that are to be paid, are of items that are `ok`.
structure Current (ok : ℕ → Prop) (s : Db) : Prop where
  draft : ∀ {k a}, (s.table .assessment).get k = some a → a.status = .draft → ok a.item
  line  : ∀ {k l r}, (s.table .line).get k = some l → (s.table .bill).get l.bill = some r →
    r.status.isOpen → Cited ok s l.assessment

theorem Restricted.current (h : Restricted ok s t) (hs : Current ok s)
    (hline : ∀ {k l r'}, (s.table .line).get k = some l → (t.table .bill).get l.bill = some r' →
      r'.status.isOpen → Cited ok s l.assessment) : Current ok t where
  draft ha' hdraft := by
    rcases h.assessment ha' with ⟨a, ha, hitem, hstatus⟩ | ⟨hok, _⟩
    · exact hitem ▸ hs.draft ha (hstatus hdraft)
    · exact hok
  line hl' hr hopen := by
    rcases h.line hl' with ⟨l, hl, hbill, hcites⟩ | hcited
    · rw [hcites]
      exact (hline hl (hbill ▸ hr) hopen).of_restricted h
    · exact hcited

theorem Restricted.current_of_bill (h : Restricted ok s t) (hs : Current ok s)
    (hbill : t.table .bill = s.table .bill) : Current ok t :=
  h.current hs fun hl hr => hs.line hl (hbill ▸ hr)

section Assessing

theorem saveAssessment_restricted {a : AssessmentObject} : (saveAssessment a).Keeps (Restricted ok) :=
  .bind store_keeps fun _ => .bind store_keeps fun _ =>
    keeps_save fun _ => .modify_assessment fun _ => ⟨rfl, id⟩

theorem setAssessmentStatus_restricted {status : AssessmentStatus} (h : status ≠ .draft) :
    (setAssessmentStatus status k).Keeps (Restricted ok) :=
  keeps_save fun _ => .modify_assessment fun _ => ⟨rfl, fun hd => absurd hd h⟩

theorem post_createDraftAssessment_cited {payer council actor : ℕ} {e : LineEntry} (he : ok e.item.id) :
    Prog.Post (createDraftAssessment payer council actor e) s <| Prog.OnReturn fun a t =>
      Restricted ok s t ∧ Cited ok t a.id ∧ t.table .bill = s.table .bill := by
  refine .imp post_createDraftAssessment fun a t ⟨_, _, row, hrow, ht⟩ => ?_
  subst ht
  have hok : ok row.item := hrow.item ▸ he
  refine ⟨.insert_assessment hok, ⟨row, ?_, hok⟩, insert_table_ne (by decide)⟩
  rw [insert_table hrow.retired, Table.get_insert_self hrow.absent]

theorem draftsOf_cited {payer : ℕ} {excluded : List ℕ} (h : Current ok s) :
    ∀ a ∈ draftsOf s payer excluded, Cited ok s a.id := by
  intro a ha
  have ⟨⟨k, row⟩, hrow, he⟩ := List.mem_map.mp ha
  have ⟨hget, hdraft⟩ := Table.mem_filter_iff.mp hrow
  simp only [Bool.and_eq_true, decide_eq_true_eq] at hdraft
  exact he ▸ ⟨row, hget, h.draft hget hdraft.1.2⟩

theorem post_mergedAssessments_cited {r : IssueRequest} (hs : Current ok s)
    (hr : ∀ e ∈ r.lines, ok e.item.id) :
    Prog.Post (mergedAssessments r) s <| Prog.OnReturn fun l t =>
      Restricted ok s t ∧ ∀ a ∈ l, Cited ok t a.id := by
  let I (priced : List AssessmentObject) (rest : List LineEntry) (t : Db) := Restricted ok s t ∧
    t.table .bill = s.table .bill ∧ (∀ a ∈ priced, Cited ok t a.id) ∧ ∀ e ∈ rest, ok e.item.id
  refine .seq (Prog.Post.foldlM (S := relational.schema) (I := I) (fun {priced e rest t} h => ?price)
    ⟨Std.Refl.refl _, rfl, List.forall_mem_nil _, hr⟩) fun priced s₁ ⟨h₁, hbill, hpriced, _⟩ => ?_
  case price =>
    obtain ⟨ht, hbill, hpriced, hrest⟩ := h
    refine .seq (post_createDraftAssessment_cited <| hrest e <| .head _) fun a u ⟨hu, ha, hbill'⟩ => ?_
    refine .ret ⟨IsTrans.trans _ _ _ ht hu, hbill'.trans hbill, fun x hx => ?_, fun x hx => hrest x <| .tail _ hx⟩
    rcases List.mem_append.mp hx with hx | hx
    · exact (hpriced x hx).of_restricted hu
    · rwa [List.mem_singleton.mp hx]
  refine .bind <| post_select ?_
  have hmerged : ∀ a ∈ ((priced ++ if r.billAllDrafts then draftsOf s₁ r.payer.id (priced.map (·.id))
      else []).foldl mergeAssessment ([], [])).1, Cited ok s₁ a.id := by
    refine mergeAll_forall (fun hx _ => hx) (List.forall_mem_nil _) fun a ha => ?_
    rcases List.mem_append.mp ha with ha | ha
    · exact hpriced a ha
    · split at ha
      · exact draftsOf_cited (h₁.current_of_bill hs hbill) a ha
      · contradiction
  have save : ∀ l : List AssessmentObject, (l.forM saveAssessment).Keeps (Restricted ok) :=
    fun l => forM_keeps fun _ _ => saveAssessment_restricted
  have cancel : ∀ l : List AssessmentObject, (l.forM fun a => setAssessmentStatus .cancelled a.id).Keeps
      (Restricted ok) := fun l => forM_keeps fun _ _ => setAssessmentStatus_restricted <| by decide
  refine .seq (save _).returns fun _ s₂ h₂ => .seq (cancel _).returns fun _ s₃ h₃ => .ret ?_
  have h₁₃ : Restricted ok s₁ s₃ := IsTrans.trans _ _ _ h₂ h₃
  exact ⟨IsTrans.trans _ _ _ h₁ h₁₃, fun a ha => (hmerged a ha).of_restricted h₁₃⟩

end Assessing

section Billing

theorem post_createLine_restricted {assessment position : ℕ} {current arrears amount : ℚ}
    (h : Cited ok s assessment) :
    Prog.Post (createLine b assessment current arrears amount position) s <|
      Prog.OnReturn fun _ t => Restricted ok s t := by
  refine .bind <| post_store (fun _ _ => .bind ?_) fun _ => trivial
  refine post_store (fun _ _ => .bind ?_) fun _ => trivial
  refine post_store (fun _ _ => ?_) fun _ => trivial
  exact post_create (fun _ _ => .insert_line h) fun _ => trivial

theorem post_createFreshLines_restricted {assessments : List AssessmentObject}
    (h : ∀ a ∈ assessments, Cited ok s a.id) :
    Prog.Post (assessments.foldlM (createFreshLine b) []) s <| Prog.OnReturn fun _ t => Restricted ok s t := by
  let I (_ : List FreshLine) (rest : List AssessmentObject) (t : Db) :=
    Restricted ok s t ∧ ∀ a ∈ rest, Cited ok t a.id
  refine .imp (Prog.Post.foldlM (S := relational.schema) (I := I) (fun {fresh a rest t} h => ?step)
    ⟨Std.Refl.refl _, h⟩) fun _ _ => And.left
  obtain ⟨ht, hrest⟩ := h
  refine .seq (post_createLine_restricted <| hrest a <| .head _) fun line s₁ h₁ => ?_
  refine .seq (Prog.Keeps.returns (P := Restricted ok) <| setAssessmentStatus_restricted <| by decide)
    fun _ s₂ h₂ => .ret ?_
  have h₁₂ : Restricted ok t s₂ := IsTrans.trans _ _ _ h₁ h₂
  exact ⟨IsTrans.trans _ _ _ ht h₁₂, fun x hx => (hrest x <| .tail _ hx).of_restricted h₁₂⟩

end Billing

section Rolling

variable {P : ℕ → Prop} {acc : List Arrears}

theorem addArrears_forall {item assessment : ℕ} {y : ℤ} (hacc : ∀ x ∈ acc, P x.assessment)
    (ha : P assessment) : ∀ x ∈ addArrears acc item assessment y, P x.assessment := by
  unfold addArrears
  split
  case isTrue =>
    intro x hx
    have ⟨x₀, hx₀, he⟩ := List.mem_map.mp hx
    rw [← he]
    split
    · exact ha
    · exact hacc x₀ hx₀
  case isFalse =>
    intro x hx
    rcases List.mem_append.mp hx with hx | hx
    · exact hacc x hx
    · rwa [List.mem_singleton.mp hx]

theorem post_rollLine_forall {line : Loaded BillLine} (hacc : ∀ x ∈ acc, P x.assessment)
    (hline : P line.row.assessment) :
    Prog.Post (rollLine acc line) s <| Prog.OnReturn fun acc _ => ∀ x ∈ acc, P x.assessment := by
  refine .bind <| post_select ?_
  simp only
  split
  case isTrue => exact .ret hacc
  case isFalse =>
    refine .bind <| post_load (fun _ _ => .ret ?_) fun _ => trivial
    exact addArrears_forall hacc hline

theorem post_rollBill_forall {prior : Loaded Bill} (hacc : ∀ x ∈ acc, P x.assessment)
    (hprior : ∀ l ∈ s.linesOf prior.id, P l.row.assessment) :
    Prog.Post (rollBill today b acc prior) s <| Prog.OnReturn fun acc _ => ∀ x ∈ acc, P x.assessment := by
  refine .bind <| post_save (fun _ _ => ?_) fun _ => trivial
  refine .seq closeDebtCaseForBill_only.returns fun _ t ht => .bind <| post_select ?_
  have hlines : Db.linesOf t = s.linesOf :=
    Db.linesOf_congr <| (ht .line (by simp)).trans <| modify_table_ne (by decide)
  let I (acc : List Arrears) (rest : List (Loaded BillLine)) (_ : Db) :=
    (∀ x ∈ acc, P x.assessment) ∧ ∀ l ∈ rest, P l.row.assessment
  refine .imp (Prog.Post.foldlM (S := relational.schema) (I := I) (fun {acc l rest _} ⟨hacc, hrest⟩ => ?step)
    ⟨hacc, hlines ▸ hprior⟩) fun _ _ => And.left
  exact .imp (post_rollLine_forall hacc <| hrest l <| .head _) fun _ _ h => ⟨h, fun x hx => hrest x <| .tail _ hx⟩

theorem post_rollBills_forall {bills : List (Loaded Bill)}
    (h : ∀ x ∈ bills, ∀ l ∈ s.linesOf x.id, P l.row.assessment) :
    Prog.Post (bills.foldlM (rollBill today b) []) s <|
      Prog.OnReturn fun acc _ => ∀ x ∈ acc, P x.assessment := by
  let I (acc : List Arrears) (rest : List (Loaded Bill)) (t : Db) := (∀ x ∈ acc, P x.assessment) ∧
    Database.Only [Name.bill, Name.debtCase] s t ∧ ∀ x ∈ rest, ∀ l ∈ s.linesOf x.id, P l.row.assessment
  refine .imp (Prog.Post.foldlM (S := relational.schema) (I := I) (fun {acc x rest t} h => ?step)
    ⟨List.forall_mem_nil _, Std.Refl.refl _, h⟩) fun _ _ => And.left
  obtain ⟨hacc, ho, hrest⟩ := h
  have hlines : Db.linesOf t = s.linesOf := Db.linesOf_congr <| ho .line (by simp)
  have only : (rollBill today b acc x).Keeps (Database.Only [Name.bill, Name.debtCase]) :=
    rollBill_keeps (only_modify <| by simp) fun _ => only_modify <| by simp
  refine .imp (.both (post_rollBill_forall hacc <| hlines ▸ hrest x <| .head _) only.returns)
    fun _ u ⟨hacc', ho'⟩ => ⟨hacc', IsTrans.trans _ _ _ ho ho', fun y hy => hrest y <| .tail _ hy⟩

theorem post_placeArrears_restricted {fresh : List FreshLine} {position : ℕ} {a : Arrears}
    (h : Cited ok s a.assessment) :
    Prog.Post (placeArrears b fresh position a) s <| Prog.OnReturn fun _ t => Restricted ok s t := by
  unfold placeArrears
  split
  · refine .bind <| post_store (fun _ _ => .bind ?_) fun _ => trivial
    refine post_store (fun _ _ => .bind ?_) fun _ => trivial
    exact post_save (fun _ _ => .ret <| .modify_line fun _ => ⟨rfl, rfl⟩) fun _ => trivial
  · exact .seq (post_createLine_restricted h) fun _ _ ht => .ret ht

theorem post_rollArrears_restricted {payer : ℕ} {fresh : List FreshLine}
    (h : ∀ {k l}, (s.table .line).get k = some l → l.bill ∈ openBills s payer b → Cited ok s l.assessment) :
    Prog.Post (rollArrears today payer b fresh) s <| Prog.OnReturn fun _ t => Restricted ok s t := by
  refine .bind <| post_select <| .seq post_lockOpenBills fun bills s₁ ⟨hs₁, hbills⟩ => ?_
  subst hs₁
  have hroll : ∀ x ∈ bills, ∀ l ∈ Db.linesOf s₁ x.id, Cited ok s₁ l.row.assessment := by
    intro x hx l hl
    have ⟨hget, hbill⟩ := mem_linesOf.mp hl
    exact h hget <| hbill ▸ hbills ▸ List.mem_map_of_mem hx
  refine .seq (.both post_rollBills (post_rollBills_forall hroll)) fun arrears s₂ ⟨⟨_, ho, _⟩, hcited⟩ => ?_
  have h₂ : Restricted ok s₁ s₂ := .of_only ho (by simp)
  let I (_ : ℕ) (rest : List Arrears) (t : Db) := Restricted ok s₁ t ∧ ∀ x ∈ rest, Cited ok t x.assessment
  refine .seq (Prog.Post.foldlM (S := relational.schema) (I := I) (fun {_ x rest t} ⟨ht, hrest⟩ => ?step)
    ⟨h₂, fun x hx => (hcited x hx).of_restricted h₂⟩) fun _ _ ⟨h₃, _⟩ => .ret h₃
  refine .imp (post_placeArrears_restricted <| hrest x <| .head _) fun _ u hu => ?_
  exact ⟨IsTrans.trans _ _ _ ht hu, fun y hy => (hrest y <| .tail _ hy).of_restricted hu⟩

end Rolling

section Issuing

variable {r : IssueRequest}

theorem post_writeBill_restricted {assessments : List AssessmentObject} {dueDate : Date} (hs : Current ok s)
    (ha : ∀ a ∈ assessments, Cited ok s a.id) :
    Prog.Post (writeBill today r assessments dueDate) s <| Prog.OnReturn fun _ t => Restricted ok s t := by
  refine .bind <| post_create (fun bill hbill => ?_) fun _ => trivial
  obtain ⟨hr, _, _⟩ := conflicts_false hbill
  have h₁ : ∀ {row}, Restricted ok s (s.insert .bill bill row) := .of_only (only_insert <| List.mem_singleton_self _) (by simp)
  refine .seq (.both (post_createFreshLines_restricted fun a hmem => (ha a hmem).of_restricted h₁)
    (post_createFreshLines fun items => ⟨.nil, by simp⟩)) fun fresh s₂ hpost => ?_
  obtain ⟨h₁₂, _, _, _, ho⟩ := hpost
  have h₂ : Restricted ok s s₂ := IsTrans.trans _ _ _ h₁ h₁₂
  have roll : Prog.Post (if r.rollArrears then rollArrears today r.payer.id bill fresh
      else pure 0 : Service ℕ) s₂ <| Prog.OnReturn fun _ t => Restricted ok s t := by
    split
    case isFalse => exact .ret h₂
    case isTrue =>
      refine .imp (post_rollArrears_restricted fun {k l'} hl' hmem => ?_) fun _ _ => IsTrans.trans _ _ _ h₂
      rcases h₂.line hl' with ⟨l, hl, hbill, hcites⟩ | hcited
      case inr => exact hcited
      case inl =>
        rw [openBills, ho .bill (by simp), ← openBills, openBills_insert hr, hbill] at hmem
        obtain ⟨⟨_, x⟩, hx, hid⟩ := List.mem_map.mp hmem
        obtain ⟨hget, hopen⟩ := Table.mem_filter_iff.mp hx
        simp only [Bool.and_eq_true] at hopen
        exact hcites ▸ (hs.line hl (hid ▸ hget) hopen.1.2).of_restricted h₂
  refine .seq roll fun _ s₃ h₃ => .seq post_finalizeBill fun _ t h₄ => .ret ?_
  obtain ⟨_, _, _, _, _, _, _, _, ho₄⟩ := h₄
  exact IsTrans.trans _ _ _ h₃ <| .of_only ho₄ (by simp)

theorem post_issueBill_restricted (hs : Current ok s) (hr : ∀ e ∈ r.lines, ok e.item.id) :
    Prog.Post (issueBill today r) s <| Prog.OnReturn fun _ t => Restricted ok s t := by
  refine .bind <| post_getForUpdate (fun _ _ => ?_) fun _ => trivial
  have rest : Prog.Post (do
      let assessments ← mergedAssessments r
      if assessments.isEmpty && !r.rollArrears then refuse .emptyBill
      let dueDate ← dueDateOf today r
      writeBill today r assessments dueDate) s (Prog.OnReturn fun _ t => Restricted ok s t) := by
    refine .seq (.both (post_mergedAssessments_cited hs hr) (mergedAssessments_keeps id).returns)
      fun assessments s₁ ⟨⟨h₁, ha⟩, ho⟩ => ?_
    refine post_guard (fun _ => trivial) fun _ => ?_
    refine .seq (dueDateOf_keeps (P := Eq)).returns fun dueDate s₂ h₂ => ?_
    subst h₂
    have hs₁ : Current ok s₁ := h₁.current_of_bill hs <| ho .bill (by simp)
    exact .imp (post_writeBill_restricted hs₁ ha) fun _ _ => IsTrans.trans _ _ _ h₁
  refine post_unless (fun _ => rest) fun _ => ?_
  refine .seq (checkDuplicate_keeps (P := Eq)).returns fun _ s₁ h₁ => ?_
  exact h₁ ▸ rest

theorem post_addBillLine_restricted {bill : Loaded Bill} {actor : ℕ} {e : LineEntry} (he : ok e.item.id) :
    Prog.Post (addBillLine today bill actor e) s <| Prog.OnReturn fun _ t => Restricted ok s t := by
  refine .bind <| post_load (fun _ _ => ?_) fun _ => trivial
  refine .seq (post_createDraftAssessment_cited he) fun a s₁ ⟨h₁, ha, _⟩ => .bind <| post_select ?_
  have recompute : ∀ {k}, (do
      let _ ← recomputeBill today bill bill.row.amountPaid.toRat
      return k : Service ℕ).Keeps (Restricted ok) :=
    .bind (recomputeBill_keeps fun _ => .of_only (only_modify <| List.mem_singleton_self _) (by simp)) fun _ => .ret
  simp only
  split
  case h_1 line _ =>
    refine .imp (Prog.Keeps.returns ?_) fun _ _ => IsTrans.trans _ _ _ h₁
    refine .bind load_keeps fun _ => .bind store_keeps fun _ => .bind store_keeps fun _ => ?_
    refine .bind (keeps_save fun _ => .modify_assessment fun _ => ⟨rfl, id⟩) fun _ => ?_
    refine .bind store_keeps fun _ => .bind store_keeps fun _ => ?_
    refine .bind (keeps_save fun _ => .modify_line fun _ => ⟨rfl, rfl⟩) fun _ => ?_
    exact .bind (setAssessmentStatus_restricted <| by decide) fun _ => recompute
  case h_2 =>
    refine .seq (Prog.Keeps.returns (P := Restricted ok) <| setAssessmentStatus_restricted <| by decide)
      fun _ s₂ h₂ => .bind <| post_select ?_
    refine .seq (post_createLine_restricted <| ha.of_restricted h₂) fun _ s₃ h₃ => ?_
    refine .imp recompute.returns fun _ _ ht => IsTrans.trans _ _ _ h₁ <| IsTrans.trans _ _ _ h₂ ?_
    exact IsTrans.trans _ _ _ h₃ ht

end Issuing

section Registering

-- Payers have been registered for items that are `ok`.
structure Registered (ok : ℕ → Prop) (s t : Db) : Prop where
  restricted : Restricted ok s t
  only       : Database.Only [Name.payer, Name.assessment, Name.asset, Name.syncRecord] s t

theorem Registered.of_only (ho : Database.Only [Name.payer, Name.asset, Name.syncRecord] t u) :
    Preserves (S := relational.schema) (Registered ok s) t u := fun h => {
  restricted := IsTrans.trans _ _ _ h.restricted <| .of_only ho (by simp)
  only       := IsTrans.trans _ _ _ h.only <| ho.mono <| by simp }

theorem Registered.insert_assessment {a : Assessment} (ha : ok a.item) :
    Preserves (S := relational.schema) (Registered ok s) t (t.insert .assessment k a) := fun h => {
  restricted := IsTrans.trans _ _ _ h.restricted <| .insert_assessment ha
  only       := IsTrans.trans _ _ _ h.only <| only_insert <| by simp }

theorem createPayer_registered {actor : ℕ} {items : List (Loaded RevenueItem)} {force : Bool}
    {enumeratedBy : Option ℕ} {fields : PayerFields} {extra : Bool} (h : ∀ i ∈ items, ok i.id) :
    (createPayer council actor items force enumeratedBy fields extra).Keeps
      (Preserves (S := relational.schema) (Registered ok s)) :=
  createPayer_keeps (fun _ _ _ => Registered.of_only <| only_insert <| by simp)
    (Registered.of_only <| only_modify <| by simp) fun i hi _ _ _ ha => .insert_assessment <| ha ▸ h i hi

theorem replayPayer_registered {fw : Framework} {agent : Agent} {actor : ℕ} {payload : Json}
    (h : ∀ {members data}, payload = .obj members → fw.createPayer (members.filter (·.1 ≠ "geo")) = some data →
      ∀ i ∈ itemsInCouncil s data.revenueItemIds council, ok i.id) :
    (replayPayer fw council agent actor payload).Maintains (Registered ok s) := by
  intro t ht
  unfold replayPayer
  split
  case h_2 => exact .raise ht
  case h_1 members =>
    extract_lets geo body
    clear_value geo
    split
    case isTrue => exact .ret ht
    cases hdata : fw.createPayer body with
    | none => exact .ret ht
    | some data =>
      refine .bind <| post_select ?_
      have hitems : ∀ i ∈ itemsInCouncil t data.revenueItemIds council, ok i.id := by
        rw [itemsInCouncil, ht.only .item (by simp)]
        exact h rfl hdata
      refine Prog.Maintains.of_keeps ?_ t ht
      refine .bind (.attempt <| .atomic <| createPayer_registered hitems) fun r => ?_
      split
      case h_1 =>
        split
        · exact .ret
        · split
          · exact .ret
          · exact .raise
      case h_2 =>
        split
        case h_2 => exact keeps_refuse
        extract_lets lat lng accept
        exact unless_keeps (createAsset_keeps fun ho => Registered.of_only <| ho.mono <| by simp) .ret

end Registering

section Retiring

theorem post_retireRevenueItem {item : Loaded RevenueItem} (h : item.row.isActive) :
    Prog.Post (retireRevenueItem item) s <| Prog.OnReturn fun _ t => hasDraftAssessments s item.id = false ∧
      hasOutstandingBill s item.id = false ∧ t = s.modify .item item.id fun i => { i with isActive := false } := by
  unfold retireRevenueItem
  rw [if_neg (by simp [h])]
  refine .bind <| post_select <| post_guard (fun _ => trivial) fun hdraft => .bind <| post_select ?_
  refine post_guard (fun _ => trivial) fun hbill => post_close (fun _ _ => ?_) fun _ => trivial
  exact ⟨by simpa using hdraft, by simpa using hbill, rfl⟩

theorem post_retire {pk : ℕ} : Prog.Post (retire council pk) s <| Prog.OnReturn fun _ t =>
    hasDraftAssessments s pk = false ∧ hasOutstandingBill s pk = false ∧
      t = s.modify .item pk fun i => { i with isActive := false } := by
  refine .bind <| post_getObject (fun i _ hi => post_retireRevenueItem ?_) fun _ => trivial
  exact (Bool.and_eq_true_iff.mp hi).2

-- The item that is retired is no longer active, and nothing that is to be paid is of it.
theorem Current.retire {item : ℕ} (h : Current s.Active s) (hdraft : hasDraftAssessments s item = false)
    (hbill : hasOutstandingBill s item = false)
    (ht : t = s.modify .item item fun i => { i with isActive := false }) : Current t.Active t := by
  have hactive : ∀ {j}, s.Active j → j ≠ item → t.Active j := fun ⟨i, hi, ha⟩ hne => by
    refine ⟨i, ?_, ha⟩
    rw [ht, modify_table, Table.get_modify, if_neg hne, hi]
  have ho : Database.Only [Name.item] s t := ht ▸ only_modify (.head _)
  constructor
  case draft =>
    intro k a ha hstatus
    rw [ho .assessment (by simp)] at ha
    refine hactive (h.draft ha hstatus) fun he => ?_
    have hnone := Table.first_none (by simpa [hasDraftAssessments] using hdraft) ha
    simp [he, hstatus] at hnone
  case line =>
    intro k l r hl hr hopen
    rw [ho .line (by simp)] at hl
    rw [ho .bill (by simp)] at hr
    have ⟨a, ha, hok⟩ := h.line hl hr hopen
    refine ⟨a, ho .assessment (by simp) ▸ ha, hactive hok fun he => ?_⟩
    have hnone := Table.first_none (by simpa [hasOutstandingBill] using hbill) hl
    simp [ha, hr, he, hopen] at hnone

end Retiring

-- Every item that the bill charges is active.
def Db.AllActive (s : Db) (b : ℕ) : Prop :=
  ∀ ⦃k l⦄, (s.table .line).get k = some l → l.bill = b → Cited s.Active s l.assessment

-- What has been assessed is of items that were active before.
def AssessesActive (s t : Db) : Prop :=
  ∀ ⦃k a⦄, (t.table .assessment).get k = some a → (s.table .assessment).get k = none → s.Active a.item

theorem Restricted.assessesActive (h : Restricted s.Active s t) : AssessesActive s t := by
  intro k a' ha' hnone
  rcases h.assessment ha' with ⟨a, ha, _⟩ | ⟨hok, _⟩
  · simp [hnone] at ha
  · exact hok

-- What carries the retirement of items from one request to the next.
structure Barred (s : Db) : Prop where
  tallied : Tallied s
  paid    : PaidUp s
  current : Current s.Active s

namespace Barred

theorem of_current (h : Restricted s.Active s t) (hv : Database.valid t) (hitem : t.table .item = s.table .item)
    (totals : Totals t) (paid : PaidUp t) (hc : Current s.Active t) : Barred t ∧ AssessesActive s t :=
  ⟨⟨totals.tallied hv, paid, Db.active_congr hitem ▸ hc⟩, h.assessesActive⟩

theorem registered (h : Barred s) (hv : Database.valid t) (ht : Registered s.Active s t) :
    Barred t ∧ AssessesActive s t := by
  have hbill : t.table .bill = s.table .bill := ht.only .bill (by simp)
  refine of_current ht.restricted hv (ht.only .item (by simp)) (fun b r hr => ?totals)
    (fun b r hr => h.paid (hbill ▸ hr)) <| ht.restricted.current_of_bill h.current hbill
  rw [Db.lineTotal_congr (ht.only .line (by simp)), Db.arrearsTotal_congr (ht.only .line (by simp))]
  exact h.tallied.totals (hbill ▸ hr)

theorem issued {r : IssueRequest} {rolled : List ℕ} (h : Barred s) (hv : Database.valid t)
    (ht : Restricted s.Active s t) (hi : Issued r b rolled s t) : Barred t ∧ AssessesActive s t := by
  refine of_current ht hv (hi.only .item (by simp)) (hi.totals h.tallied.totals) (h.paid.issued hi) ?_
  refine ht.current h.current fun {k l r'} hl hr' hopen => ?_
  have ⟨r, hr⟩ := h.tallied.line hl
  have hne : l.bill ≠ b := fun he => by simp [he, hi.absent] at hr
  rw [hi.others _ hne, hr, Option.map_some, Option.some.injEq] at hr'
  split at hr'
  case isTrue => simp [← hr', supersede, BillStatus.isOpen] at hopen
  case isFalse => exact h.current.line hl hr (hr' ▸ hopen)

-- A bill that is recomputed is open again only if it has been open or charges active items.
theorem reckoned {paid : ℚ} {bill : Bill} (h : Barred s) (hv : Database.valid t)
    (ht : Restricted s.Active s t) (hitem : t.table .item = s.table .item) (hl : LinesOff b s t)
    (hbill : (s.table .bill).get b = some bill) (hr : Reckoned today b paid s t)
    (hreopens : bill.status = .paid → ∀ {r'}, (t.table .bill).get b = some r' → r'.status ≠ .paid →
      s.AllActive b) : Barred t ∧ AssessesActive s t := by
  refine of_current ht hv hitem (hr.totals hl h.tallied.totals) (h.paid.reckoned hbill hr) ?_
  refine ht.current h.current fun {k l r'} hline hr' hopen => ?_
  by_cases hb : l.bill = b
  case neg => exact h.current.line hline (hr.others _ hb ▸ hr') hopen
  case pos =>
    rw [hb] at hr'
    have hlive : bill.status.terminal = false := by
      rw [← hr.terminal_eq hbill hr', BillStatus.not_terminal_of_isOpen hopen]
    by_cases hpaid : bill.status = .paid
    case pos =>
      refine hreopens hpaid hr' (fun hp => ?_) hline hb
      simp [hp, BillStatus.isOpen] at hopen
    case neg => exact h.current.line hline (hb ▸ hbill) <| BillStatus.isOpen_of_live hlive hpaid

theorem retire {item : ℕ} (h : Barred s) (hv : Database.valid t)
    (hdraft : hasDraftAssessments s item = false) (hbill : hasOutstandingBill s item = false)
    (ht : t = s.modify .item item fun i => { i with isActive := false }) : Barred t ∧ AssessesActive s t := by
  have ho : Database.Only [Name.item] s t := ht ▸ only_modify (.head _)
  have hbills : t.table .bill = s.table .bill := ho .bill (by simp)
  have totals : Totals t := fun b r hr => by
    rw [Db.lineTotal_congr (ho .line (by simp)), Db.arrearsTotal_congr (ho .line (by simp))]
    exact h.tallied.totals (hbills ▸ hr)
  refine ⟨⟨totals.tallied hv, fun b r hr => h.paid (hbills ▸ hr), h.current.retire hdraft hbill ht⟩, ?_⟩
  exact Restricted.assessesActive <| .of_only ho (by simp)

end Barred

-- A request that does not leave a paid bill paid works on one that charges active items only.
def Request.ReopensActive (s : Db) (r : Request) : Prop :=
  ∀ ⦃b bill⦄, r.billOf s = some b → (s.table .bill).get b = some bill → bill.status = .paid →
    ¬r.PaysOff s b bill → s.AllActive b

-- Payers are registered for active items, and paid bills that are opened again charge active items.
def ItemRequest.Heeds (s : Db) : ItemRequest → Prop
  | register council _ ids _ _ _ => ∀ i ∈ itemsInCouncil s ids council, i.row.isActive
  | replayPayer fw council _ _ _ payload => ∀ ⦃members data⦄, payload = .obj members →
    fw.createPayer (members.filter (·.1 ≠ "geo")) = some data →
      ∀ i ∈ itemsInCouncil s data.revenueItemIds council, i.row.isActive
  | addLine council pk actor d => ∀ ⦃e⦄, entryOf s council d = some e →
    (Request.addLine pk actor e).ReopensActive s
  | reverse pk => (Request.reverse pk).ReopensActive s
  | _ => True

theorem itemsInCouncil_active {ids : List ℤ} (h : ∀ i ∈ itemsInCouncil s ids council, i.row.isActive) :
    ∀ i ∈ itemsInCouncil s ids council, s.Active i.id := by
  intro i hi
  have ⟨⟨k, row⟩, hrow, he⟩ := List.mem_map.mp hi
  subst he
  exact ⟨row, (Table.mem_filter_iff.mp hrow).1, h _ hi⟩

theorem entryOf_active {d : EntryForm} {e : LineEntry} (h : entryOf s council d = some e) :
    s.Active e.item.id := by
  have ⟨item, hitem, hrest⟩ := Option.bind_eq_some_iff.mp h
  have ⟨_, _, hrest⟩ := Option.bind_eq_some_iff.mp hrest
  have ⟨_, _, hrest⟩ := Option.bind_eq_some_iff.mp hrest
  have ⟨hget, hactive⟩ := Option.filter_eq_some_iff.mp hitem
  simp only [Bool.and_eq_true] at hactive
  cases hrest
  exact ⟨item, hget, hactive.2⟩

theorem post_resolveEntry {d : EntryForm} : Prog.Post (resolveEntry council d) s <|
    Prog.OnReturn fun e t => t = s ∧ entryOf s council d = some e := by
  refine .bind <| post_select ?_
  cases h : entryOf s council d with
  | none => exact .raise trivial
  | some e => exact .ret ⟨rfl, rfl⟩

theorem post_resolveEntries {ds : List EntryForm} :
    Prog.Post (ds.foldlM (fun acc d => do return acc ++ [← resolveEntry council d]) []) s <|
      Prog.OnReturn fun (es : List LineEntry) t => t = s ∧ ∀ e ∈ es, s.Active e.item.id := by
  let I (acc : List LineEntry) (_ : List EntryForm) (t : Db) := t = s ∧ ∀ e ∈ acc, s.Active e.item.id
  refine Prog.Post.foldlM (S := relational.schema) (I := I) (fun {acc d rest t} h => ?_) ⟨rfl, List.forall_mem_nil _⟩
  obtain ⟨rfl, hacc⟩ := h
  refine .seq post_resolveEntry fun e _ ⟨ht, he⟩ => .ret ⟨ht, fun x hx => ?_⟩
  rcases List.mem_append.mp hx with hx | hx
  · exact hacc x hx
  · exact List.mem_singleton.mp hx ▸ entryOf_active he

namespace Barred

theorem addLine {pk actor : ℕ} {d : EntryForm} (h : Barred s)
    (hr : (ItemRequest.addLine council pk actor d).Heeds s) :
    Prog.Post (addLineView today council pk actor d) s <| Prog.OnReturn fun _ t =>
      Database.valid t → Barred t ∧ AssessesActive s t := by
  refine .bind <| post_getObject (fun bill hbill _ => ?_) fun _ => trivial
  refine .seq post_resolveEntry fun e _ ⟨hst, he⟩ => ?_
  subst hst
  refine .imp (.both (post_addBillLine hbill) (post_addBillLine_restricted <| entryOf_active he))
    fun _ t ⟨⟨hl, hcases⟩, ht⟩ hv => ?_
  have ⟨bill', hbill', hreckoned⟩ := hl.bill
  obtain rfl := Option.some.inj <| hbill.symm.trans hbill'
  refine h.reckoned hv ht (hl.only .item (by simp)) hl.lines hbill hreckoned fun hpaid {r'} hr' hunpaid => ?_
  refine hr he rfl hbill hpaid fun hoff => hunpaid <| (hreckoned.paid_iff hbill hr' ?_).mpr ?_
  · rw [hpaid]
    rfl
  · rw [chargeOf_eq h.tallied.assessed hcases]
    exact hoff

theorem reverse {pk : ℕ} (h : Barred s) (hr : (ItemRequest.reverse pk).Heeds s) :
    Prog.Post (ACRev360.reverse today pk) s <| Prog.OnReturn fun _ t =>
      Database.valid t → Barred t ∧ AssessesActive s t := by
  refine .bind <| post_getObject (fun q hq _ => ?_) fun _ => trivial
  refine .imp (post_reversePayment_reckoned hq) fun _ t ht hv => ?_
  have ⟨bill, hbill, hreckoned⟩ := ht.bill
  have hb : (Request.reverse pk).billOf s = some q.bill := by rw [Request.billOf, hq, Option.map_some]
  refine h.reckoned hv (.of_only ht.only (by simp)) (ht.only .item (by simp)) (.of_only ht.only (by simp))
    hbill hreckoned fun hpaid {r'} hr' hunpaid => ?_
  refine hr hb hbill hpaid fun hoff => hunpaid <| (hreckoned.paid_iff hbill hr' ?_).mpr ?_
  · rw [hpaid]
    rfl
  · rw [Db.lineTotal_congr (ht.only .line (by simp))]
    exact hoff

theorem postPayment {pk : ℕ} {r : PaymentRequest} (h : Barred s) :
    Prog.Post (createPaymentView today pk r) s <| Prog.OnReturn fun _ t =>
      Database.valid t → Barred t ∧ AssessesActive s t := by
  refine .bind <| post_getObject (fun _ _ _ => ?_) fun _ => trivial
  refine .imp (post_postPayment_reckoned h.tallied.sourced) fun _ t ht hv => ?_
  have ⟨bill, hbill, hreckoned⟩ := ht.bill
  refine h.reckoned hv (.of_only ht.only (by simp)) (ht.only .item (by simp)) (.of_only ht.only (by simp))
    hbill hreckoned fun hpaid {r'} hr' hunpaid => absurd ?_ hunpaid
  refine Reckoned.stays_paid h.tallied.totals hbill hr' hreckoned ?_ ?_ <| h.paid hbill hpaid
  · rw [Db.lineTotal_congr (ht.only .line (by simp))]
  · rw [hpaid]
    rfl

theorem issueBill {f : IssueForm} (h : Barred s) :
    Prog.Post (issueBillView today f) s <| Prog.OnReturn fun _ t =>
      Database.valid t → Barred t ∧ AssessesActive s t := by
  refine .bind <| post_getObject (fun payer _ _ => ?_) fun _ => trivial
  refine .seq post_resolveEntries fun lines _ ⟨hst, hlines⟩ => ?_
  subst hst
  refine .imp (.both post_issueBill (post_issueBill_restricted h.current hlines)) fun out t ⟨hi, ht⟩ hv => ?_
  exact h.issued hv ht hi

theorem serve {r : ItemRequest} (h : Barred s) (hr : r.Heeds s) :
    Prog.Post (r.serve today) s <| Prog.OnReturn fun _ t =>
      Database.valid t → Barred t ∧ AssessesActive s t := by
  have registers : ∀ {α} {p : Service α}, p.Maintains (Registered s.Active s) → Prog.Post p s
      (Prog.OnReturn fun _ t => Database.valid t → Barred t ∧ AssessesActive s t) := by
    refine fun hp => (hp s ⟨Std.Refl.refl _, Std.Refl.refl _⟩).mono fun r t ht => ?_
    cases r with
    | ok => exact fun hv => h.registered hv ht
    | error => trivial
  cases r with
  | retire council pk =>
    exact .imp post_retire fun _ t ⟨hdraft, hbill, ht⟩ hv => h.retire hv hdraft hbill ht
  | register council actor ids force enumeratedBy fields =>
    refine .seq (.bind <| post_select ?_) fun _ _ ht => .ret ht
    exact registers <| .of_keeps <| createPayer_registered <| itemsInCouncil_active hr
  | replayPayer fw council agent actor clientId payload =>
    refine .seq (registers <| replaySyncRecord_maintains ?_ ?_) fun _ _ ht => .ret ht
    · exact replayPayer_registered fun hp hd => itemsInCouncil_active <| hr hp hd
    · exact fun ho => Registered.of_only <| ho.mono <| by simp
  | issue f => exact .seq h.issueBill fun _ _ ht => .ret ht
  | addLine council pk actor d => exact .seq (h.addLine hr) fun _ _ ht => .ret ht
  | postPayment pk r => exact .seq h.postPayment fun _ _ ht => .ret ht
  | reverse pk => exact h.reverse hr

end Barred

section Runs

-- What has been served, the last first.
abbrev ItemHistory :=
  List (Prog.Served relational.schema (Date × ItemRequest))

-- The runs of requests that retire items and that bill them, from the time before anything is assessed.
abbrev ItemSession (ok : ItemHistory → Db → Date × ItemRequest → Prop) : ItemHistory → Db → Prop :=
  Prog.Session (fun s => Db.Initial s ∧ Database.table s .assessment = .empty)
    (fun r : Date × ItemRequest => r.2.serve r.1) ok

-- The item has no draft assessment and no line on a bill that is to be paid.
structure OutOfBilling (s : Db) (item : ℕ) : Prop where
  draft : ∀ {k a}, (s.table .assessment).get k = some a → a.item = item → a.status ≠ .draft
  line  : ∀ {k l a r}, (s.table .line).get k = some l → (s.table .assessment).get l.assessment = some a →
    a.item = item → (s.table .bill).get l.bill = some r → ¬r.status.isOpen

-- The items that are not active are out of billing.
def RetiredOut (s : Db) : Prop :=
  ∀ ⦃item i⦄, (s.table .item).get item = some i → i.isActive = false → OutOfBilling s item

-- No assessment is created for an item that is not active.
def NoneAssessed (s t : Db) : Prop :=
  ∀ ⦃item i⦄, (s.table .item).get item = some i → i.isActive = false → ∀ ⦃k a⦄,
    (t.table .assessment).get k = some a → a.item = item → (s.table .assessment).get k ≠ none

theorem Db.not_active {i : RevenueItem} {item : ℕ} (hi : (s.table .item).get item = some i)
    (ha : i.isActive = false) : ¬s.Active item := by
  intro ⟨i', hi', ha'⟩
  rw [hi, Option.some.injEq] at hi'
  simp [← hi', ha] at ha'

theorem Current.retiredOut (h : Current s.Active s) : RetiredOut s := by
  intro item i hi hinactive
  constructor
  case draft =>
    intro k a ha he hdraft
    exact Db.not_active hi hinactive <| he ▸ h.draft ha hdraft
  case line =>
    intro k l a r hl ha he hr hopen
    have ⟨a', ha', hok⟩ := h.line hl hr hopen
    rw [ha, Option.some.injEq] at ha'
    exact Db.not_active hi hinactive <| he ▸ ha' ▸ hok

theorem AssessesActive.noneAssessed (h : AssessesActive s t) : NoneAssessed s t :=
  fun _ _ hi hinactive _ _ ha he hnone => Db.not_active hi hinactive <| he ▸ h ha hnone

namespace Sample

-- The state and the sequences after the request.
def administer (s : Db × (Name → ℕ)) (r : ItemRequest) : Db × (Name → ℕ) :=
  ((r.serve day).call s.1 s.2).2

def fields (phone : String) : PayerFields :=
  { payer.row.toPayerFields with phone }

-- The payer of the council has the first primary key.
def retired : Db × (Name → ℕ) :=
  administer (Sample.council, Function.update keys .payer 2) <| .retire 1 1

-- A payer is registered for the item that has been retired.
def enumerated : Db × (Name → ℕ) :=
  administer retired <| .register 1 1 [1] false none (fields "0801")

theorem itemSession_administer {ok : ItemHistory → Db → Date × ItemRequest → Prop} {past : ItemHistory}
    {s : Db × (Name → ℕ)} {r : ItemRequest} (h : ItemSession ok past s.1) (hr : ok past s.1 (day, r)) :
    ItemSession ok (⟨(day, r), s.1, (administer s r).1⟩ :: past) (administer s r).1 :=
  .serve (n := s.2) (day, r) h hr rfl

end Sample

end Runs

end ACRev360
