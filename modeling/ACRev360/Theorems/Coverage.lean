import ACRev360.Theorems.Consolidation

namespace ACRev360

open Relational Relational.Database

variable {s t : Db} {b k : ℕ} {today : Date}

-- Nothing is charged that is less than nothing.
structure Nonneg (s : Db) : Prop where
  assessment : ∀ {k a}, (s.table .assessment).get k = some a → 0 ≤ a.amount.units
  line       : ∀ {k l}, (s.table .line).get k = some l →
    0 ≤ l.lineAmount.units ∧ 0 ≤ l.arrearsAmount.units

namespace Nonneg

theorem of_only {ts : List Name} (h : Nonneg s) (ho : Database.Only ts s t)
    (hts : ∀ t ∈ [Name.assessment, .line], t ∉ ts) : Nonneg t where
  assessment ha := h.assessment <| ho .assessment (hts _ (by simp)) ▸ ha
  line hl       := h.line <| ho .line (hts _ (by simp)) ▸ hl

theorem insert_assessment (h : Nonneg s) {a : Assessment} (ha : 0 ≤ a.amount.units) :
    Nonneg (s.insert .assessment k a) where
  assessment ha' := by
    rcases get_insert_cases ha' with ⟨_, rfl⟩ | ha'
    · exact ha
    · exact h.assessment ha'
  line hl        := by
    rw [insert_table_ne (by decide)] at hl
    exact h.line hl

theorem modify_assessment (h : Nonneg s) {g : Assessment → Assessment}
    (hg : ∀ a, 0 ≤ a.amount.units → 0 ≤ (g a).amount.units) : Nonneg (s.modify .assessment k g) where
  assessment {i a'} ha' := by
    rw [modify_table, Table.get_modify] at ha'
    split at ha'
    case isTrue =>
      have ⟨a, ha, he⟩ := Option.map_eq_some_iff.mp ha'
      exact he ▸ hg a (h.assessment ha)
    case isFalse => exact h.assessment ha'
  line hl               := h.line hl

theorem insert_line (h : Nonneg s) {l : BillLine} (hl : 0 ≤ l.lineAmount.units)
    (ha : 0 ≤ l.arrearsAmount.units) : Nonneg (s.insert .line k l) where
  assessment ha' := by
    rw [insert_table_ne (by decide)] at ha'
    exact h.assessment ha'
  line hl'       := by
    rcases get_insert_cases hl' with ⟨_, rfl⟩ | hl'
    · exact ⟨hl, ha⟩
    · exact h.line hl'

theorem modify_line (h : Nonneg s) {g : BillLine → BillLine}
    (hg : ∀ l, 0 ≤ l.arrearsAmount.units → 0 ≤ (g l).lineAmount.units ∧ 0 ≤ (g l).arrearsAmount.units) :
    Nonneg (s.modify .line k g) where
  assessment ha  := h.assessment ha
  line {i l'} hl' := by
    rw [modify_table, Table.get_modify] at hl'
    split at hl'
    case isTrue =>
      have ⟨l, hl, he⟩ := Option.map_eq_some_iff.mp hl'
      exact he ▸ hg l (h.line hl).2
    case isFalse => exact h.line hl'

theorem erase_line (h : Nonneg s) : Nonneg (s.erase .line k) where
  assessment ha := h.assessment ha
  line {i l} hl := by
    rw [erase_table, Table.get_erase] at hl
    split at hl
    · contradiction
    · exact h.line hl

end Nonneg

theorem units_nonneg {x : Money} {q : ℚ} (hx : x.units = cents q) (hq : 0 ≤ q) : 0 ≤ x.units :=
  hx ▸ cents_nonneg hq

-- Rates are not negative, and amounts that are set by hand lie between those of a band.
theorem bandAmount_nonneg {e : LineEntry} {band : Loaded RateBand} {amount : ℚ} {tier : Option ℕ}
    (h : bandAmount e band = .ok (amount, tier)) : 0 ≤ amount := by
  have rate : ∀ r : Rate, 0 ≤ r.val.toRat := fun r => Numeric.toRat_nonneg_iff.mpr r.property
  unfold bandAmount at h
  split at h
  case h_1 flatAmount _ =>
    cases h
    exact rate flatAmount
  case h_2 minAmount maxAmount _ =>
    split at h
    case h_1 => contradiction
    case h_2 amountOverride _ =>
      split at h
      case isTrue hle =>
        cases h
        exact (rate minAmount).trans hle.1
      case isFalse => contradiction
  case h_3 =>
    split at h
    case h_1 => contradiction
    case h_2 rateTier _ =>
      split at h
      case isTrue => contradiction
      case isFalse =>
        cases h
        exact rate rateTier.row.amount

theorem priceOf_nonneg {e : LineEntry} {p : ℚ} (he : 0 < e.quantity) (h : priceOf s e = some p) :
    0 ≤ p := by
  unfold priceOf at h
  split at h
  case isTrue =>
    split at h
    case h_1 amount _ hband =>
      have ⟨band, _, hamount⟩ := Option.map_eq_some_iff.mp hband
      cases h
      exact Decimal.round_nonneg <| mul_nonneg (bandAmount_nonneg hamount) he.le
    case h_2 => contradiction
  case isFalse =>
    have ⟨rate, _, hp⟩ := Option.map_eq_some_iff.mp h
    rw [← hp]
    refine Decimal.round_nonneg <| mul_nonneg ?_ he.le
    exact Numeric.toRat_nonneg_iff.mpr rate.row.rateAmount.property

theorem post_createDraftAssessment_nonneg {payer council actor : ℕ} {e : LineEntry} (h : Nonneg s) :
    Prog.Post (createDraftAssessment payer council actor e) s <| Prog.OnReturn fun a t =>
      Nonneg t ∧ 0 ≤ a.amount := by
  refine .imp post_createDraftAssessment fun a t ⟨hpos, hprice, row, hrow, ht⟩ => ?_
  have ha := priceOf_nonneg hpos hprice
  exact ⟨ht ▸ h.insert_assessment (units_nonneg hrow.amount ha), ha⟩

theorem post_setAssessmentStatus_nonneg {status : AssessmentStatus} (h : Nonneg s) :
    Prog.Post (setAssessmentStatus status k) s <| Prog.OnReturn fun _ t => Nonneg t :=
  post_save (fun _ _ => h.modify_assessment fun _ ha => ha) fun _ => trivial

section Merging

-- What folding one assessment into another keeps holds of what is left of the assessments.
theorem mergeAll_forall {P : AssessmentObject → Prop} {l : List AssessmentObject}
    {acc : List AssessmentObject × List AssessmentObject}
    (fold : ∀ {x y : AssessmentObject}, P x → P y → P { x with
      quantity := Decimal.round (x.quantity + y.quantity), amount := Decimal.round (x.amount + y.amount) })
    (h : ∀ x ∈ acc.1, P x) (hl : ∀ x ∈ l, P x) : ∀ x ∈ (l.foldl mergeAssessment acc).1, P x := by
  induction l generalizing acc with
  | nil => exact h
  | cons a l hi =>
    have ha := hl a <| .head _
    refine hi ?_ fun x hx => hl x <| .tail _ hx
    unfold mergeAssessment
    split
    case isTrue =>
      intro x hx
      have ⟨kept, hkept, he⟩ := List.mem_map.mp hx
      rw [← he]
      split
      · exact fold (h kept hkept) ha
      · exact h kept hkept
    case isFalse =>
      intro x hx
      rcases List.mem_append.mp hx with hx | hx
      · exact h x hx
      · rwa [List.mem_singleton.mp hx]

-- The amounts of the assessments that a bill charges.
abbrev NonnegAmounts (l : List AssessmentObject) : Prop :=
  ∀ a ∈ l, 0 ≤ a.amount

theorem draftsOf_nonneg {payer : ℕ} {excluded : List ℕ} (h : Nonneg s) :
    NonnegAmounts (draftsOf s payer excluded) := by
  intro a ha
  have ⟨⟨k, row⟩, hrow, he⟩ := List.mem_map.mp ha
  rw [← he]
  exact Numeric.toRat_nonneg_iff.mpr <| h.assessment (Table.mem_filter_iff.mp hrow).1

theorem post_mergedAssessments_nonneg {r : IssueRequest} (h : Nonneg s) :
    Prog.Post (mergedAssessments r) s <| Prog.OnReturn fun l t => Nonneg t ∧ NonnegAmounts l := by
  have price : Prog.Post (r.lines.foldlM (priceEntry r) []) s <| Prog.OnReturn fun l t =>
      Nonneg t ∧ NonnegAmounts l := by
    refine Prog.Post.foldlM (S := relational.schema) (I := fun l _ t => Nonneg t ∧ NonnegAmounts l)
      (fun ⟨ht, hl⟩ => ?_) ⟨h, List.forall_mem_nil _⟩
    refine .seq (post_createDraftAssessment_nonneg ht) fun a u ⟨hu, ha⟩ => .ret ⟨hu, fun x hx => ?_⟩
    rcases List.mem_append.mp hx with hx | hx
    · exact hl x hx
    · rwa [List.mem_singleton.mp hx]
  refine .seq price fun priced s₁ ⟨h₁, hpriced⟩ => .bind <| post_select ?_
  have hmerged : NonnegAmounts ((priced ++ if r.billAllDrafts then draftsOf s₁ r.payer.id
      (priced.map (·.id)) else []).foldl mergeAssessment ([], [])).1 := by
    refine mergeAll_forall (fun hx hy => Decimal.round_nonneg <| add_nonneg hx hy)
      (List.forall_mem_nil _) fun a ha => ?_
    rcases List.mem_append.mp ha with ha | ha
    · exact hpriced a ha
    · split at ha
      · exact draftsOf_nonneg h₁ a ha
      · contradiction
  refine .seq (.forM (fun a ha _ hs => ?save) h₁) fun _ s₂ h₂ => ?_
  case save =>
    refine .bind <| post_store (fun _ _ => .bind ?_) fun _ => trivial
    refine post_store (fun x hx => ?_) fun _ => trivial
    refine post_save (fun _ _ => hs.modify_assessment fun _ _ => ?_) fun _ => trivial
    exact units_nonneg hx <| hmerged a ha
  refine .seq (.forM (fun _ _ _ hs => post_setAssessmentStatus_nonneg hs) h₂) fun _ _ h₃ => ?_
  exact .ret ⟨h₃, hmerged⟩

end Merging

section Issuing

theorem post_createLine_nonneg {assessment position : ℕ} {current arrears amount : ℚ} (h : Nonneg s)
    (ha : 0 ≤ arrears) (hl : 0 ≤ amount) :
    Prog.Post (createLine b assessment current arrears amount position) s <|
      Prog.OnReturn fun _ t => Nonneg t := by
  refine .imp post_createLine fun k t ⟨l, _, _, ht, _, harrears, hamount⟩ => ?_
  exact ht ▸ h.insert_line (units_nonneg hamount hl) (units_nonneg harrears ha)

theorem post_createFreshLines_nonneg {assessments : List AssessmentObject} (h : Nonneg s)
    (ha : NonnegAmounts assessments) :
    Prog.Post (assessments.foldlM (createFreshLine b) []) s <| Prog.OnReturn fun fresh t =>
      Nonneg t ∧ ∀ f ∈ fresh, 0 ≤ f.currentAmount := by
  let I (fresh : List FreshLine) (rest : List AssessmentObject) (t : Db) :=
    Nonneg t ∧ NonnegAmounts rest ∧ ∀ f ∈ fresh, 0 ≤ f.currentAmount
  refine .imp (Prog.Post.foldlM (S := relational.schema) (I := I) (fun {fresh a rest _} h => ?step)
    ⟨h, ha, by simp⟩) fun fresh t ⟨ht, _, hfresh⟩ => ⟨ht, hfresh⟩
  obtain ⟨ht, hrest, hfresh⟩ := h
  have ha := hrest a <| .head _
  refine .seq (post_createLine_nonneg ht le_rfl ha) fun line _ h₁ => ?_
  refine .seq (post_setAssessmentStatus_nonneg h₁) fun _ _ h₂ => ?_
  refine .ret ⟨h₂, fun x hx => hrest x <| .tail _ hx, fun f hf => ?_⟩
  rcases List.mem_append.mp hf with hf | hf
  · exact hfresh f hf
  · rwa [List.mem_singleton.mp hf]

theorem post_placeArrears_nonneg {fresh : List FreshLine} {position : ℕ} {a : Arrears} (h : Nonneg s)
    (hfresh : ∀ f ∈ fresh, 0 ≤ f.currentAmount) (ha : 0 < a.amount) :
    Prog.Post (placeArrears b fresh position a) s <| Prog.OnReturn fun _ t => Nonneg t := by
  have hkobo := (kobo_pos ha).le
  unfold placeArrears
  split
  case h_1 f hf =>
    have hcurrent := hfresh f <| List.mem_of_find?_eq_some hf
    refine .bind <| post_store (fun x hx => .bind ?_) fun _ => trivial
    refine post_store (fun y hy => .bind ?_) fun _ => trivial
    refine post_save (fun _ _ => .ret <| h.modify_line fun _ _ => ?_) fun _ => trivial
    exact ⟨units_nonneg hy <| Decimal.round_nonneg <| add_nonneg hcurrent hkobo, units_nonneg hx hkobo⟩
  case h_2 => exact .seq (post_createLine_nonneg h hkobo hkobo) fun _ _ ht => .ret ht

theorem post_rollArrears_nonneg {payer : ℕ} {fresh : List FreshLine} (h : Nonneg s)
    (hfresh : ∀ f ∈ fresh, 0 ≤ f.currentAmount) :
    Prog.Post (rollArrears today payer b fresh) s <| Prog.OnReturn fun _ t => Nonneg t := by
  refine .bind <| post_select <| .seq post_lockOpenBills fun bills s₁ ⟨hs₁, _⟩ => ?_
  subst hs₁
  refine .seq post_rollBills fun arrears s₂ ⟨_, ho, hsum⟩ => ?_
  let I (_ : ℕ) (rest : List Arrears) (t : Db) := Nonneg t ∧ ∀ a ∈ rest, 0 < a.amount
  refine .seq (Prog.Post.foldlM (S := relational.schema) (I := I) (fun {_ a rest _} ⟨ht, hrest⟩ => ?step)
    ⟨h.of_only ho (by simp), hsum.pos⟩) fun _ _ ⟨h₃, _⟩ => .ret h₃
  refine .imp (post_placeArrears_nonneg ht hfresh <| hrest a <| .head _) fun _ _ hu => ?_
  exact ⟨hu, fun x hx => hrest x <| .tail _ hx⟩

theorem post_writeBill_nonneg {r : IssueRequest} {assessments : List AssessmentObject} {dueDate : Date}
    (h : Nonneg s) (ha : NonnegAmounts assessments) :
    Prog.Post (writeBill today r assessments dueDate) s <| Prog.OnReturn fun _ t => Nonneg t := by
  refine .bind <| post_create (fun bill _ => ?_) fun _ => trivial
  refine .seq (post_createFreshLines_nonneg ?start ha) fun fresh s₂ ⟨h₂, hfresh⟩ => ?_
  case start => exact h.of_only (only_insert <| List.mem_singleton_self _) (by simp)
  have roll : Prog.Post (if r.rollArrears then rollArrears today r.payer.id bill fresh
      else pure 0 : Service ℕ) s₂ <| Prog.OnReturn fun _ t => Nonneg t := by
    split
    · exact post_rollArrears_nonneg h₂ hfresh
    · exact .ret h₂
  refine .seq roll fun _ s₃ h₃ => .seq post_finalizeBill fun _ t h₄ => .ret ?_
  have ⟨_, _, _, _, _, _, _, _, ho⟩ := h₄
  exact h₃.of_only ho (by simp)

theorem post_issueBill_nonneg {r : IssueRequest} (h : Nonneg s) :
    Prog.Post (issueBill today r) s <| Prog.OnReturn fun _ t => Nonneg t := by
  refine .bind <| post_getForUpdate (fun _ _ => ?_) fun _ => trivial
  have rest : Prog.Post (do
      let assessments ← mergedAssessments r
      if assessments.isEmpty && !r.rollArrears then refuse .emptyBill
      let dueDate ← dueDateOf today r
      writeBill today r assessments dueDate) s (Prog.OnReturn fun _ t => Nonneg t) := by
    refine .seq (post_mergedAssessments_nonneg h) fun assessments s₁ ⟨h₁, ha⟩ => ?_
    refine post_guard (fun _ => trivial) fun _ => ?_
    refine .seq (dueDateOf_keeps (P := Eq)).returns fun dueDate s₂ h₂ => ?_
    exact post_writeBill_nonneg (h₂ ▸ h₁) ha
  refine post_unless (fun _ => rest) fun _ => ?_
  refine .seq (checkDuplicate_keeps (P := Eq)).returns fun _ s₁ h₁ => ?_
  exact h₁ ▸ rest

end Issuing

theorem post_recomputeBill_nonneg {bill : Loaded Bill} {amountPaid : ℚ} (h : Nonneg s) :
    Prog.Post (recomputeBill today bill amountPaid) s <| Prog.OnReturn fun _ t => Nonneg t :=
  .imp (recomputeBill_keeps fun _ => only_modify <| List.mem_singleton_self _).returns
    fun _ _ ho => h.of_only ho (by simp)

theorem post_addBillLine_nonneg {bill : Loaded Bill} {actor : ℕ} {e : LineEntry} (h : Nonneg s) :
    Prog.Post (addBillLine today bill actor e) s <| Prog.OnReturn fun _ t => Nonneg t := by
  refine .bind <| post_load (fun _ _ => ?_) fun _ => trivial
  refine .seq (post_createDraftAssessment_nonneg h) fun a s₁ ⟨h₁, ha⟩ => .bind <| post_select ?_
  simp only
  split
  case h_1 line hfound =>
    have harrears := Numeric.toRat_nonneg_iff.mpr (h₁.line (matchingLine_mem hfound).1).2
    refine .bind <| post_load (fun existing hexisting => .bind ?_) fun _ => trivial
    have hcurrent : 0 ≤ Decimal.round (existing.amount.toRat + a.amount) :=
      Decimal.round_nonneg <| add_nonneg (Numeric.toRat_nonneg_iff.mpr <| h₁.assessment hexisting) ha
    refine post_store (fun _ _ => .bind ?_) fun _ => trivial
    refine post_store (fun x hx => .bind ?_) fun _ => trivial
    refine post_save (fun _ _ => .bind ?_) fun _ => trivial
    refine post_store (fun _ _ => .bind ?_) fun _ => trivial
    refine post_store (fun y hy => .bind ?_) fun _ => trivial
    refine post_save (fun _ _ => .bind ?_) fun _ => trivial
    refine post_save (fun _ _ => ?_) fun _ => trivial
    refine .seq (post_recomputeBill_nonneg ?amounts) fun _ _ ht => .ret ht
    refine .modify_assessment (.modify_line (.modify_assessment h₁ fun _ _ => ?_) fun _ ha' => ?_) fun _ => id
    · exact units_nonneg hx hcurrent
    · exact ⟨units_nonneg hy <| Decimal.round_nonneg <| add_nonneg hcurrent harrears, ha'⟩
  case h_2 =>
    refine .seq (post_setAssessmentStatus_nonneg h₁) fun _ _ h₂ => .bind <| post_select ?_
    refine .seq (post_createLine_nonneg h₂ le_rfl ha) fun _ _ h₃ => ?_
    exact .seq (post_recomputeBill_nonneg h₃) fun _ _ ht => .ret ht

theorem post_updateBillLine_nonneg {line : Loaded BillLine} {lineAmount : ℚ} (h : Nonneg s) :
    Prog.Post (updateBillLine today line lineAmount) s <| Prog.OnReturn fun _ t => Nonneg t := by
  refine post_guard (fun _ => trivial) fun hpos => post_guard (fun _ => trivial) fun hle => ?_
  refine .bind <| post_store (fun x hx => .bind ?_) fun _ => trivial
  refine post_store (fun y hy => .bind ?_) fun _ => trivial
  refine post_save (fun _ _ => .bind ?_) fun _ => trivial
  refine post_load (fun _ _ => .bind ?_) fun _ => trivial
  refine post_save (fun _ _ => .bind ?_) fun _ => trivial
  refine post_load (fun _ _ => ?_) fun _ => trivial
  refine .seq (post_recomputeBill_nonneg ?amounts) fun _ _ ht => .ret ht
  refine .modify_assessment (.modify_line h fun _ ha => ?_) fun _ _ => ?_
  · exact ⟨units_nonneg hy (not_le.mp hpos).le, ha⟩
  · exact units_nonneg hx <| Decimal.round_nonneg <| sub_nonneg.mpr <| not_lt.mp hle

theorem post_deleteBillLine_nonneg {line : Loaded BillLine} (h : Nonneg s) :
    Prog.Post (deleteBillLine today line) s <| Prog.OnReturn fun _ t => Nonneg t := by
  refine .bind <| post_load (fun _ _ => .bind ?_) fun _ => trivial
  refine post_select <| post_guard (fun _ => trivial) fun _ => .bind ?_
  refine post_select <| post_guard (fun _ => trivial) fun _ => .bind ?_
  refine post_load (fun _ _ => .seq (post_setAssessmentStatus_nonneg h) fun _ _ h₁ => .bind ?_) fun _ => trivial
  refine post_select <| post_guard (fun _ => trivial) fun _ => .bind ?_
  refine post_delete (fun _ _ => ?_) fun _ => ?_
  · exact .seq (post_recomputeBill_nonneg h₁.erase_line) fun _ _ ht => .ret ht
  · exact .seq (post_recomputeBill_nonneg h₁) fun _ _ ht => .ret ht

theorem Db.Initial.nonneg (h : s.Initial) : Nonneg s where
  assessment := h.assessment
  line hl    := by simp [h.line] at hl

theorem Nonneg.serve {r : Request} (h : Nonneg s) (hs : Sourced s) :
    Prog.Post (r.serve today) s <| Prog.OnReturn fun _ t => Nonneg t := by
  cases r with
  | issueBill r => exact .seq (post_issueBill_nonneg h) fun _ _ ht => .ret ht
  | addLine pk actor e =>
    refine .seq (.bind <| post_getObject (fun _ _ _ => ?_) fun _ => trivial) fun _ _ ht => .ret ht
    exact post_addBillLine_nonneg h
  | putLine pk lineId lineAmount =>
    refine .bind <| post_getObject (fun _ _ _ => .bind ?_) fun _ => trivial
    exact post_getObject (fun _ _ _ => post_updateBillLine_nonneg h) fun _ => trivial
  | deleteLine pk lineId =>
    refine .bind <| post_getObject (fun _ _ _ => .bind ?_) fun _ => trivial
    refine post_getObject (fun _ _ _ => .bind ?_) fun _ => trivial
    exact post_select <| post_guard (fun _ => trivial) fun _ => post_deleteBillLine_nonneg h
  | postPayment pk r =>
    refine .seq (.bind <| post_getObject (fun _ _ _ => ?_) fun _ => trivial) fun _ _ ht => .ret ht
    exact .imp (post_postPayment_reckoned hs) fun _ _ ht => h.of_only ht.only (by simp)
  | reverse pk =>
    refine .bind <| post_getObject (fun _ hq _ => ?_) fun _ => trivial
    exact .imp (post_reversePayment_reckoned hq) fun _ _ ht => h.of_only ht.only (by simp)

theorem Db.Reachable.nonneg {ok : Db → Request → Prop} (h : s.Reachable ok) : Nonneg s := by
  have hboth := h.preserves (P := fun s => Tallied s ∧ Nonneg s) (fun hi => ⟨hi.tallied, hi.nonneg⟩)
    fun ⟨ht, hn⟩ _ => .imp (.both ht.serve <| hn.serve ht.sourced) fun _ _ ⟨ht, hn⟩ hv => ⟨ht hv, hn⟩
  exact hboth.2

-- No line has been paid more than its amount.
def Covered (s : Db) : Prop :=
  ∀ ⦃k l⦄, (s.table .line).get k = some l → s.paidAmount k ≤ l.lineAmount.units

theorem Entries.paidAmount_of_absent (h : Entries s) (hk : (s.table .line).get k = none) :
    s.paidAmount k = 0 :=
  Table.sum_eq_zero fun _ _ ha => if_neg fun ⟨hline, _⟩ => by
    have ⟨_, l, _, hl, _⟩ := h.alloc ha
    simp [hline, hk] at hl

namespace Covered

-- The lines that are not as they were have not been paid more than they amount to now.
theorem of_lines (h : Covered s) (hpaid : t.paidAmount = s.paidAmount)
    (hlines : ∀ k l, (t.table .line).get k = some l →
      (s.table .line).get k = some l ∨ s.paidAmount k ≤ l.lineAmount.units) : Covered t := by
  intro k l hl
  rw [hpaid]
  exact (hlines k l hl).elim (fun hl => h hl) id

theorem issued {r : IssueRequest} {rolled : List ℕ} (h : Covered s) (hi : Issued r b rolled s t)
    (he : Entries s) (hn : Nonneg t) : Covered t := by
  refine h.of_lines (Db.paidAmount_congr (hi.only .allocation (by simp)) (hi.only .payment (by simp)))
    fun k l hl => ?_
  by_cases hb : l.bill = b
  case neg => exact .inl <| (hi.lines k l hb).mp hl
  case pos =>
    cases hk : (s.table .line).get k with
    | none => exact .inr <| he.paidAmount_of_absent hk ▸ (hn.line hl).1
    | some l' =>
      have hb' : l'.bill ≠ b := fun heq => by
        have ⟨r, hr⟩ := he.line hk
        simp [heq, hi.absent] at hr
      rw [(hi.lines k l' hb').mpr hk, Option.some.injEq] at hl
      exact absurd (hl ▸ hb) hb'

theorem relined (h : Covered s) (hr : Relined today b s t)
    (hlines : ∀ k l, (t.table .line).get k = some l →
      (s.table .line).get k = some l ∨ s.paidAmount k ≤ l.lineAmount.units) : Covered t :=
  h.of_lines (Db.paidAmount_congr (hr.only .allocation (by simp)) (hr.only .payment (by simp))) hlines

-- A line has been given another amount, which covers what it has been paid.
theorem modified {line : ℕ} {current amount : Money} (h : Covered s) (hr : Relined today b s t)
    (ht : t.table .line = (s.table .line).modify line fun l =>
      { l with currentAmount := current, lineAmount := amount })
    (hamount : s.paidAmount line ≤ amount.units) : Covered t := by
  refine h.relined hr fun k l hl => ?_
  rw [ht, Table.get_modify] at hl
  split at hl
  case isTrue hk =>
    have ⟨l', _, he⟩ := Option.map_eq_some_iff.mp hl
    rw [hk, ← he]
    exact .inr hamount
  case isFalse => exact .inl hl

theorem inserted {l : BillLine} (h : Covered s) (hr : Relined today b s t) (he : Entries s)
    (hn : Nonneg t) (hk : (s.table .line).get k = none)
    (ht : t.table .line = (s.table .line).insert k l) : Covered t := by
  refine h.relined hr fun i l' hl => ?_
  by_cases hi : i = k
  case pos => exact .inr <| he.paidAmount_of_absent (hi ▸ hk) ▸ (hn.line hl).1
  case neg => exact .inl <| by rwa [ht, Table.get_insert_ne hi] at hl

theorem erased {line : ℕ} (h : Covered s) (hr : Relined today b s t)
    (ht : t.table .line = (s.table .line).erase line) : Covered t := by
  refine h.relined hr fun k l hl => ?_
  rw [ht, Table.get_erase] at hl
  split at hl
  · contradiction
  · exact .inl hl

theorem paid {amount : ℚ} (h : Covered s) (hp : Paid today b amount s t) : Covered t := by
  intro k l hl
  rw [hp.only .line (by simp)] at hl
  exact (hp.lines k l hl).trans <| max_le (h hl) le_rfl

-- A reversal takes back what its payment has paid.
theorem reverted {q : Payment} (h : Covered s) (hr : Reverted today k q s t) (he : Entries s) :
    Covered t := by
  intro line l hl
  rw [hr.only .line (by simp)] at hl
  rw [Db.paidAmount, hr.only .allocation (by simp)]
  refine le_trans (Table.sum_le_sum fun i a ha => ?_) (h hl)
  have hconfirmed : t.confirmed a.payment → s.confirmed a.payment := by
    rw [Db.confirmed, Db.confirmed, hr.payment, Table.get_modify]
    split
    · cases (s.table .payment).get k <;> simp
    · exact id
  have hamount := (he.alloc ha).1
  split
  case isTrue hc => rw [if_pos ⟨hc.1, hconfirmed hc.2⟩]
  case isFalse =>
    split
    · exact hamount
    · exact le_rfl

end Covered

-- A line is given no amount below what it has been paid.
def Request.Covers (s : Db) : Request → Prop
  | .putLine _ lineId lineAmount => s.paidAmount lineId ≤ cents lineAmount
  | .addLine pk _ e => ∀ line amount, Merged s pk e line amount → s.paidAmount line.id ≤ amount
  | _ => True

theorem Covered.serve {r : Request} (h : Covered s) (he : Entries s) (hs : Tallied s) (hr : r.Covers s) :
    Prog.Post (r.serve today) s <| Prog.OnReturn fun _ t => Nonneg t → Covered t := by
  cases r with
  | issueBill r => exact .seq post_issueBill fun _ _ ht => .ret <| h.issued ht he
  | addLine pk actor e =>
    refine .seq (.bind <| post_getObject (fun bill hbill _ => ?_) fun _ => trivial) fun _ _ ht => .ret ht
    refine .imp (post_addBillLine hbill) fun _ t ⟨ht, hlines⟩ hn => ?_
    rcases hlines with ⟨line, current, amount, _, _, hmerged, hline⟩ | ⟨k, l, hk, _, _, hline⟩
    · exact h.modified ht hline <| hr line amount.units <| hmerged hs.assessed
    · exact h.inserted ht he hn hk hline
  | putLine pk lineId lineAmount =>
    refine .bind <| post_getObject (fun _ _ _ => .bind ?_) fun _ => trivial
    refine post_getObject (fun line hline _ => ?_) fun _ => trivial
    refine .imp (post_updateBillLine hline) fun _ t ⟨ht, current, amount, hamount, hlines⟩ _ => ?_
    exact h.modified ht hlines <| hamount ▸ hr
  | deleteLine pk lineId =>
    refine .bind <| post_getObject (fun _ _ _ => .bind ?_) fun _ => trivial
    refine post_getObject (fun line hline _ => .bind ?_) fun _ => trivial
    refine post_select <| post_guard (fun _ => trivial) fun _ => ?_
    exact .imp (post_deleteBillLine hline) fun _ _ ht _ => h.erased ht.1 ht.2.1
  | postPayment pk r =>
    refine .seq (.bind <| post_getObject (fun _ _ _ => ?_) fun _ => trivial) fun _ _ ht => .ret ht
    exact .imp (post_postPayment_reckoned hs.sourced) fun _ _ ht _ => h.paid ht
  | reverse pk =>
    refine .bind <| post_getObject (fun _ hq _ => ?_) fun _ => trivial
    exact .imp (post_reversePayment_reckoned hq) fun _ _ ht _ => h.reverted ht he

-- No line, and so no bill, has been paid more than its amount. The excess is credited to the payer.
structure WithinLines (s : Db) : Prop where
  lines  : Covered s
  bills  : ∀ {b r}, (s.table .bill).get b = some r → r.amountPaid.units ≤ r.totalAmount.units
  excess : ∀ {p r}, (s.table .payer).get p = some r → r.creditBalance.units = s.creditOf p

-- A bill has collected what its lines have been paid, and its total is that of its lines.
theorem Covered.within (h : Covered s) (hl : Ledger s) (hs : Tallied s) : WithinLines s where
  lines        := h
  bills {b r} hr := by
    rw [hl.conserved.bills hr, (hs.totals hr).1, Db.collectedOn_eq, Db.lineTotal]
    refine Table.sum_le_sum fun k l hk => ?_
    split
    · exact h hk
    · exact le_rfl
  excess       := hl.conserved.credits

-- Lines are never paid beyond their amounts unless their amounts are lowered.
theorem withinLines_of_reachable (h : s.Reachable fun s r => r.Positive ∧ r.Exact s ∧ r.Covers s) :
    WithinLines s := by
  have ⟨hledger, htallied, _, hcovered⟩ :=
    h.preserves (P := fun s => Ledger s ∧ Tallied s ∧ Nonneg s ∧ Covered s) (fun hi => ?start) fun hs hr => ?serve
  case start =>
    exact ⟨hi.ledger, hi.tallied, hi.nonneg, fun _ _ hl => by simp [hi.line] at hl⟩
  case serve =>
    obtain ⟨hledger, htallied, hnonneg, hcovered⟩ := hs
    obtain ⟨hpositive, hexact, hcovers⟩ := hr
    refine .imp (.both (.both (hledger.serve hpositive hexact) htallied.serve) <|
      .both (hnonneg.serve htallied.sourced)
        (hcovered.serve hledger.toEntries htallied hcovers)) fun _ t ⟨⟨hl, ht⟩, hn, hc⟩ hv => ?_
    exact ⟨hl hv, ht hv, hn, hc hn⟩
  exact hcovered.within hledger htallied

set_option maxRecDepth 20000 in
theorem sample_withinLines : WithinLines Sample.partPaid.1 := by
  refine withinLines_of_reachable <| Sample.reachable_serve
    (Sample.reachable_issued ⟨trivial, trivial, trivial⟩)
    ⟨by norm_num [Request.Positive, Sample.pay], fun bill hbill => ?_, trivial⟩
  have hpaid : ((Sample.issued.1.table .bill).get 1).map (·.amountPaid) = some 0 := by decide +kernel
  rw [hbill, Option.map_some, Option.some.injEq] at hpaid
  rw [hpaid]
  exact ⟨2, 1000, le_refl _, by norm_num [Decimal.precision], by norm_num [Numeric.toRat, Sample.pay]⟩

set_option maxRecDepth 20000 in
-- A line of 20.00 is lowered to 10.00 once it is paid.
theorem not_withinLines_of_positive : ∃ s : Db, s.Reachable (fun _ r => r.Positive) ∧ ¬WithinLines s := by
  refine ⟨Sample.lowered.1, ?_, fun h => ?_⟩
  · refine Sample.reachable_serve (Sample.reachable_serve (Sample.reachable_serve
      (.initial Sample.council_initial) trivial) ?_) trivial
    norm_num [Request.Positive, Sample.pay]
  · have hline : ((Sample.lowered.1.table .line).get 1).map (·.lineAmount.units) = some 1000 := by
      decide +kernel
    have hpaid : Sample.lowered.1.paidAmount 1 = 2000 := by decide +kernel
    obtain ⟨l, hl, hunits⟩ := Option.map_eq_some_iff.mp hline
    have := h.lines hl
    omega

end ACRev360
