import ACRev360.Library.Grouping
import ACRev360.Theorems.Pricing

namespace ACRev360

open Relational Relational.Database

-- What issuing a bill writes to the assessments, and the lines that it makes of them.

variable {s t u : Db} {bill payer k : ℕ} {today : Date} {r : IssueRequest}

section Folding

-- Assessments of one item, band and tier are folded into the first of them.
def folding : Grouping AssessmentObject AssessmentObject (ℕ × Option ℕ × Option ℕ) where
  key          := AssessmentObject.key
  tag          := AssessmentObject.key
  start        := id
  add kept a   := { kept with
    quantity := Decimal.round (kept.quantity + a.quantity)
    amount   := Decimal.round (kept.amount + a.amount) }
  tag_start _  := rfl
  tag_add _ _  := rfl

theorem mergeAssessment_fst {acc : List AssessmentObject × List AssessmentObject} {a : AssessmentObject} :
    (mergeAssessment acc a).1 = folding.step acc.1 a := by
  unfold mergeAssessment Grouping.step
  split
  case isTrue h => exact (if_pos h).symm
  case isFalse h => exact (if_neg h).symm

theorem foldl_mergeAssessment_fst {l : List AssessmentObject} {acc : List AssessmentObject × List AssessmentObject} :
    (l.foldl mergeAssessment acc).1 = l.foldl folding.step acc.1 := by
  induction l generalizing acc with
  | nil => rfl
  | cons a l hi => rw [List.foldl_cons, List.foldl_cons, hi, mergeAssessment_fst]

theorem ids_step {acc : List AssessmentObject} {a : AssessmentObject} :
    (folding.step acc a).map AssessmentObject.id = if folding.key a ∈ acc.map folding.tag then
      acc.map AssessmentObject.id else acc.map AssessmentObject.id ++ [a.id] := by
  split
  case isTrue h =>
    rw [Grouping.step_of_mem h, List.map_map]
    refine List.map_congr_left fun b _ => ?_
    rw [Function.comp_apply]
    split <;> rfl
  case isFalse h =>
    rw [Grouping.step_of_not_mem h, List.map_append]
    rfl

-- Every assessment is kept or folded into another one.
theorem ids_foldl {l : List AssessmentObject} {acc : List AssessmentObject × List AssessmentObject} :
    (((l.foldl mergeAssessment acc).1 ++ (l.foldl mergeAssessment acc).2).map AssessmentObject.id).Perm
      ((acc.1 ++ acc.2).map AssessmentObject.id ++ l.map AssessmentObject.id) := by
  induction l generalizing acc with
  | nil => simp
  | cons a l hi =>
    rw [List.foldl_cons, List.map_cons]
    refine hi.trans ?_
    have hstep : (((mergeAssessment acc a).1 ++ (mergeAssessment acc a).2).map AssessmentObject.id).Perm
        ((acc.1 ++ acc.2).map AssessmentObject.id ++ [a.id]) := by
      rw [List.map_append, List.map_append, mergeAssessment_fst, ids_step]
      by_cases h : folding.key a ∈ acc.1.map folding.tag
      case pos =>
        have hsnd : (mergeAssessment acc a).2 = acc.2 ++ [a] :=
          congrArg Prod.snd <| if_pos <| Grouping.any_tag (g := folding).mpr h
        rw [if_pos h, hsnd, List.map_append, List.append_assoc]
        rfl
      case neg =>
        have hmerge : mergeAssessment acc a = (acc.1 ++ [a], acc.2) :=
          if_neg <| mt (Grouping.any_tag (g := folding)).mp h
        rw [if_neg h, hmerge, List.append_assoc, List.append_assoc]
        exact (List.perm_append_comm).append_left _
    refine (hstep.append_right _).trans ?_
    rw [List.append_assoc]
    rfl

theorem nodup_folding {l : List AssessmentObject} (h : (l.map AssessmentObject.id).Nodup) :
    ((folding.merge l).map AssessmentObject.id).Nodup := by
  have hids := @ids_foldl l ([], [])
  rw [foldl_mergeAssessment_fst, List.map_append] at hids
  exact (List.nodup_append.mp <| hids.nodup_iff.mpr h).1

end Folding

section Pricing

-- The entries have been priced, each with an assessment of its own.
structure AllCosted (payer : ℕ) (entries : List LineEntry) (s t : Db) (objs : List AssessmentObject) : Prop where
  each   : List.Forall₂ (fun e a => ∃ row, Costed s payer e a row ∧ (t.table .assessment).get a.id = some row)
    entries objs
  fresh  : ∀ a ∈ objs, (s.table .assessment).get a.id = none
  nodup  : (objs.map AssessmentObject.id).Nodup
  others : ∀ k ∉ objs.map AssessmentObject.id, (t.table .assessment).get k = (s.table .assessment).get k
  only   : Database.Only [Name.assessment] s t

namespace AllCosted

variable {entries : List LineEntry} {objs : List AssessmentObject}

theorem nil : AllCosted payer [] s s [] where
  each         := .nil
  fresh        := List.forall_mem_nil _
  nodup        := .nil
  others _ _   := rfl
  only         := Std.Refl.refl _

theorem get (h : AllCosted payer entries s t objs) : ∀ a ∈ objs, ∃ e ∈ entries, ∃ row,
    Costed s payer e a row ∧ (t.table .assessment).get a.id = some row := by
  have heach := h.each
  clear h
  induction heach with
  | nil => exact List.forall_mem_nil _
  | cons h _ hi =>
    refine List.forall_mem_cons.mpr ⟨⟨_, .head _, h⟩, fun a ha => ?_⟩
    have ⟨e, he, hrest⟩ := hi a ha
    exact ⟨e, .tail _ he, hrest⟩

theorem push (h : AllCosted payer entries s t objs) {e : LineEntry} {a : AssessmentObject} {row : Assessment}
    (ha : Charged t payer e a row) :
    AllCosted payer (entries ++ [e]) s (t.insert .assessment a.id row) (objs ++ [a]) := by
  have hget : ∀ i, ((t.insert .assessment a.id row).table .assessment).get i =
      if i = a.id then some row else (t.table .assessment).get i := fun i => by
    rw [insert_table ha.retired, Table.get_insert, ha.absent, Option.getD_none]
  have hnot : a.id ∉ objs.map AssessmentObject.id := fun hmem => by
    have ⟨a', ha', he⟩ := List.mem_map.mp hmem
    have ⟨_, _, _, _, hget'⟩ := h.get a' ha'
    simp [he, ha.absent] at hget'
  constructor
  case each =>
    refine List.rel_append (R := fun e a' => ∃ row', Costed s payer e a' row' ∧
      ((t.insert .assessment a.id row).table .assessment).get a'.id = some row') ?_ ?_
    · exact h.each.imp fun e a ⟨row, hrow, hg⟩ => ⟨row, hrow, get_insert_of_some hg⟩
    · refine .cons ⟨row, ?_, by rw [hget, if_pos rfl]⟩ .nil
      exact (Costed.congr <| .of_only h.only (by simp)).mp ha.toCosted
  case fresh =>
    refine List.forall_mem_append.mpr ⟨h.fresh, List.forall_mem_singleton.mpr ?_⟩
    rw [← h.others a.id hnot, ha.absent]
  case nodup =>
    rw [List.map_append]
    exact List.nodup_append.mpr ⟨h.nodup, by simp, fun x hx y hy he =>
      hnot <| List.mem_singleton.mp hy ▸ he ▸ hx⟩
  case others =>
    intro i hi
    rw [List.map_append, List.mem_append, not_or, List.map_singleton, List.mem_singleton] at hi
    rw [hget, if_neg hi.2, h.others i hi.1]
  case only => exact IsTrans.trans _ _ _ h.only <| only_insert <| .head _

end AllCosted

theorem post_priceEntries {past rest : List LineEntry} {objs : List AssessmentObject}
    (h : AllCosted r.payer.id past s t objs) : Prog.Post (rest.foldlM (priceEntry r) objs) t <|
      Prog.OnReturn fun objs u => AllCosted r.payer.id (past ++ rest) s u objs := by
  induction rest generalizing t past objs with
  | nil => exact .ret <| by rwa [List.append_nil]
  | cons e rest hi =>
    rw [List.foldlM_cons, List.append_cons]
    refine .seq (Q := fun objs u => AllCosted r.payer.id (past ++ [e]) s u objs) ?_ fun objs u hu => hi hu
    exact .seq post_createDraftAssessment_charged fun a u ⟨row, hrow, hu⟩ => .ret <| hu ▸ h.push hrow

-- The drafts of the payer that the request sweeps in.
def IssueRequest.drafts (r : IssueRequest) (s : Db) : List AssessmentObject :=
  if r.billAllDrafts then draftsOf s r.payer.id [] else []

-- A draft as the request finds it.
theorem mem_drafts {a : AssessmentObject} (h : a ∈ r.drafts s) : ∃ row, (s.table .assessment).get a.id = some row ∧
    row.payer = r.payer.id ∧ row.status = .draft ∧
    a = ⟨a.id, row.item, row.rateBand, row.rateTier, row.quantity.toRat, row.amount.toRat⟩ := by
  unfold IssueRequest.drafts at h
  split at h
  case isFalse => simp at h
  case isTrue =>
    have ⟨⟨k, row⟩, hrow, he⟩ := List.mem_map.mp h
    have ⟨hget, hp⟩ := Table.mem_filter_iff.mp hrow
    simp only [Bool.and_eq_true, decide_eq_true_eq] at hp
    subst he
    exact ⟨row, hget, hp.1.1, hp.1.2, rfl⟩

theorem drafts_nodup : ((r.drafts s).map AssessmentObject.id).Nodup := by
  unfold IssueRequest.drafts
  split
  case isFalse => exact .nil
  case isTrue =>
    rw [draftsOf, List.map_map]
    exact Table.keys_nodup

theorem AllCosted.nodup_append {entries : List LineEntry} {objs : List AssessmentObject}
    (h : AllCosted payer entries s t objs) : ((objs ++ r.drafts s).map AssessmentObject.id).Nodup := by
  rw [List.map_append]
  refine List.nodup_append.mpr ⟨h.nodup, drafts_nodup, fun x hx y hy he => ?_⟩
  have ⟨a, ha, hax⟩ := List.mem_map.mp hx
  have ⟨a', ha', hay⟩ := List.mem_map.mp hy
  have ⟨row, hrow, _⟩ := mem_drafts ha'
  simp [hay, ← he, ← hax, h.fresh a ha] at hrow

theorem AllCosted.drafts {entries : List LineEntry} {objs : List AssessmentObject}
    (h : AllCosted payer entries s t objs) : draftsOf t k (objs.map AssessmentObject.id) = draftsOf s k [] := by
  unfold draftsOf
  congr 1
  have hsame : (t.table .assessment).filter (fun i a => a.payer = k && a.status = .draft &&
      !(objs.map AssessmentObject.id).contains i) = (s.table .assessment).filter fun i a =>
      a.payer = k && a.status = .draft && !(objs.map AssessmentObject.id).contains i := by
    refine Table.filter_congr fun i a hp => ?_
    simp only [Bool.and_eq_true, Bool.not_eq_true', List.contains_eq_mem, decide_eq_false_iff_not] at hp
    rw [h.others i hp.2]
  rw [hsame]
  refine List.filter_congr fun x hmem => ?_
  obtain ⟨i, a⟩ := x
  have hi : i ∉ objs.map AssessmentObject.id := fun hmem' => by
    obtain ⟨a', ha', he⟩ := List.mem_map.mp hmem'
    have hget := Table.mem_rows_iff.mp hmem
    simp [← he, h.fresh a' ha'] at hget
  simp [hi]

end Pricing

section Saving

variable {l : List AssessmentObject}

structure Saved (l : List AssessmentObject) (s t : Db) : Prop where
  each   : ∀ a ∈ l, ∃ (row : Assessment) (quantity : Quantity) (amount : Money),
    (s.table .assessment).get a.id = some row ∧ quantity.units = cents a.quantity ∧ amount.units = cents a.amount ∧
    (t.table .assessment).get a.id = some { row with quantity, amount }
  others : ∀ k ∉ l.map AssessmentObject.id, (t.table .assessment).get k = (s.table .assessment).get k
  only   : Database.Only [Name.assessment] s t

theorem post_saveAssessments (hl : (l.map AssessmentObject.id).Nodup) :
    Prog.Post (l.forM saveAssessment) s <| Prog.OnReturn fun _ t => Saved l s t := by
  induction l generalizing s with
  | nil => exact .ret ⟨List.forall_mem_nil _, fun _ _ => rfl, Std.Refl.refl _⟩
  | cons a l hi =>
    rw [List.map_cons, List.nodup_cons] at hl
    refine .bind <| .bind <| post_store (fun quantity hquantity => .bind ?_) fun _ => trivial
    refine post_store (fun amount hamount => ?_) fun _ => trivial
    refine post_save (fun row hrow => ?_) fun _ => trivial
    refine (hi hl.2).imp fun _ t ⟨heach, hothers, honly⟩ => ?_
    have hget : ∀ i ≠ a.id, ((s.modify .assessment a.id fun r => { r with quantity, amount }).table .assessment).get i =
        (s.table .assessment).get i := fun i hi => by rw [modify_table, Table.get_modify, if_neg hi]
    refine ⟨List.forall_mem_cons.mpr ⟨⟨row, quantity, amount, hrow, hquantity, hamount, ?_⟩, fun a' ha' => ?_⟩,
      fun k hk => ?_, IsTrans.trans _ _ _ (only_modify <| .head _) honly⟩
    · rw [hothers a.id hl.1, modify_table, Table.get_modify, if_pos rfl, hrow, Option.map_some]
    · have hne : a'.id ≠ a.id := fun he => hl.1 <| he ▸ List.mem_map_of_mem ha'
      rw [← hget a'.id hne]
      exact heach a' ha'
    · rw [List.map_cons, List.mem_cons, not_or] at hk
      rw [hothers k hk.2, hget k hk.1]

-- The assessments `ks` have the status.
structure Marked (status : AssessmentStatus) (ks : List ℕ) (s t : Db) : Prop where
  get  : ∀ k, (t.table .assessment).get k =
    if k ∈ ks then ((s.table .assessment).get k).map fun row => { row with status } else (s.table .assessment).get k
  only : Database.Only [Name.assessment] s t

theorem post_markAssessments {status : AssessmentStatus} :
    Prog.Post (l.forM fun a => setAssessmentStatus status a.id) s <| Prog.OnReturn fun _ t =>
      Marked status (l.map AssessmentObject.id) s t := by
  induction l generalizing s with
  | nil => exact .ret ⟨fun _ => rfl, Std.Refl.refl _⟩
  | cons a l hi =>
    refine .bind <| post_save (fun row hrow => ?_) fun _ => trivial
    refine hi.imp fun _ t ⟨hget, honly⟩ => ⟨fun k => ?_, IsTrans.trans _ _ _ (only_modify <| .head _) honly⟩
    simp only [hget, modify_table, Table.get_modify, List.map_cons, List.mem_cons]
    by_cases hk : k = a.id
    case neg => simp [hk]
    case pos =>
      subst hk
      simp [hrow]

-- The line of the bill that charges the assessment.
structure LineFor (bill : ℕ) (a : AssessmentObject) (row : BillLine) : Prop where
  bill       : row.bill = bill
  assessment : row.assessment = a.id
  current    : row.currentAmount.units = cents a.amount
  amount     : row.lineAmount.units = cents a.amount
  arrears    : row.arrearsAmount.units = 0

-- The lines `ks` of the bill charge the assessments.
structure Lined (bill : ℕ) (l : List AssessmentObject) (ks : List ℕ) (s t : Db) : Prop where
  each   : List.Forall₂ (fun a k => ∃ row, (t.table .line).get k = some row ∧ LineFor bill a row) l ks
  fresh  : ∀ k ∈ ks, (s.table .line).get k = none
  nodup  : ks.Nodup
  others : ∀ k ∉ ks, (t.table .line).get k = (s.table .line).get k
  marked : ∀ k, (t.table .assessment).get k = if k ∈ l.map AssessmentObject.id then
    ((s.table .assessment).get k).map fun row => { row with status := .billed } else (s.table .assessment).get k
  only   : Database.Only [Name.line, Name.assessment] s t

namespace Lined

variable {ks : List ℕ}

theorem nil : Lined bill [] [] s s where
  each       := .nil
  fresh      := List.forall_mem_nil _
  nodup      := .nil
  others _ _ := rfl
  marked _   := rfl
  only       := Std.Refl.refl _

theorem get (h : Lined bill l ks s t) : ∀ k ∈ ks, ∃ row, (t.table .line).get k = some row ∧ row.bill = bill := by
  have heach := h.each
  clear h
  induction heach with
  | nil => exact List.forall_mem_nil _
  | cons h _ hi =>
    have ⟨row, hrow, hfor⟩ := h
    exact List.forall_mem_cons.mpr ⟨⟨row, hrow, hfor.bill⟩, hi⟩

theorem push (h : Lined bill l ks s t) {a : AssessmentObject} {row : BillLine} (hr : k ∉ t.retired .line)
    (hk : (t.table .line).get k = none) (hrow : LineFor bill a row)
    (hline : u.table .line = (t.insert .line k row).table .line)
    (hmarked : u.table .assessment = (t.table .assessment).modify a.id fun row => { row with status := .billed })
    (honly : Database.Only [Name.line, Name.assessment] t u) : Lined bill (l ++ [a]) (ks ++ [k]) s u := by
  have hget : ∀ i, (u.table .line).get i = if i = k then some row else (t.table .line).get i := fun i => by
    rw [hline, insert_table hr, Table.get_insert, hk, Option.getD_none]
  have hnot : k ∉ ks := fun hmem => by
    have ⟨row, hrow, _⟩ := h.get k hmem
    simp [hk] at hrow
  constructor
  case each =>
    refine List.rel_append (R := fun a k => ∃ row, (u.table .line).get k = some row ∧ LineFor bill a row) ?_ ?_
    · refine h.each.imp fun a i ⟨row', hrow', hrest⟩ => ⟨row', ?_, hrest⟩
      have hi : i ≠ k := fun he => by simp [he, hk] at hrow'
      rw [hget, if_neg hi, hrow']
    · exact .cons ⟨row, by rw [hget, if_pos rfl], hrow⟩ .nil
  case fresh =>
    refine List.forall_mem_append.mpr ⟨h.fresh, List.forall_mem_singleton.mpr ?_⟩
    rw [← h.others k hnot, hk]
  case nodup => exact List.nodup_append.mpr ⟨h.nodup, by simp, fun x hx y hy he =>
    hnot <| List.mem_singleton.mp hy ▸ he ▸ hx⟩
  case others =>
    intro i hi
    rw [List.mem_append, not_or, List.mem_singleton] at hi
    rw [hget, if_neg hi.2, h.others i hi.1]
  case marked =>
    intro i
    simp only [hmarked, Table.get_modify, h.marked, List.map_append, List.mem_append, List.map_singleton,
      List.mem_singleton]
    by_cases hi : i = a.id
    case neg => simp [hi]
    case pos =>
      rw [if_pos hi, hi, if_pos (Or.inr rfl)]
      split
      · rw [Option.map_map]
        rfl
      · rfl
  case only => exact IsTrans.trans _ _ _ h.only honly

end Lined

theorem post_createFreshLines_lined {past rest : List AssessmentObject} {ks : List ℕ} {fresh : List FreshLine}
    (h : Lined bill past ks s t) : Prog.Post (rest.foldlM (createFreshLine bill) fresh) t <|
      Prog.OnReturn fun _ u => ∃ ks, Lined bill (past ++ rest) ks s u := by
  induction rest generalizing t past ks fresh with
  | nil => exact .ret ⟨ks, by rwa [List.append_nil]⟩
  | cons a rest hi =>
    rw [List.foldlM_cons, List.append_cons]
    refine .seq (Q := fun _ u => ∃ ks, Lined bill (past ++ [a]) ks s u) ?_ fun _ u ⟨ks, hu⟩ => hi hu
    refine .seq post_createLine_row fun k u ⟨_, _, _, hr, hk, hu, hamount, hcurrent, harrears⟩ => .bind ?_
    subst hu
    refine post_save (fun row hrow => .ret ?_) fun _ => trivial
    refine ⟨ks ++ [k], h.push hr hk ⟨rfl, rfl, hcurrent, hamount, harrears.trans cents_zero⟩ rfl ?_ ?_⟩
    · rw [modify_table, insert_table_ne (by decide)]
    · exact IsTrans.trans _ _ _ (only_insert <| .head _) (only_modify <| by simp)

end Saving

section Issuing

-- What has become of the assessments that are gathered for a bill: each is billed or folded into one
-- that is.
structure Billed (all : List AssessmentObject) (s t : Db) : Prop where
  kept   : ∀ a ∈ folding.merge all, ∃ (row : Assessment) (quantity : Quantity) (amount : Money),
    (s.table .assessment).get a.id = some row ∧ quantity.units = cents a.quantity ∧ amount.units = cents a.amount ∧
    (t.table .assessment).get a.id = some { row with quantity, amount, status := .billed }
  folded : ∀ k ∈ all.map AssessmentObject.id, k ∉ (folding.merge all).map AssessmentObject.id →
    ∀ row, (t.table .assessment).get k = some row → row.status = .cancelled
  others : ∀ k ∉ all.map AssessmentObject.id, (t.table .assessment).get k = (s.table .assessment).get k

theorem post_mergedAssessments : Prog.Post (mergedAssessments r) s <| Prog.OnReturn fun kept (t : Db) =>
    ∃ priced u v, AllCosted r.payer.id r.lines s u priced ∧ kept = folding.merge (priced ++ r.drafts s) ∧
      Saved kept u v ∧ ∃ later, Marked .cancelled later v t ∧
        (kept.map AssessmentObject.id ++ later).Perm ((priced ++ r.drafts s).map AssessmentObject.id) ∧
        ((priced ++ r.drafts s).map AssessmentObject.id).Nodup := by
  refine .seq (post_priceEntries .nil) fun priced u hpriced => .bind <| post_select ?_
  rw [List.nil_append] at hpriced
  have hdrafts : (if r.billAllDrafts then draftsOf u r.payer.id (priced.map AssessmentObject.id) else []) = r.drafts s := by
    rw [IssueRequest.drafts, hpriced.drafts]
  simp only [hdrafts]
  have hkept : ((priced ++ r.drafts s).foldl mergeAssessment ([], [])).1 = folding.merge (priced ++ r.drafts s) :=
    foldl_mergeAssessment_fst
  have hids : ((((priced ++ r.drafts s).foldl mergeAssessment ([], [])).1 ++
      ((priced ++ r.drafts s).foldl mergeAssessment ([], [])).2).map AssessmentObject.id).Perm
      ((priced ++ r.drafts s).map AssessmentObject.id) := ids_foldl
  rw [hkept, List.map_append] at hids
  rw [hkept]
  have hsaved : ((folding.merge (priced ++ r.drafts s)).map AssessmentObject.id).Nodup :=
    (List.nodup_append.mp <| hids.nodup_iff.mpr hpriced.nodup_append).1
  refine .seq (post_saveAssessments hsaved) fun _ v hv => ?_
  refine .seq post_markAssessments fun _ t ht => .ret ?_
  exact ⟨priced, u, v, hpriced, rfl, hv, _, ht, hids, hpriced.nodup_append⟩

-- The lines that a bill gets for its assessments, and the assessments that are billed with them.
theorem post_writeBill_lined {assessments : List AssessmentObject} {dueDate : Date} :
    Prog.Post (writeBill today r assessments dueDate) s <| Prog.OnReturn fun out (t : Db) =>
      ∃ u v ks, u.table .line = s.table .line ∧ u.table .assessment = s.table .assessment ∧
        Lined out.1 assessments ks u v ∧ t.table .assessment = v.table .assessment ∧
        (s.table .bill).get out.1 = none ∧ (r.rollArrears = false → t.table .line = v.table .line) := by
  refine .bind <| post_create (fun bill hbill => ?_) fun _ => trivial
  have ⟨hr, hk, _⟩ := conflicts_false hbill
  refine .seq (post_createFreshLines_lined .nil) fun fresh v ⟨ks, hv⟩ => ?_
  rw [List.nil_append] at hv
  have roll : Prog.Post (if r.rollArrears then rollArrears today r.payer.id bill fresh else pure 0 : Service ℕ) v <|
      Prog.OnReturn fun _ t => Database.Only [Name.bill, Name.line, Name.debtCase] v t ∧
        (r.rollArrears = false → t.table .line = v.table .line) := by
    split
    case isTrue hroll =>
      have hkeeps : (rollArrears today r.payer.id bill fresh).Keeps
          (Database.Only [Name.bill, Name.line, Name.debtCase]) :=
        rollArrears_keeps (only_modify <| by simp) (fun _ => only_modify <| by simp)
          (fun _ => only_insert <| by simp) fun _ => only_modify <| by simp
      exact .imp hkeeps.returns fun _ t ht => ⟨ht, fun h => absurd hroll <| by simp [h]⟩
    case isFalse => exact .ret ⟨Std.Refl.refl _, fun _ => rfl⟩
  refine .seq roll fun _ w ⟨hw, hline⟩ => ?_
  refine .seq (Prog.Keeps.returns (P := Database.Only [Name.bill]) <| finalizeBill_keeps fun _ =>
    only_modify <| List.mem_singleton_self _) fun _ t ht => .ret ?_
  refine ⟨_, v, ks, insert_table_ne (by decide), insert_table_ne (by decide), hv, ?_, hk, fun h => ?_⟩
  · exact (ht .assessment (by simp)).trans <| hw .assessment (by simp)
  · exact (ht .line (by simp)).trans <| hline h

-- The bill is issued from the assessments that the request gathers.
structure IssuedFrom (r : IssueRequest) (bill : ℕ) (priced : List AssessmentObject) (s u t : Db) : Prop where
  costed : AllCosted r.payer.id r.lines s u priced
  billed : Billed (priced ++ r.drafts s) u t
  absent : (s.table .bill).get bill = none
  lined  : r.rollArrears = false → ∃ ks v w, v.table .line = s.table .line ∧
    Lined bill (folding.merge (priced ++ r.drafts s)) ks v w ∧ t.table .line = w.table .line

theorem Billed.of_saved {all : List AssessmentObject} {later : List ℕ} {v w x y : Db} {ks : List ℕ}
    (hids : ((folding.merge all).map AssessmentObject.id ++ later).Perm (all.map AssessmentObject.id))
    (hall : (all.map AssessmentObject.id).Nodup) (hs : Saved (folding.merge all) s v)
    (hc : Marked .cancelled later v w) (hx : x.table .assessment = w.table .assessment)
    (hb : Lined bill (folding.merge all) ks x y) (ht : t.table .assessment = y.table .assessment) : Billed all s t := by
  have hnodup := List.nodup_append.mp <| hids.nodup_iff.mpr hall
  have hget : ∀ k, (t.table .assessment).get k = if k ∈ (folding.merge all).map AssessmentObject.id then
      ((w.table .assessment).get k).map fun row => { row with status := .billed } else (w.table .assessment).get k :=
    fun k => by rw [ht, hb.marked, hx]
  constructor
  case kept =>
    intro a ha
    have hmem : a.id ∈ (folding.merge all).map AssessmentObject.id := List.mem_map_of_mem ha
    have hlater : a.id ∉ later := fun h => hnodup.2.2 _ hmem _ h rfl
    have ⟨row, quantity, amount, hrow, hquantity, hamount, hv⟩ := hs.each a ha
    refine ⟨row, quantity, amount, hrow, hquantity, hamount, ?_⟩
    rw [hget, if_pos hmem, hc.get, if_neg hlater, hv, Option.map_some]
  case folded =>
    intro k hk hnot row hrow
    have hlater : k ∈ later := (List.mem_append.mp <| hids.mem_iff.mpr hk).resolve_left hnot
    rw [hget, if_neg hnot, hc.get, if_pos hlater] at hrow
    have ⟨_, _, he⟩ := Option.map_eq_some_iff.mp hrow
    exact he ▸ rfl
  case others =>
    intro k hk
    have hnot := mt (fun h => hids.mem_iff.mp <| List.mem_append.mpr h) hk
    rw [not_or] at hnot
    rw [hget, if_neg hnot.1, hc.get, if_neg hnot.2, hs.others k hnot.1]

theorem post_issueBill_from : Prog.Post (issueBill today r) s <| Prog.OnReturn fun out t =>
    ∃ priced u, IssuedFrom r out.1 priced s u t := by
  refine .bind <| post_getForUpdate (fun _ _ => ?_) fun _ => trivial
  have rest : Prog.Post (do
      let assessments ← mergedAssessments r
      if assessments.isEmpty && !r.rollArrears then refuse .emptyBill
      let dueDate ← dueDateOf today r
      writeBill today r assessments dueDate) s (Prog.OnReturn fun out t => ∃ priced u, IssuedFrom r out.1 priced s u t) := by
    refine .seq (Prog.Post.both post_mergedAssessments
      (Prog.Keeps.returns (P := Database.Only [Name.assessment]) <| mergedAssessments_keeps fun h => h))
      fun kept w ⟨⟨priced, u, v, hpriced, hkept, hv, later, hw, hids, hall⟩, honly⟩ => ?_
    subst hkept
    refine post_when (fun _ => .raise trivial) fun _ => ?_
    refine .seq (dueDateOf_keeps (P := Eq)).returns fun _ w' hw' => ?_
    rw [← hw']
    refine post_writeBill_lined.imp fun out t ⟨x, y, ks, hline, hx, hy, ht, habsent, hlined⟩ => ⟨priced, u, hpriced, ?_, ?_, ?_⟩
    · exact .of_saved hids hall hv hw hx hy ht
    · rw [← honly .bill (by simp)]
      exact habsent
    · exact fun h => ⟨ks, x, y, hline.trans <| honly .line (by simp), hy, hlined h⟩
  refine post_unless (fun _ => rest) fun _ => ?_
  refine .seq (checkDuplicate_keeps (P := Eq)).returns fun _ s₁ h₁ => ?_
  exact h₁ ▸ rest

theorem post_issueBill_rates : Prog.Post (issueBill today r) s <| Prog.OnReturn fun _ t => RatesKept s t := by
  have hkeeps : (issueBill today r).Keeps (Database.Only [Name.assessment, Name.bill, Name.line, Name.debtCase]) :=
    issueBill_keeps (fun h => h.mono <| by simp) (only_modify <| by simp) (fun _ => only_insert <| by simp)
      (fun _ => only_modify <| by simp) (only_insert <| by simp) fun _ => only_modify <| by simp
  exact hkeeps.returns.imp fun _ t ht => .of_only ht (by simp)

end Issuing

end ACRev360
