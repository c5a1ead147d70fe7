import ACRev360.Theorems.Consolidation
import ACRev360.Theorems.Pricing

namespace ACRev360

open Relational Relational.Database

-- What editing the lines of a bill writes to the assessments.

variable {s t u : Db} {b k : ℕ} {today : Date}

-- The bill whose lines are edited.
def Request.edited : Request → Option ℕ
  | addLine pk _ _ | putLine pk _ _ | deleteLine pk _ => some pk
  | issueBill _ | postPayment _ _ | reverse _         => none

-- The line that is written to if the edit returns.
def Request.lineOf (s : Db) : Request → Option (Loaded BillLine)
  | addLine pk _ e => matchingLine s pk e.item.id (e.rateBand.map (·.id)) (e.rateTier.map (·.id))
  | putLine _ lineId _ | deleteLine _ lineId => (s.table .line).get lineId |>.map (⟨lineId, ·⟩)
  | issueBill _ | postPayment _ _ | reverse _ => none

-- What the edit of the line writes to its assessment is there already.
def Request.Leaves (s : Db) (l : BillLine) (a : Assessment) : Request → Prop
  | addLine _ _ e          => a.quantity.units = cents (Decimal.round (a.quantity.toRat + e.quantity)) ∧
    ∃ p, priceOf s e = some p ∧ a.amount.units = cents (Decimal.round (a.amount.toRat + p))
  | putLine _ _ lineAmount => a.amount.units = cents (Decimal.round (lineAmount - l.arrearsAmount.toRat))
  | deleteLine _ _         => a.status = .cancelled
  | issueBill _ | postPayment _ _ | reverse _ => True

structure Same (a a' : Assessment) : Prop where
  quantity : a'.quantity = a.quantity
  amount   : a'.amount = a.amount
  status   : a'.status = a.status

-- The assessments that lines of other bills cite are the same.
def OthersKept (b : ℕ) (s t : Db) : Prop :=
  ∀ k l a, (s.table .line).get k = some l → l.bill ≠ b → (s.table .assessment).get l.assessment = some a →
    ∃ a', (t.table .assessment).get l.assessment = some a' ∧ Same a a'

-- Of the assessments of `s` only the one of the line is written.
def Rewritten (line : Option (Loaded BillLine)) (g : Assessment → Assessment) (s t : Db) : Prop :=
  ∀ ⦃i a⦄, (s.table .assessment).get i = some a →
    (t.table .assessment).get i = some (if i ∈ line.map (·.row.assessment) then g a else a)

namespace Rewritten

variable {line : Loaded BillLine} {found : Option (Loaded BillLine)} {g : Assessment → Assessment}

theorem congr (h : Rewritten found g s t) (ht : u.table .assessment = t.table .assessment) : Rewritten found g s u :=
  fun _ _ ha => ht ▸ h ha

theorem insert {row : Assessment} : Rewritten none g s (s.insert .assessment k row) :=
  fun _ _ ha => get_insert_of_some ha

theorem modify (h : Rewritten none g s t) : Rewritten (some line) g s (t.modify .assessment line.row.assessment g) := by
  intro i a ha
  simp only [modify_table, Table.get_modify, Option.map_some, Option.mem_def, Option.some.injEq,
    @eq_comm _ line.row.assessment]
  split
  case isTrue hi => rw [← hi, h ha]; rfl
  case isFalse => exact h ha

-- Assessments that are not in `s` do not matter.
theorem modify_absent {g' : Assessment → Assessment} (h : Rewritten found g s t)
    (hk : (s.table .assessment).get k = none) : Rewritten found g s (t.modify .assessment k g') := by
  intro i a ha
  have hi : i ≠ k := fun he => by simp [he, hk] at ha
  rw [modify_table, Table.get_modify, if_neg hi, h ha]

end Rewritten

theorem post_updateBillLine_rewritten {line : Loaded BillLine} {lineAmount : ℚ} :
    Prog.Post (updateBillLine today line lineAmount) s <| Prog.OnReturn fun _ t => ∃ current : Money,
      current.units = cents (Decimal.round (lineAmount - line.row.arrearsAmount.toRat)) ∧
        Rewritten (some line) (fun a => { a with amount := current }) s t := by
  refine post_guard (fun _ => trivial) fun _ => post_guard (fun _ => trivial) fun _ => ?_
  refine .bind <| post_store (fun current hcurrent => .bind ?_) fun _ => trivial
  refine post_store (fun amount hamount => .bind ?_) fun _ => trivial
  refine post_save (fun _ _ => .bind ?_) fun _ => trivial
  refine post_load (fun _ _ => .bind ?_) fun _ => trivial
  refine post_save (fun _ _ => .bind ?_) fun _ => trivial
  refine post_load (fun r hr => ?_) fun _ => trivial
  refine .seq (Q := fun _ t => Database.Only [Name.bill] _ t)
    (recomputeBill_keeps fun _ => only_modify <| List.mem_singleton_self _).returns fun _ t ht => .ret ?_
  refine ⟨current, hcurrent, .congr (.modify fun _ _ ha => ?_) (ht .assessment (by decide))⟩
  exact ha

theorem post_deleteBillLine_rewritten {line : Loaded BillLine} :
    Prog.Post (deleteBillLine today line) s <| Prog.OnReturn fun _ t =>
      Rewritten (some line) (fun a => { a with status := .cancelled }) s t := by
  refine .bind <| post_load (fun r hr => ?_) fun _ => trivial
  refine .bind <| post_select <| post_guard (fun _ => trivial) fun hnone => ?_
  refine .bind <| post_select <| post_guard (fun _ => trivial) fun hlast => ?_
  refine .bind <| post_load (fun _ _ => .bind ?_) fun _ => trivial
  refine post_save (fun _ _ => .bind ?_) fun _ => trivial
  refine post_select <| post_guard (fun _ => trivial) fun _ => .bind ?_
  refine post_delete (fun _ _ => ?_) fun _ => ?_
  all_goals
    refine .seq (Q := fun _ t => Database.Only [Name.bill] _ t)
      (recomputeBill_keeps fun _ => only_modify <| List.mem_singleton_self _).returns fun _ t ht => .ret ?_
    refine .congr (.modify fun _ _ ha => ?_) (ht .assessment (by decide))
    exact ha

theorem post_addBillLine_rewritten {bill : Loaded Bill} {actor : ℕ} {e : LineEntry} (hs : Assessed s) :
    Prog.Post (addBillLine today bill actor e) s <| Prog.OnReturn fun _ t =>
      match matchingLine s bill.id e.item.id (e.rateBand.map (·.id)) (e.rateTier.map (·.id)) with
      | none      => Rewritten none id s t
      | some line => ∃ (a : Assessment) (p : ℚ) (quantity : Quantity) (amount : Money),
        (s.table .assessment).get line.row.assessment = some a ∧ priceOf s e = some p ∧
        quantity.units = cents (Decimal.round (a.quantity.toRat + e.quantity)) ∧
        amount.units = cents (Decimal.round (a.amount.toRat + p)) ∧
        Rewritten (some line) (fun a => { a with quantity, amount }) s t := by
  refine .bind <| post_load (fun _ _ => ?_) fun _ => trivial
  refine .seq post_createDraftAssessment_charged fun a s₁ ⟨row, hrow, h₁⟩ => .bind <| post_select ?_
  subst h₁
  rw [matchingLine_insert hs]
  have honly : Rewritten none id s (s.insert .assessment a.id row) := .insert
  cases hfound : matchingLine s bill.id e.item.id (e.rateBand.map (·.id)) (e.rateTier.map (·.id)) with
  | some line =>
    have ⟨hline, _⟩ := matchingLine_mem hfound
    have ⟨existing, hexisting⟩ := hs hline
    refine .bind <| post_load (fun existing' hexisting' => .bind ?_) fun _ => trivial
    obtain rfl : existing = existing' := Option.some.inj <| (honly hexisting).symm.trans hexisting'
    refine post_store (fun quantity hquantity => .bind ?_) fun _ => trivial
    refine post_store (fun amount hamount => .bind ?_) fun _ => trivial
    refine post_save (fun _ _ => .bind ?_) fun _ => trivial
    refine post_store (fun _ _ => .bind ?_) fun _ => trivial
    refine post_store (fun _ _ => .bind ?_) fun _ => trivial
    refine post_save (fun _ _ => .bind ?_) fun _ => trivial
    refine post_save (fun _ _ => ?_) fun _ => trivial
    refine .seq (Q := fun _ t => Database.Only [Name.bill] _ t)
      (recomputeBill_keeps fun _ => only_modify <| List.mem_singleton_self _).returns fun _ t ht => .ret ?_
    rw [hrow.object.2.2.2] at hquantity
    refine ⟨existing, a.amount, quantity, amount, hexisting, hrow.priceOf, hquantity, hamount, ?_⟩
    have hwritten : Rewritten (some line) (fun a => { a with quantity, amount }) s
        ((s.insert .assessment a.id row).modify .assessment line.row.assessment fun a => { a with quantity, amount }) :=
      .modify .insert
    exact (hwritten.modify_absent hrow.absent).congr <| ht .assessment (by decide)
  | none =>
    refine .bind <| post_save (fun _ _ => .bind ?_) fun _ => trivial
    refine post_select <| .seq post_createLine fun k s₂ ⟨l, hr₂, hk, hs₂, hl, harrears, hamount⟩ => ?_
    refine .seq (Q := fun _ t => Database.Only [Name.bill] _ t)
      (recomputeBill_keeps fun _ => only_modify <| List.mem_singleton_self _).returns fun _ t ht => .ret ?_
    have hbilled : Rewritten none id s ((s.insert .assessment a.id row).modify .assessment a.id
        fun r => { r with status := .billed }) := honly.modify_absent hrow.absent
    refine hbilled.congr ?_
    rw [ht .assessment (by decide), hs₂, insert_table_ne (by decide)]

-- No line of another bill cites the assessment that is written to, or nothing new is written.
def Request.Spares (b : ℕ) (s : Db) (r : Request) : Prop :=
  ∀ line a, r.lineOf s = some line → (s.table .assessment).get line.row.assessment = some a →
    (∀ k l, (s.table .line).get k = some l → l.bill ≠ b → l.assessment ≠ line.row.assessment) ∨
      r.Leaves s line.row a

theorem Rewritten.othersKept_iff {found : Option (Loaded BillLine)} {g : Assessment → Assessment}
    (h : Rewritten found g s t) : OthersKept b s t ↔
      ∀ line a, found = some line → (s.table .assessment).get line.row.assessment = some a →
        (∀ k l, (s.table .line).get k = some l → l.bill ≠ b → l.assessment ≠ line.row.assessment) ∨ Same a (g a) := by
  constructor
  · intro hkept line a hfound ha
    refine or_iff_not_imp_left.mpr fun hshared => ?_
    simp only [not_forall, not_not] at hshared
    have ⟨k, l, hl, hbill, hcites⟩ := hshared
    have ⟨a', ha', hsame⟩ := hkept k l a hl hbill (hcites ▸ ha)
    have hwritten := h ha
    rw [← hcites, ha', hfound, Option.map_some, if_pos (Option.mem_some.mpr hcites.symm),
      Option.some.injEq] at hwritten
    exact hwritten ▸ hsame
  · intro hspares k l a hl hbill ha
    refine ⟨_, h ha, ?_⟩
    split
    case isFalse => exact ⟨rfl, rfl, rfl⟩
    case isTrue hk =>
      have ⟨line, hfound, hcites⟩ := Option.map_eq_some_iff.mp hk
      rcases hspares line a hfound (hcites ▸ ha) with halone | hsame
      · exact absurd hcites.symm <| halone k l hl hbill
      · exact hsame

-- An edit writes to one assessment at most.
theorem post_serve_rewritten {r : Request} (hs : Assessed s) (hb : r.edited = some b) :
    Prog.Post (r.serve today) s <| Prog.OnReturn fun _ t => ∃ g, Rewritten (r.lineOf s) g s t ∧
      ∀ line a, r.lineOf s = some line → (s.table .assessment).get line.row.assessment = some a →
        (Same a (g a) ↔ r.Leaves s line.row a) := by
  cases r with
  | issueBill | postPayment | reverse => exact nomatch hb
  | addLine pk actor e =>
    refine .seq (.bind <| post_getObject (fun bill hbill _ => ?_) fun _ => trivial) fun _ _ ht => .ret ht
    refine .imp (post_addBillLine_rewritten hs) fun _ t ht => ?_
    simp only [Request.lineOf]
    cases hfound : matchingLine s pk e.item.id (e.rateBand.map (·.id)) (e.rateTier.map (·.id)) with
    | none =>
      simp only [hfound] at ht
      exact ⟨id, ht, nofun⟩
    | some line =>
      simp only [hfound] at ht
      have ⟨a, p, quantity, amount, ha, hp, hquantity, hamount, ht⟩ := ht
      refine ⟨_, ht, fun line' a' hline ha' => ?_⟩
      obtain rfl := Option.some.inj hline
      obtain rfl := Option.some.inj <| ha.symm.trans ha'
      simp only [Request.Leaves, hp, Option.some.injEq, exists_eq_left', ← hquantity, ← hamount]
      exact ⟨fun h => ⟨congrArg _ h.quantity.symm, congrArg _ h.amount.symm⟩,
        fun h => ⟨Numeric.ext h.1.symm, Numeric.ext h.2.symm, rfl⟩⟩
  | putLine pk lineId lineAmount =>
    refine .bind <| post_getObject (fun bill hbill _ => .bind ?_) fun _ => trivial
    refine post_getObject (fun line hline hpk => ?_) fun _ => trivial
    refine .imp post_updateBillLine_rewritten fun _ t ⟨current, hcurrent, ht⟩ =>
      ⟨fun a => { a with amount := current }, ?_, fun line' a hl ha => ?_⟩
    · rwa [Request.lineOf, hline]
    · rw [Request.lineOf, hline] at hl
      obtain rfl := Option.some.inj hl
      rw [Request.Leaves, ← hcurrent]
      exact ⟨fun h => congrArg _ h.amount.symm, fun h => ⟨rfl, Numeric.ext h.symm, rfl⟩⟩
  | deleteLine pk lineId =>
    refine .bind <| post_getObject (fun bill hbill _ => .bind ?_) fun _ => trivial
    refine post_getObject (fun line hline hpk => .bind ?_) fun _ => trivial
    refine post_select <| post_guard (fun _ => trivial) fun _ => ?_
    refine .imp post_deleteBillLine_rewritten fun _ t ht =>
      ⟨fun a => { a with status := .cancelled }, ?_, fun line' a hl ha => ?_⟩
    · rwa [Request.lineOf, hline]
    · rw [Request.Leaves]
      exact ⟨fun h => h.status.symm, fun h => ⟨rfl, rfl, h.symm⟩⟩

namespace Sample

-- The bill of 20.00 is consolidated: the line of the second bill cites the assessment of the first one's.
def inherited : Db × (Name → ℕ) :=
  serve issued <| .issueBill roll

end Sample

-- Edits leave the assessments of other bills' lines alone exactly if the one they write to is not shared.
theorem edit_keeps_others_iff {ok : Db → Request → Prop} (h : s.Reachable ok) {r : Request} (hb : r.edited = some b)
    {n : Name → ℕ} :
    (∀ e t m, (r.serve today).call s n = (.error e, t, m) → OthersKept b s t) ∧
    ∀ t m, (r.serve today).call s n = (.ok (), t, m) → (OthersKept b s t ↔ r.Spares b s) := by
  refine ⟨fun e t m hc => ?_, fun t m hc => ?_⟩
  · rw [Prog.call_error hc]
    exact fun _ _ a _ _ ha => ⟨a, ha, rfl, rfl, rfl⟩
  · have ⟨⟨g, ht, hleaves⟩, _⟩ := Prog.call_ok (post_serve_rewritten h.tallied.assessed hb) hc
    rw [ht.othersKept_iff]
    exact forall₄_congr fun line a hline ha => or_congr_right <| hleaves line a hline ha

set_option maxRecDepth 20000 in
theorem sample_keeps_others : OthersKept 1 Sample.issued.1 (Sample.serve Sample.issued <| .putLine 1 1 30).1 := by
  have hc := Sample.call_returns (p := (Request.putLine 1 1 30).serve Sample.day) (s := Sample.issued)
    (a := ()) (by decide +kernel)
  have hs : Sample.issued.1.Reachable fun _ _ => True := Sample.reachable_issued trivial
  have hlines : (Sample.issued.1.table .line).rows.all fun l => l.2.bill = 1 := by decide +kernel
  refine ((edit_keeps_others_iff hs rfl).2 _ _ hc).mpr fun line a _ _ => .inl fun k l hl hbill => absurd ?_ hbill
  exact of_decide_eq_true <| List.all_eq_true.mp hlines (k, l) (Table.mem_rows_iff.mpr hl)

set_option maxRecDepth 20000 in
-- The line of the consolidated bill is raised to 25.00, and what the first bill was issued for is lost.
theorem not_keeps_others : ∃ (s t : Db) (n m : Name → ℕ) (r : Request), s.Reachable (fun _ r => r.Positive) ∧
    r.edited = some 2 ∧ (r.serve Sample.day).call s n = (.ok (), t, m) ∧ ¬OthersKept 2 s t := by
  have hc := Sample.call_returns (p := (Request.putLine 2 2 25).serve Sample.day) (s := Sample.inherited)
    (a := ()) (by decide +kernel)
  refine ⟨Sample.inherited.1, _, _, _, .putLine 2 2 25, ?_, rfl, hc, fun h => ?_⟩
  · exact Sample.reachable_serve (Sample.reachable_issued trivial) trivial
  · have hline : ((Sample.inherited.1.table .line).get 1).any fun l => l.bill = 1 ∧ l.assessment = 1 := by
      decide +kernel
    have hbefore : ((Sample.inherited.1.table .assessment).get 1).any (·.amount.units = 2000) := by decide +kernel
    have hafter : ((Sample.serve Sample.inherited <| .putLine 2 2 25).1.table .assessment |>.get 1).any
        (·.amount.units = 500) := by decide +kernel
    have ⟨l, hl, hp⟩ := (Option.any_eq_true _ _).mp hline
    have ⟨hbill, hcites⟩ := of_decide_eq_true hp
    have ⟨a, ha, hunits⟩ := (Option.any_eq_true _ _).mp hbefore
    have ⟨a', ha', hunits'⟩ := (Option.any_eq_true _ _).mp hafter
    have ⟨a'', ha'', hsame⟩ := h 1 l a hl (by simp [hbill]) (hcites ▸ ha)
    rw [hcites] at ha''
    obtain rfl := Option.some.inj <| ha'.symm.trans ha''
    have := of_decide_eq_true hunits'
    rw [hsame.amount, of_decide_eq_true hunits] at this
    exact absurd this (by decide)

end ACRev360
