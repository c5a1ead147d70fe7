import ACRev360.Services.Effects

namespace ACRev360

open Relational Relational.Database

namespace Db

-- What a line still owes. Nothing is owed on a line that is paid above its amount.
def outstanding (s : Db) (k : ℕ) (l : BillLine) : ℤ :=
  max (l.lineAmount.units - s.paidAmount k) 0

-- The arrears that a bill hands on.
def outstandingOn (s : Db) (bill : ℕ) : ℤ :=
  (s.table .line).sum fun k l => if l.bill = bill then s.outstanding k l else 0

theorem outstanding_congr {s t : Db} (ha : t.table .allocation = s.table .allocation)
    (hp : t.table .payment = s.table .payment) : t.outstanding = s.outstanding := by
  funext k l
  rw [outstanding, outstanding, paidAmount_congr ha hp]

theorem outstandingOn_congr {s t : Db} (hl : t.table .line = s.table .line)
    (ha : t.table .allocation = s.table .allocation) (hp : t.table .payment = s.table .payment) :
    t.outstandingOn = s.outstandingOn := by
  funext b
  rw [outstandingOn, outstandingOn, hl, outstanding_congr ha hp]

end Db

variable {s t : Db} {payer bill k : ℕ} {today : Date} {z : ℤ}

section Lines

theorem mem_linesOf {b : ℕ} {l : Loaded BillLine} :
    l ∈ s.linesOf b ↔ (s.table .line).get l.id = some l.row ∧ l.row.bill = b := by
  have : ∀ x : ℕ × BillLine, (⟨x.1, x.2⟩ : Loaded BillLine) = l ↔ x = (l.id, l.row) := by
    rintro ⟨k, r⟩
    cases l
    simp
  simp [Db.linesOf, this, Table.mem_filter_iff, Db.isLineOf]

theorem sum_linesOf {f : ℕ → BillLine → ℤ} {b : ℕ} :
    ((s.linesOf b).map fun l => f l.id l.row).sum =
      (s.table .line).sum fun k l => if l.bill = b then f k l else 0 := by
  rw [Db.linesOf, ((List.perm_insertionSort _ _).map _).sum_eq, List.map_map]
  exact (Table.sum_filter (f := f) (p := Db.isLineOf b)).trans (by simp [Db.isLineOf])

end Lines

-- The arrears of the bills processed so far, item by item.
structure Arrears.Sum (total : ℤ) (acc : List Arrears) : Prop where
  nodup : (acc.map Arrears.item).Nodup
  sum   : (acc.map Arrears.amount).sum = total
  pos   : ∀ a ∈ acc, 0 < a.amount

-- The arrears of the item grow by `y`.
def Arrears.grow (item assessment : ℕ) (y : ℤ) (a : Arrears) : Arrears :=
  if a.item = item then { a with amount := a.amount + y, assessment } else a

namespace Arrears.Sum

variable {acc : List Arrears} {item assessment : ℕ} {y : ℤ}

theorem sum_grow (h : (acc.map Arrears.item).Nodup) :
    ((acc.map (grow item assessment y)).map Arrears.amount).sum =
      (acc.map Arrears.amount).sum + if item ∈ acc.map Arrears.item then y else 0 := by
  induction acc with
  | nil => simp
  | cons a acc hi =>
    have ⟨ha, hacc⟩ := List.nodup_cons.mp h
    simp only [List.map_cons, List.sum_cons, hi hacc, List.mem_cons, grow]
    by_cases hitem : a.item = item
    case pos =>
      have : item ∉ acc.map Arrears.item := hitem ▸ ha
      simp only [hitem, if_true, this, if_false, true_or]
      ring
    case neg =>
      simp only [hitem, if_false, Ne.symm hitem, false_or]
      ring

theorem any_item : acc.any (·.item = item) ↔ item ∈ acc.map Arrears.item := by
  simp [List.any_eq_true, List.mem_map]

theorem add (h : Arrears.Sum z acc) (hy : 0 < y) :
    Arrears.Sum (z + y) (addArrears acc item assessment y) := by
  unfold addArrears
  split
  case isTrue hany =>
    have hmem : item ∈ acc.map Arrears.item := any_item.mp hany
    have hitems : (acc.map (grow item assessment y)).map Arrears.item = acc.map Arrears.item := by
      rw [List.map_map]
      refine List.map_congr_left fun a _ => ?_
      simp only [Function.comp, grow]
      split <;> rfl
    refine ⟨hitems ▸ h.nodup, ?_, fun a ha => ?_⟩
    · have := @sum_grow _ item assessment y h.nodup
      rw [if_pos hmem, h.sum] at this
      exact this
    · have ⟨a', ha', he⟩ := List.mem_map.mp ha
      have := h.pos a' ha'
      rw [← he]
      split <;> simp <;> omega
  case isFalse hnone =>
    have hmem : item ∉ acc.map Arrears.item := hnone ∘ any_item.mpr
    refine ⟨?_, by simp [h.sum], fun a ha => ?_⟩
    · rw [List.map_append, List.map_singleton]
      refine List.nodup_append.mpr ⟨h.nodup, by simp, fun a ha b hb hab => hmem ?_⟩
      have : a = item := hab.trans <| List.mem_singleton.mp hb
      exact this ▸ ha
    · rcases List.mem_append.mp ha with ha | ha
      · exact h.pos a ha
      · rw [List.mem_singleton.mp ha]
        exact hy

end Arrears.Sum

theorem post_rollLine {acc : List Arrears} {line : Loaded BillLine} (h : Arrears.Sum z acc) :
    Prog.Post (rollLine acc line) s <| Prog.OnReturn fun acc t =>
      t = s ∧ Arrears.Sum (z + s.outstanding line.id line.row) acc := by
  refine .bind <| post_select ?_
  simp only
  split
  case isTrue hle =>
    refine .ret ⟨rfl, ?_⟩
    rwa [Db.outstanding, max_eq_right hle, add_zero]
  case isFalse hlt =>
    refine .bind <| post_load (fun a _ => .ret ⟨rfl, ?_⟩) fun _ => trivial
    rw [Db.outstanding, max_eq_left (not_le.mp hlt).le]
    exact h.add <| not_le.mp hlt

theorem post_rollLines {acc : List Arrears} {lines : List (Loaded BillLine)} (h : Arrears.Sum z acc) :
    Prog.Post (lines.foldlM rollLine acc) s <| Prog.OnReturn fun acc t =>
      t = s ∧ Arrears.Sum (z + (lines.map fun l => s.outstanding l.id l.row).sum) acc := by
  let I (acc : List Arrears) (rest : List (Loaded BillLine)) (t : Db) := t = s ∧
    ∃ y, Arrears.Sum y acc ∧ y + (rest.map fun l => s.outstanding l.id l.row).sum =
      z + (lines.map fun l => s.outstanding l.id l.row).sum
  refine .imp (Prog.Post.foldlM (S := relational.schema) (I := I) (fun h => ?step) ⟨rfl, z, h, rfl⟩)
    fun acc t ⟨ht, y, hy, hsum⟩ => ⟨ht, ?_⟩
  case step =>
    obtain ⟨rfl, y, hy, hsum⟩ := h
    refine .imp (post_rollLine hy) fun acc t ⟨ht, hacc⟩ => ⟨ht, _, hacc, ?_⟩
    rw [← hsum, List.map_cons, List.sum_cons, add_assoc]
  · simp only [List.map_nil, List.sum_nil, add_zero] at hsum
    exact hsum ▸ hy

-- The change of a bill that is superseded.
def supersede (bill : ℕ) (b : Bill) : Bill :=
  { b with status := .superseded, supersededBy := some bill }

theorem post_rollBill {acc : List Arrears} {prior : Loaded Bill} (h : Arrears.Sum z acc) :
    Prog.Post (rollBill today bill acc prior) s <| Prog.OnReturn fun acc t =>
      t.table .bill = (s.table .bill).modify prior.id (supersede bill) ∧
      Database.Only [Name.bill, Name.debtCase] s t ∧
      Arrears.Sum (z + s.outstandingOn prior.id) acc := by
  refine .bind <| post_save (fun b hb => ?_) fun _ => trivial
  refine .seq closeDebtCaseForBill_only.returns fun _ t ht => ?_
  have ho : Database.Only [Name.bill, Name.debtCase] s t := by
    refine IsTrans.trans _ _ _ (only_modify <| .head _) (Database.Only.mono ht ?_)
    exact List.subset_cons_self _ _
  refine .bind <| post_select <| .imp (post_rollLines h) fun acc t' ⟨ht', hacc⟩ => ?_
  obtain rfl := ht'
  refine ⟨?_, ho, ?_⟩
  · rw [ht .bill (by simp), modify_table]
    rfl
  · have hout := Db.outstanding_congr (ho .allocation (by simp)) (ho .payment (by simp))
    rw [sum_linesOf (f := Db.outstanding _), hout, ho .line (by simp)] at hacc
    exact hacc

-- The bills `ks` of `s` have been superseded by `bill` in `t`.
def Superseded (bill : ℕ) (ks : List ℕ) (s t : Db) : Prop :=
  ∀ k, (t.table .bill).get k =
    ((s.table .bill).get k).map fun b => if k ∈ ks then supersede bill b else b

theorem Superseded.append {ks : List ℕ} {u : Db} (h : Superseded bill ks s t)
    (hu : u.table .bill = (t.table .bill).modify k (supersede bill)) :
    Superseded bill (ks ++ [k]) s u := by
  intro i
  rw [hu, Table.get_modify, h k, h i]
  split
  case isTrue hi =>
    subst hi
    cases (s.table .bill).get i with
    | none => rfl
    | some b =>
      simp only [Option.map_some, List.mem_append, List.mem_singleton, or_true, if_true]
      split <;> rfl
  case isFalse hi => simp [hi]

theorem post_rollBills {bills : List (Loaded Bill)} :
    Prog.Post (bills.foldlM (rollBill today bill) []) s <| Prog.OnReturn fun acc t =>
      Superseded bill (bills.map Loaded.id) s t ∧ Database.Only [Name.bill, Name.debtCase] s t ∧
      Arrears.Sum (bills.map fun b => s.outstandingOn b.id).sum acc := by
  let I (acc : List Arrears) (rest : List (Loaded Bill)) (t : Db) := ∃ past, past ++ rest = bills ∧
    Superseded bill (past.map Loaded.id) s t ∧ Database.Only [Name.bill, Name.debtCase] s t ∧
    Arrears.Sum (past.map fun b => s.outstandingOn b.id).sum acc
  refine .imp (Prog.Post.foldlM (S := relational.schema) (I := I) (fun h => ?step) ?start)
    fun acc t ⟨past, hpast, hrest⟩ => by rwa [List.append_nil, hpast] at *
  case start =>
    refine ⟨[], rfl, fun k => ?_, Std.Refl.refl _, by simp, rfl, by simp⟩
    simp
  case step =>
    obtain ⟨past, hpast, hsup, ho, hsum⟩ := h
    refine .imp (post_rollBill hsum) fun acc t ⟨ht, ho', hacc⟩ => ?_
    refine ⟨past ++ [_], by rw [← hpast, List.append_assoc]; rfl, ?_, IsTrans.trans _ _ _ ho ho', ?_⟩
    · rw [List.map_append]
      exact hsup.append ht
    · rw [Db.outstandingOn_congr (ho .line (by simp)) (ho .allocation (by simp)) (ho .payment (by simp))]
        at hacc
      simpa using hacc

-- Alone, the locks are granted at once, and the bills are as the query has found them.
theorem post_lockOpenBills :
    Prog.Post ((openBills s payer bill).foldlM (lockOpenBill payer) []) s <|
      Prog.OnReturn fun acc t => t = s ∧ acc.map Loaded.id = openBills s payer bill := by
  let I (acc : List (Loaded Bill)) (rest : List ℕ) (t : Db) :=
    t = s ∧ acc.map Loaded.id ++ rest = openBills s payer bill
  refine .imp (Prog.Post.foldlM (S := relational.schema) (I := I) (fun {acc k rest _} h => ?step)
    ⟨rfl, rfl⟩) fun acc t ⟨ht, hacc⟩ => ⟨ht, by rwa [List.append_nil] at hacc⟩
  obtain ⟨rfl, hacc⟩ := h
  have hmem : k ∈ openBills _ payer bill := hacc ▸ List.mem_append_right _ (List.mem_cons_self ..)
  have ⟨⟨_, b⟩, hb, hk⟩ := List.mem_map.mp hmem
  subst hk
  have ⟨hget, hopen⟩ := Table.mem_filter_iff.mp hb
  simp only [Bool.and_eq_true] at hopen
  refine .bind <| post_selectForUpdate ?_
  rw [hget]
  refine .ret ⟨rfl, ?_⟩
  rw [if_pos (by simpa using hopen.1), ← hacc, List.map_append, List.append_assoc]
  rfl

-- The lines of other bills are the same.
def LinesOff (bill : ℕ) (s t : Db) : Prop :=
  ∀ k l, l.bill ≠ bill → ((t.table .line).get k = some l ↔ (s.table .line).get k = some l)

namespace LinesOff

theorem of_only {ts : List Name} (h : Database.Only ts s t) (hts : Name.line ∉ ts) :
    LinesOff bill s t := fun _ _ _ => by
  rw [h .line hts]

theorem congr {u : Db} (h : LinesOff bill s t) (hu : u.table .line = t.table .line) :
    LinesOff bill s u := fun k l hl => by
  rw [hu]
  exact h k l hl

theorem trans {u : Db} (h₁ : LinesOff bill s t) (h₂ : LinesOff bill t u) : LinesOff bill s u :=
  fun k l hl => (h₂ k l hl).trans (h₁ k l hl)

theorem erase {l : BillLine} (hk : (s.table .line).get k = some l) (hl : l.bill = bill) :
    LinesOff bill s (s.erase .line k) := fun i l' hl' => by
  rw [erase_table, Table.get_erase]
  split
  case isTrue hi =>
    subst hi
    simp only [hk, Option.some.injEq, reduceCtorEq, false_iff]
    rintro rfl
    contradiction
  case isFalse => rfl

theorem insert {l : BillLine} (hr : k ∉ s.retired .line) (hk : (s.table .line).get k = none)
    (hl : l.bill = bill) : LinesOff bill s (s.insert .line k l) := fun i l' hl' => by
  rw [insert_table hr, Table.get_insert]
  split
  case isTrue hi =>
    subst hi
    simp only [hk, Option.getD_none, Option.some.injEq, reduceCtorEq, iff_false]
    rintro rfl
    exact hl' hl
  case isFalse => rfl

theorem modify {l : BillLine} {g : BillLine → BillLine} (hk : (s.table .line).get k = some l)
    (hl : l.bill = bill) (hg : (g l).bill = bill) : LinesOff bill s (s.modify .line k g) :=
  fun i l' hl' => by
    rw [modify_table, Table.get_modify]
    split
    case isTrue hi =>
      subst hi
      simp only [hk, Option.map_some, Option.some.injEq]
      constructor <;> (rintro rfl; contradiction)
    case isFalse => rfl

end LinesOff

theorem post_createLine_row {assessment position : ℕ} {current arrears amount : ℚ} :
    Prog.Post (createLine bill assessment current arrears amount position) s <|
      Prog.OnReturn fun k t => ∃ lineAmount currentAmount arrearsAmount : Money,
        k ∉ s.retired .line ∧ (s.table .line).get k = none ∧
        t = s.insert .line k { bill, assessment, lineAmount, currentAmount, arrearsAmount, position } ∧
        lineAmount.units = cents amount ∧ currentAmount.units = cents current ∧
        arrearsAmount.units = cents arrears := by
  refine .bind <| post_store (fun _ hcurrent => .bind ?_) fun _ => trivial
  refine post_store (fun _ harrears => .bind ?_) fun _ => trivial
  refine post_store (fun _ hamount => ?_) fun _ => trivial
  refine post_create (fun k hk => ?_) fun _ => trivial
  have ⟨hr, hk, _⟩ := conflicts_false hk
  exact ⟨_, _, _, hr, hk, rfl, hamount, hcurrent, harrears⟩

theorem post_createLine {assessment position : ℕ} {current arrears amount : ℚ} :
    Prog.Post (createLine bill assessment current arrears amount position) s <|
      Prog.OnReturn fun k t => ∃ l, k ∉ s.retired .line ∧ (s.table .line).get k = none ∧
        t = s.insert .line k l ∧ l.bill = bill ∧
        l.arrearsAmount.units = cents arrears ∧ l.lineAmount.units = cents amount :=
  .imp post_createLine_row fun _ _ ⟨_, _, _, hr, hk, ht, hamount, _, harrears⟩ =>
    ⟨_, hr, hk, ht, rfl, harrears, hamount⟩

-- The fresh lines of a bill, and the items whose arrears are still to be placed.
structure Fresh (bill : ℕ) (items : List ℕ) (fresh : List FreshLine) (s : Db) : Prop where
  nodup : (fresh.map FreshLine.id).Nodup
  line  : ∀ f ∈ fresh, ∃ l, (s.table .line).get f.id = some l ∧ l.bill = bill ∧
    (f.item ∈ items → l.arrearsAmount.units = 0)

namespace Fresh

variable {items : List ℕ} {fresh : List FreshLine}

theorem congr (h : Fresh bill items fresh s) (ht : t.table .line = s.table .line) :
    Fresh bill items fresh t where
  nodup := h.nodup
  line  := ht ▸ h.line

-- Another line does not concern the fresh ones.
theorem insert (h : Fresh bill items fresh s) {l : BillLine} : Fresh bill items fresh (s.insert .line k l) where
  nodup := h.nodup
  line f hf := by
    have ⟨l, hl, hrest⟩ := h.line f hf
    exact ⟨l, get_insert_of_some hl, hrest⟩

theorem not_mem (h : Fresh bill items fresh s) (hk : (s.table .line).get k = none) :
    k ∉ fresh.map FreshLine.id := by
  intro hmem
  have ⟨f, hf, he⟩ := List.mem_map.mp hmem
  have ⟨l, hl, _⟩ := h.line f hf
  simp [he, hk] at hl

theorem push (h : Fresh bill items fresh s) {f : FreshLine} {l : BillLine}
    (hr : f.id ∉ s.retired .line) (hk : (s.table .line).get f.id = none) (hl : l.bill = bill)
    (ha : l.arrearsAmount.units = 0) : Fresh bill items (fresh ++ [f]) (s.insert .line f.id l) where
  nodup := by
    rw [List.map_append, List.map_singleton]
    refine List.nodup_append.mpr ⟨h.nodup, by simp, fun i hi j hj hij => h.not_mem hk ?_⟩
    rwa [← List.mem_singleton.mp hj, ← hij]
  line f' hf' := by
    rcases List.mem_append.mp hf' with hf' | hf'
    · exact h.insert.line f' hf'
    · rw [List.mem_singleton.mp hf']
      exact ⟨l, by rw [insert_table hr, Table.get_insert_self hk], hl, fun _ => ha⟩

-- The arrears of an item are placed on its fresh line.
theorem place {item : ℕ} (h : Fresh bill (item :: items) fresh s) (hitem : item ∉ items)
    {f : FreshLine} (hf : f ∈ fresh) (hi : f.item = item) {g : BillLine → BillLine}
    (hg : KeepsPlace g) : Fresh bill items fresh (s.modify .line f.id g) where
  nodup := h.nodup
  line f' hf' := by
    have ⟨l, hl, hb, ha⟩ := h.line f' hf'
    rw [modify_table, Table.get_modify]
    split
    case isTrue hid =>
      obtain rfl := List.inj_on_of_nodup_map h.nodup hf' hf hid
      exact ⟨g l, by rw [hl]; rfl, (hg l).1.trans hb, fun hmem => absurd (hi ▸ hmem) hitem⟩
    case isFalse => exact ⟨l, hl, hb, fun hmem => ha <| .tail _ hmem⟩

theorem skip {item : ℕ} (h : Fresh bill (item :: items) fresh s) : Fresh bill items fresh s where
  nodup := h.nodup
  line f hf := by
    have ⟨l, hl, hb, ha⟩ := h.line f hf
    exact ⟨l, hl, hb, fun hmem => ha <| .tail _ hmem⟩

end Fresh

theorem arrearsTotal_insert {l : BillLine} (hr : k ∉ s.retired .line)
    (hk : (s.table .line).get k = none) (hl : l.bill = bill) :
    Db.arrearsTotal (s.insert .line k l) bill = s.arrearsTotal bill + l.arrearsAmount.units := by
  rw [Db.arrearsTotal, insert_table hr, Table.sum_insert hk, if_pos hl, add_comm]
  rfl

theorem post_createFreshLine {fresh : List FreshLine} {a : AssessmentObject}
    (h : ∀ items, Fresh bill items fresh s) :
    Prog.Post (createFreshLine bill fresh a) s <| Prog.OnReturn fun fresh t =>
      (∀ items, Fresh bill items fresh t) ∧ LinesOff bill s t ∧ Db.arrearsTotal t bill = s.arrearsTotal bill ∧
      Database.Only [Name.line, Name.assessment] s t := by
  refine .seq post_createLine fun k s₁ ⟨l, hr, hk, hs₁, hl, harrears, _⟩ => ?_
  refine .seq (setAssessmentStatus_keeps id).returns fun _ t ht => .ret ?_
  have hline : t.table .line = s₁.table .line := ht .line (by simp)
  subst hs₁
  refine ⟨fun items => .congr ?_ hline, (LinesOff.insert hr hk hl).trans (.of_only ht (by simp)), ?_, ?_⟩
  · exact (h items).push (f := ⟨k, a.item, a.amount⟩) hr hk hl (harrears.trans cents_zero)
  · rw [Db.arrearsTotal_congr hline, arrearsTotal_insert hr hk hl, harrears, cents_zero, add_zero]
  · exact IsTrans.trans _ _ _ (only_insert <| .head _) (ht.mono <| by simp)

theorem post_createFreshLines {assessments : List AssessmentObject} {fresh : List FreshLine}
    (h : ∀ items, Fresh bill items fresh s) :
    Prog.Post (assessments.foldlM (createFreshLine bill) fresh) s <| Prog.OnReturn fun fresh t =>
      (∀ items, Fresh bill items fresh t) ∧ LinesOff bill s t ∧
      Db.arrearsTotal t bill = s.arrearsTotal bill ∧
      Database.Only [Name.line, Name.assessment] s t := by
  induction assessments generalizing s fresh with
  | nil => exact .ret ⟨h, fun _ _ _ => .rfl, rfl, Std.Refl.refl _⟩
  | cons a assessments hi =>
    refine .seq (post_createFreshLine h) fun fresh t ⟨hfresh, hoff, hsum, ho⟩ => ?_
    refine .imp (hi hfresh) fun fresh u ⟨hfresh', hoff', hsum', ho'⟩ => ?_
    exact ⟨hfresh', hoff.trans hoff', hsum'.trans hsum, IsTrans.trans _ _ _ ho ho'⟩

theorem post_placeArrears {items : List ℕ} {fresh : List FreshLine} {position : ℕ} {a : Arrears}
    (h : Fresh bill (a.item :: items) fresh s) (hitem : a.item ∉ items) :
    Prog.Post (placeArrears bill fresh position a) s <| Prog.OnReturn fun _ t =>
      Fresh bill items fresh t ∧ LinesOff bill s t ∧
      Db.arrearsTotal t bill = s.arrearsTotal bill + a.amount ∧ Database.Only [Name.line] s t := by
  unfold placeArrears
  split
  case h_1 f hf =>
    have hmem := List.mem_of_find?_eq_some hf
    have hi : f.item = a.item := by simpa using List.find?_some hf
    obtain ⟨l, hl, hb, ha⟩ := h.line f hmem
    refine .bind <| post_store (fun arrears harrears => .bind ?_) fun _ => trivial
    refine post_store (fun amount _ => .bind ?_) fun _ => trivial
    refine post_save (fun l' hl' => .ret ?_) fun _ => trivial
    refine ⟨h.place hitem hmem hi fun _ => ⟨rfl, rfl⟩, .modify hl hb hb, ?_, only_modify <| .head _⟩
    rw [Db.arrearsTotal, modify_table, Table.sum_modify hl, if_pos hb, if_pos hb, harrears, ← cents,
      cents_kobo, ha (hi ▸ List.mem_cons_self ..), sub_zero]
    rfl
  case h_2 =>
    refine .seq post_createLine fun k t hpost => .ret ?_
    obtain ⟨l, hr, hk, ht, hb, harrears, _⟩ := hpost
    subst ht
    refine ⟨h.insert.skip, .insert hr hk hb, ?_, only_insert <| .head _⟩
    rw [arrearsTotal_insert hr hk hb, harrears, cents_kobo]

theorem post_placeAll {fresh : List FreshLine} {arrears : List Arrears} {position : ℕ}
    (h : Fresh bill (arrears.map Arrears.item) fresh s) (hnodup : (arrears.map Arrears.item).Nodup) :
    Prog.Post (arrears.foldlM (placeArrears bill fresh) position) s <| Prog.OnReturn fun _ t =>
      LinesOff bill s t ∧ Database.Only [Name.line] s t ∧
      Db.arrearsTotal t bill = s.arrearsTotal bill + (arrears.map Arrears.amount).sum := by
  induction arrears generalizing s position with
  | nil => exact .ret ⟨fun _ _ _ => .rfl, Std.Refl.refl _, by simp⟩
  | cons a arrears hi =>
    have ⟨ha, hnodup⟩ := List.nodup_cons.mp hnodup
    refine .seq (post_placeArrears h ha) fun _ t ⟨hfresh, hoff, hsum, ho⟩ => ?_
    refine .imp (hi hfresh hnodup) fun _ u ⟨hoff', ho', hsum'⟩ => ?_
    refine ⟨hoff.trans hoff', IsTrans.trans _ _ _ ho ho', ?_⟩
    rw [hsum', hsum, List.map_cons, List.sum_cons, add_assoc]

theorem post_rollArrears {fresh : List FreshLine} (h : ∀ items, Fresh bill items fresh s) :
    Prog.Post (rollArrears today payer bill fresh) s <| Prog.OnReturn fun _ t =>
      Superseded bill (openBills s payer bill) s t ∧ LinesOff bill s t ∧
      Db.arrearsTotal t bill =
        s.arrearsTotal bill + ((openBills s payer bill).map s.outstandingOn).sum ∧
      Database.Only [Name.line, Name.bill, Name.debtCase] s t := by
  refine .bind <| post_select <| .seq post_lockOpenBills fun bills s₁ ⟨hs₁, hbills⟩ => ?_
  subst hs₁
  refine .seq post_rollBills fun arrears s₂ ⟨hsup, ho, hsum⟩ => ?_
  have hline : s₂.table .line = s₁.table .line := ho .line (by simp)
  refine .seq (post_placeAll ((h _).congr hline) hsum.nodup) fun _ s₃ ⟨hoff, ho', htotal⟩ => .ret ?_
  refine ⟨fun k => ?_, (LinesOff.of_only ho (by simp)).trans hoff, ?_, ?_⟩
  · rw [ho' .bill (by simp), hsup k, hbills]
  · rw [htotal, hsum.sum, Db.arrearsTotal_congr hline, ← hbills, List.map_map]
    rfl
  · exact IsTrans.trans _ _ _ (ho.mono <| by simp) (ho'.mono <| by simp)

-- A bill that nothing has been paid on is not paid.
theorem statusOf_unpaid {status : BillStatus} {amount : ℚ} {dueDate : Date} (h : status ≠ .paid) :
    statusOf today status 0 amount dueDate ≠ .paid := by
  unfold statusOf
  split
  · exact h
  · rw [if_neg fun h => h.2.not_ge h.1]
    repeat' split
    all_goals simp

-- What issuing a bill has done that supersedes the bills `rolled`.
structure Issued (r : IssueRequest) (bill : ℕ) (rolled : List ℕ) (s t : Db) : Prop where
  absent : (s.table .bill).get bill = none
  row    : ∃ b, (t.table .bill).get bill = some b ∧ b.council = r.council ∧ b.payer = r.payer.id ∧
    b.amountPaid.units = 0 ∧ b.totalAmount.units = t.lineTotal bill ∧ b.arrearsAmount.units = t.arrearsTotal bill ∧
    b.status.terminal = false ∧ b.supersededBy = none
  unpaid : ∀ {b}, (t.table .bill).get bill = some b → b.status ≠ .paid
  others : ∀ k ≠ bill, (t.table .bill).get k =
    ((s.table .bill).get k).map fun b => if k ∈ rolled then supersede bill b else b
  lines  : LinesOff bill s t
  arrears : t.arrearsTotal bill = s.arrearsTotal bill + (rolled.map s.outstandingOn).sum
  only   : Database.Only [Name.assessment, Name.bill, Name.line, Name.debtCase] s t

theorem openBills_insert {b : Bill} (hr : bill ∉ s.retired .bill) :
    openBills (s.insert .bill bill b) payer bill = openBills s payer bill := by
  unfold openBills
  rw [insert_table hr, Table.filter_congr fun k a hp => ?_]
  have : k ≠ bill := by simp at hp; exact hp.2
  rw [Table.get_insert_ne this]

theorem outstandingOn_of_off (h : LinesOff bill s t) (ha : t.table .allocation = s.table .allocation)
    (hp : t.table .payment = s.table .payment) (hk : k ≠ bill) :
    t.outstandingOn k = s.outstandingOn k := by
  rw [Db.outstandingOn, Db.outstandingOn, Db.outstanding_congr ha hp]
  refine Table.sum_eq_of_iff fun i l hl => h i l ?_
  split at hl
  case isTrue hlk => exact hlk ▸ hk
  case isFalse => contradiction

theorem openBills_ne (h : k ∈ openBills s payer bill) : k ≠ bill := by
  have ⟨⟨_, b⟩, hb, hk⟩ := List.mem_map.mp h
  have := (Table.mem_filter_iff.mp hb).2
  simp at this
  exact hk ▸ this.2

theorem post_finalizeBill {b : Loaded Bill} : Prog.Post (finalizeBill today b) s <|
    Prog.OnReturn fun _ t => ∃ status totalAmount arrearsAmount billRef,
      status = statusOf today b.row.status 0 (kobo (s.lineTotal b.id)) b.row.dueDate ∧
      totalAmount.units = s.lineTotal b.id ∧ arrearsAmount.units = s.arrearsTotal b.id ∧
      t.table .bill = (s.table .bill).modify b.id (fun r =>
        { r with totalAmount, arrearsAmount, status, billRef }) ∧
      Database.Only [Name.bill] s t := by
  refine .bind <| post_load (fun config _ => .bind ?_) fun _ => trivial
  refine post_save (fun _ _ => .seq post_recomputeBill fun status t ht => .ret ?_) fun _ => trivial
  obtain ⟨hstatus, total, arrears, htotal, harrears, ht⟩ := ht
  refine ⟨status, total, arrears, nextBillRef config today b.id, hstatus, htotal, harrears, ?_, ?_⟩
  · rw [ht, modify_table, modify_table, Table.modify_modify]
    rfl
  · rw [ht]
    exact IsTrans.trans _ _ _ (only_modify <| .head _) (only_modify <| .head _)

-- The bills that a bill supersedes when it is issued.
def IssueRequest.rolled (r : IssueRequest) (s : Db) (bill : ℕ) : List ℕ :=
  if r.rollArrears then openBills s r.payer.id bill else []

theorem IssueRequest.rolled_ne {r : IssueRequest} (h : k ∈ r.rolled s bill) : k ≠ bill := by
  unfold rolled at h
  split at h
  · exact openBills_ne h
  · contradiction

theorem post_writeBill {r : IssueRequest} {assessments : List AssessmentObject} {dueDate : Date} :
    Prog.Post (writeBill today r assessments dueDate) s <| Prog.OnReturn fun out t =>
      Issued r out.1 (r.rolled s out.1) s t := by
  refine .bind <| post_create (fun bill hbill => ?_) fun _ => trivial
  have ⟨hr, hk, _⟩ := conflicts_false hbill
  refine .seq (post_createFreshLines fun items => ⟨.nil, by simp⟩) fun fresh s₂ h₂ => ?_
  have ⟨hfresh, hoff₂, htotal₂, ho₂⟩ := h₂
  have hbill₂ : s₂.table .bill = _ := (ho₂ .bill (by simp)).trans (insert_table hr)
  have hoff : LinesOff bill s s₂ := .trans (.of_only (only_insert <| List.mem_singleton_self _) (by simp)) hoff₂
  have hopen : openBills s₂ r.payer.id bill = openBills s r.payer.id bill := by
    rw [openBills, ho₂ .bill (by simp)]
    exact openBills_insert hr
  have roll : Prog.Post (if r.rollArrears then rollArrears today r.payer.id bill fresh
      else pure 0 : Service ℕ) s₂ <| Prog.OnReturn fun _ t => Superseded bill (r.rolled s bill) s₂ t ∧
        LinesOff bill s₂ t ∧ Db.arrearsTotal t bill =
          Db.arrearsTotal s₂ bill + ((r.rolled s bill).map (Db.outstandingOn s₂)).sum ∧
        Database.Only [Name.line, Name.bill, Name.debtCase] s₂ t := by
    unfold IssueRequest.rolled
    split
    · exact hopen ▸ post_rollArrears hfresh
    · exact .ret ⟨fun k => by simp, fun _ _ _ => .rfl, by simp, Std.Refl.refl _⟩
  refine .seq roll fun count s₃ ⟨hsup, hoff₃, htotal₃, ho₃⟩ => ?_
  refine .seq post_finalizeBill fun _ t h₄ => .ret ?_
  have ⟨status, total, arrears, billRef, hstatus, htotal, harrears, ht, ho₄⟩ := h₄
  have hline : t.table .line = s₃.table .line := ho₄ .line (by simp)
  have hnot : bill ∉ r.rolled s bill := fun h => IssueRequest.rolled_ne h rfl
  have hget := congrArg (Table.get · bill) ht
  rw [Table.get_modify, if_pos rfl, hsup, hbill₂, Table.get_insert_self hk, Option.map_some, if_neg hnot,
    Option.map_some] at hget
  refine ⟨hk, ?row, fun hb => ?unpaid, fun i hi => ?others,
    (hoff.trans hoff₃).trans <| .of_only ho₄ (by simp), ?arrears, ?only⟩
  case row =>
    refine ⟨_, hget, rfl, rfl, rfl, ?_, ?_, ?_, rfl⟩
    · rw [htotal, Db.lineTotal_congr hline]
    · rw [harrears, Db.arrearsTotal_congr hline]
    · rw [hstatus, statusOf_terminal]
      rfl
  case unpaid =>
    rw [hget, Option.some.injEq] at hb
    rw [← hb, hstatus]
    have hissued : BillStatus.issued ≠ .paid := by decide
    exact statusOf_unpaid hissued
  case others =>
    rw [ht, Table.get_modify, if_neg hi, hsup, hbill₂, Table.get_insert_ne hi]
  case arrears =>
    have hout : (r.rolled s bill).map (Db.outstandingOn s₂) = (r.rolled s bill).map s.outstandingOn :=
      List.map_congr_left fun i hi => outstandingOn_of_off hoff ((ho₂ .allocation (by simp)).trans
        (insert_table_ne (by decide))) ((ho₂ .payment (by simp)).trans (insert_table_ne (by decide)))
        (IssueRequest.rolled_ne hi)
    rw [Db.arrearsTotal_congr hline, htotal₃, htotal₂, hout,
      Db.arrearsTotal_congr (s := s) (insert_table_ne (by decide))]
  case only =>
    refine IsTrans.trans _ _ _ (only_insert <| by simp) <| IsTrans.trans _ _ _ (ho₂.mono <| by simp) ?_
    exact IsTrans.trans _ _ _ (ho₃.mono <| by simp) (ho₄.mono <| by simp)

-- The assessments do not matter for what is issued.
theorem Issued.after {r : IssueRequest} {s₁ : Db} (ho : Database.Only [Name.assessment] s s₁)
    (h : Issued r bill (r.rolled s₁ bill) s₁ t) :
    Issued r bill (r.rolled s bill) s t := by
  have hbill : s₁.table .bill = s.table .bill := ho .bill (by simp)
  have hline : s₁.table .line = s.table .line := ho .line (by simp)
  have hrolled : r.rolled s₁ bill = r.rolled s bill := by
    simp only [IssueRequest.rolled, openBills, hbill]
  rw [hrolled] at h
  refine ⟨hbill ▸ h.absent, h.row, h.unpaid, hbill ▸ h.others, (LinesOff.of_only ho (by simp)).trans h.lines, ?_,
    IsTrans.trans _ _ _ (ho.mono <| by simp) h.only⟩
  rw [h.arrears, Db.arrearsTotal_congr hline, Db.outstandingOn_congr hline (ho .allocation (by simp))
    (ho .payment (by simp))]

theorem post_issueBill {r : IssueRequest} : Prog.Post (issueBill today r) s <|
    Prog.OnReturn fun out t => Issued r out.1 (r.rolled s out.1) s t := by
  refine .bind <| post_getForUpdate (fun _ _ => ?_) fun _ => trivial
  have rest : Prog.Post (do
      let assessments ← mergedAssessments r
      if assessments.isEmpty && !r.rollArrears then refuse .emptyBill
      let dueDate ← dueDateOf today r
      writeBill today r assessments dueDate) s (Prog.OnReturn fun out t =>
        Issued r out.1 (r.rolled s out.1) s t) := by
    refine .seq (mergedAssessments_keeps id).returns fun assessments s₁ h₁ => ?_
    refine post_guard (fun _ => trivial) fun _ => ?_
    refine .seq (dueDateOf_keeps (P := Eq)).returns fun dueDate s₂ h₂ => ?_
    exact .imp post_writeBill fun _ t h => h.after <| h₂ ▸ h₁
  refine post_unless (fun _ => rest) fun _ => ?_
  refine .seq (checkDuplicate_keeps (P := Eq)).returns fun _ s₁ h₁ => ?_
  exact h₁ ▸ rest

end ACRev360
