import ACRev360.Library.Sequences
import ACRev360.Theorems.Allocation

namespace ACRev360

open Relational Relational.Database

variable {s t : Db} {b k first next next' : ℕ} {today : Date} {n m : Name → ℕ}

section Lines

-- The lines of `t` are from `s`, on their bills and at their positions.
def LinesFrom (s t : Db) : Prop :=
  ∀ ⦃k l'⦄, (t.table .line).get k = some l' →
    ∃ l, (s.table .line).get k = some l ∧ l'.bill = l.bill ∧ l'.position = l.position

theorem LinesFrom.of_eq (h : t.table .line = s.table .line) : LinesFrom s t :=
  fun _ l hl => ⟨l, h ▸ hl, rfl, rfl⟩

instance : Std.Refl LinesFrom where
  refl _ := .of_eq rfl

instance : IsTrans Db LinesFrom where
  trans _ _ _ h₁ h₂ _ _ hl := by
    obtain ⟨l', hl', hbill', hposition'⟩ := h₂ hl
    obtain ⟨l, hl, hbill, hposition⟩ := h₁ hl'
    exact ⟨l, hl, hbill'.trans hbill, hposition'.trans hposition⟩

theorem LinesFrom.modify {g : BillLine → BillLine} (hg : KeepsPlace g) : LinesFrom s (s.modify .line k g) := by
  intro i l' hl'
  obtain ⟨l, hl, ⟨-, rfl⟩ | rfl⟩ := get_modify_cases hl'
  · exact ⟨l, hl, hg l⟩
  · exact ⟨_, hl, rfl, rfl⟩

theorem LinesFrom.erase : LinesFrom s (s.erase .line k) := by
  intro i l hl
  rw [erase_table, Table.get_erase] at hl
  split at hl
  case isTrue => contradiction
  case isFalse => exact ⟨l, hl, rfl, rfl⟩

-- The lines have got their primary keys one after the other, from `first` on, and those of a bill have positions
-- in the same order.
structure Numbered (first next : ℕ) (s : Db) : Prop where
  le      : first ≤ next
  within  : ∀ {k l}, (s.table .line).get k = some l → first ≤ k ∧ k < next
  ordered : ∀ {i j l l'}, (s.table .line).get i = some l → (s.table .line).get j = some l' → l.bill = l'.bill →
    i < j → l.position ≤ l'.position

namespace Numbered

theorem from_lines (h : Numbered first next s) (ht : LinesFrom s t) (hle : next ≤ next') : Numbered first next' t where
  le := h.le.trans hle
  within hl := by
    obtain ⟨l, hl, -, -⟩ := ht hl
    exact ⟨(h.within hl).1, (h.within hl).2.trans_le hle⟩
  ordered hl hl' hbill hlt := by
    obtain ⟨l₀, hl₀, hbill₀, hposition₀⟩ := ht hl
    obtain ⟨l₁, hl₁, hbill₁, hposition₁⟩ := ht hl'
    rw [hposition₀, hposition₁]
    exact h.ordered hl₀ hl₁ (hbill₀.symm.trans <| hbill.trans hbill₁) hlt

theorem insert {r : BillLine} (h : Numbered first next s)
    (hr : ∀ {k l}, (s.table .line).get k = some l → l.bill = r.bill → l.position ≤ r.position) :
    Numbered first (next + 1) (s.insert .line next r) where
  le := h.le.trans next.le_succ
  within hl := by
    rcases get_insert_cases hl with ⟨rfl, -⟩ | hold
    · exact ⟨h.le, Nat.lt_succ_self _⟩
    · exact ⟨(h.within hold).1, (h.within hold).2.trans <| Nat.lt_succ_self _⟩
  ordered {i j l l'} hl hl' hbill hlt := by
    rcases get_insert_cases hl with ⟨rfl, -⟩ | hold <;> rcases get_insert_cases hl' with ⟨rfl, rfl⟩ | hold'
    · exact absurd hlt <| lt_irrefl _
    · exact absurd (h.within hold').2 hlt.not_gt
    · exact hr hold hbill
    · exact h.ordered hold hold' hbill hlt

end Numbered

-- Programs that keep the lines on their bills and at their positions.
theorem Numbered.keeps {α : Type} {p : Service α} (h : Numbered first (n .line) s) (hp : p.Keeps LinesFrom) :
    Prog.Numbers p s n fun _ t m => Numbered first (m .line) t :=
  (Prog.Numbers.of_post hp.returns).mono fun _ _ _ ht => h.from_lines ht.1 <| ht.2 .line

end Lines

section Rules

variable {α : Type} {c : Prop} [Decidable c] {Q : α → Db → (Name → ℕ) → Prop}

theorem numbers_unless {p : Service PUnit} {f : PUnit → Service α} {R : Db → (Name → ℕ) → Prop} (h : c → R s n)
    (hp : ¬c → Prog.Numbers p s n fun _ t m => R t m) (hf : ∀ t m, R t m → Prog.Numbers (f ⟨⟩) t m Q) :
    Prog.Numbers (if c then f ⟨⟩ else p >>= f) s n Q := by
  split
  case isTrue hc => exact hf s n <| h hc
  case isFalse hc => exact .seq (hp hc) fun _ => hf

theorem numbers_guard {e : relational.Exn} {f : PUnit → Service α} (hf : ¬c → Prog.Numbers (f ⟨⟩) s n Q) :
    Prog.Numbers (if c then Prog.raise e >>= f else f ⟨⟩) s n Q := by
  split
  case isTrue =>
    intro _ _ _ _ ha
    contradiction
  case isFalse hc => exact hf hc

end Rules

section Creation

-- The lines of a bill have positions below `position`.
def Filled (b position : ℕ) (s : Db) : Prop :=
  ∀ ⦃k l⦄, (s.table .line).get k = some l → l.bill = b → l.position < position

theorem Filled.from_lines {position : ℕ} (h : Filled b position s) (ht : LinesFrom s t) : Filled b position t := by
  intro k l' hl' hb
  obtain ⟨l, hl, hbill, hposition⟩ := ht hl'
  exact hposition ▸ h hl (hbill ▸ hb)

-- A line at a position that is not below those of its bill.
theorem numbers_createLine {assessment position : ℕ} {current arrears amount : ℚ} (h : Numbered first (n .line) s)
    (hposition : ∀ {k l}, (s.table .line).get k = some l → l.bill = b → l.position ≤ position) :
    Prog.Numbers (createLine b assessment current arrears amount position) s n fun _ t m =>
      Numbered first (m .line) t ∧ (Filled b position s → Filled b (position + 1) t) := by
  have hstore : ∀ {q : ℚ}, (store q : Service Money).Keeps Eq := store_keeps
  refine .seq (.of_post hstore.returns) fun _ s₁ n₁ h₁ => ?_
  refine .seq (.of_post hstore.returns) fun _ s₂ n₂ h₂ => ?_
  refine .seq (.of_post hstore.returns) fun _ s₃ n₃ h₃ => ?_
  obtain ⟨rfl, hn₁⟩ := h₁
  obtain ⟨rfl, hn₂⟩ := h₂
  obtain ⟨rfl, hn₃⟩ := h₃
  have h' : Numbered first (n₃ .line) s :=
    h.from_lines (Std.Refl.refl _) <| (hn₁ .line).trans <| (hn₂ .line).trans <| hn₃ .line
  refine numbers_create ⟨?_, fun hfilled k l hl hb => ?_⟩
  · rw [Function.update_self]
    exact h'.insert hposition
  · rcases get_insert_cases hl with ⟨-, rfl⟩ | hold
    · exact Nat.lt_succ_self _
    · exact (hfilled hold hb).trans <| Nat.lt_succ_self _

theorem numbers_createFreshLines {assessments : List AssessmentObject} (h : Numbered first (n .line) s)
    (hb : Filled b 0 s) : Prog.Numbers (assessments.foldlM (createFreshLine b) []) s n fun fresh t m =>
      Numbered first (m .line) t ∧ Filled b fresh.length t := by
  let I (fresh : List FreshLine) (_ : List AssessmentObject) (t : Db) (m : Name → ℕ) :=
    Numbered first (m .line) t ∧ Filled b fresh.length t
  refine Prog.Numbers.foldlM (S := relational.schema) (I := I) (fun {fresh a l s n} h => ?_) ⟨h, hb⟩
  refine .seq (numbers_createLine h.1 fun hl hb => (h.2 hl hb).le) fun line t m ht => ?_
  have hstatus : (setAssessmentStatus .billed a.id).Keeps LinesFrom :=
    setAssessmentStatus_keeps fun h => .of_eq <| h .line (by simp)
  refine .seq (.of_post hstatus.returns) fun _ u m' hu => .ret ⟨ht.1.from_lines hu.1 <| hu.2 .line, ?_⟩
  rw [List.length_append]
  exact (ht.2 h.2).from_lines hu.1

theorem numbers_placeArrears {fresh : List FreshLine} {position : ℕ} {a : Arrears} (h : Numbered first (n .line) s)
    (hb : Filled b position s) : Prog.Numbers (placeArrears b fresh position a) s n fun position t m =>
      Numbered first (m .line) t ∧ Filled b position t := by
  unfold placeArrears
  split
  case h_1 line _ =>
    refine (Prog.Numbers.of_post (S := relational.schema) (Q := fun p t => p = position ∧ LinesFrom s t) ?_).mono
      fun p t m ht => ?_
    · refine .bind <| post_store (fun _ _ => .bind ?_) fun _ => trivial
      refine post_store (fun _ _ => .bind ?_) fun _ => trivial
      exact post_save (fun _ _ => .ret ⟨rfl, .modify fun _ => ⟨rfl, rfl⟩⟩) fun _ => trivial
    · obtain ⟨⟨rfl, hlines⟩, hn⟩ := ht
      exact ⟨h.from_lines hlines <| hn .line, hb.from_lines hlines⟩
  case h_2 =>
    refine .seq (numbers_createLine h fun hl hb' => (hb hl hb').le) fun _ t m ht => ?_
    exact .ret ⟨ht.1, ht.2 hb⟩

theorem numbers_rollArrears {payer : ℕ} {fresh : List FreshLine} (h : Numbered first (n .line) s)
    (hb : Filled b fresh.length s) : Prog.Numbers (rollArrears today payer b fresh) s n fun _ t m =>
      Numbered first (m .line) t := by
  refine .seq (.of_post (keeps_select (P := LinesFrom)).returns) fun found s₁ n₁ h₁ => ?_
  have hlock : (found.foldlM (lockOpenBill payer) []).Keeps LinesFrom := .foldlM fun _ _ => lockOpenBill_keeps
  refine .seq (.of_post hlock.returns) fun bills s₂ n₂ h₂ => ?_
  have hroll : (bills.foldlM (rollBill today b) []).Keeps LinesFrom := .foldlM fun _ _ =>
    rollBill_keeps (.of_eq <| modify_table_ne (by decide)) fun _ => .of_eq <| modify_table_ne (by decide)
  refine .seq (.of_post hroll.returns) fun arrears s₃ n₃ h₃ => ?_
  let I (position : ℕ) (_ : List Arrears) (t : Db) (m : Name → ℕ) :=
    Numbered first (m .line) t ∧ Filled b position t
  have hstart : I fresh.length arrears s₃ n₃ := by
    have hn := (h₁.2 .line).trans <| (h₂.2 .line).trans <| h₃.2 .line
    have hlines := IsTrans.trans _ _ _ h₁.1 <| IsTrans.trans _ _ _ h₂.1 h₃.1
    exact ⟨h.from_lines hlines hn, hb.from_lines hlines⟩
  refine .seq (Prog.Numbers.foldlM (S := relational.schema) (I := I) (fun {_ _ _ s n} h => ?_) hstart) fun _ _ _ ht =>
    .ret ht.1
  exact numbers_placeArrears h.1 h.2

-- The bill of each line is there.
def OnBills (s : Db) : Prop :=
  ∀ ⦃k l⦄, (s.table .line).get k = some l → ∃ r, (s.table .bill).get l.bill = some r

theorem OnBills.congr (h : OnBills s) (hl : t.table .line = s.table .line) (hb : t.table .bill = s.table .bill) :
    OnBills t := by
  rw [OnBills, hl, hb]
  exact h

theorem numbers_writeBill {r : IssueRequest} {assessments : List AssessmentObject} {dueDate : Date}
    (h : Numbered first (n .line) s) (hbill : OnBills s) :
    Prog.Numbers (writeBill today r assessments dueDate) s n fun _ t m => Numbered first (m .line) t := by
  refine .seq (.of_post (Q := fun (bill : ℕ) (t : Db) => (s.table .bill).get bill = none ∧
    t.table .line = s.table .line) ?_) fun bill s₁ n₁ h₁ => ?_
  · refine post_create (fun bill hconflict => ?_) fun _ => trivial
    exact ⟨(conflicts_false hconflict).2.1, insert_table_ne (by decide)⟩
  obtain ⟨⟨hnone, hline⟩, hn₁⟩ := h₁
  have hempty : Filled bill 0 s₁ := by
    intro k l hl hb
    rw [hline] at hl
    obtain ⟨r, hr⟩ := hbill hl
    simp [← hb, hr] at hnone
  refine .seq (numbers_createFreshLines (h.from_lines (.of_eq hline) <| hn₁ .line) hempty) fun fresh s₂ n₂ h₂ => ?_
  refine .seq (R := fun _ t m => Numbered first (m .line) t) ?_ fun _ s₃ n₃ h₃ => ?_
  · split
    case isTrue => exact numbers_rollArrears h₂.1 h₂.2
    case isFalse => exact .ret h₂.1
  have hfinalize {x : Loaded Bill} : (finalizeBill today x).Keeps LinesFrom :=
    finalizeBill_keeps fun _ => .of_eq <| modify_table_ne (by decide)
  exact .seq (h₃.keeps hfinalize) fun _ _ _ ht => .ret ht

-- What neither writes lines nor bills leaves both as they are.
theorem numbers_frame {α : Type} {p : Service α} (hp : p.Keeps (Database.Only [Name.assessment]))
    (h : Numbered first (n .line) s ∧ OnBills s) :
    Prog.Numbers p s n fun _ t m => Numbered first (m .line) t ∧ OnBills t := by
  refine (Prog.Numbers.of_post hp.returns).mono fun a t m ht => ?_
  have hline : t.table .line = s.table .line := ht.1 .line (by simp)
  exact ⟨h.1.from_lines (.of_eq hline) <| ht.2 .line, h.2.congr hline <| ht.1 .bill (by simp)⟩

theorem numbers_issueBill {r : IssueRequest} (h : Numbered first (n .line) s) (hb : OnBills s) :
    Prog.Numbers (issueBill today r) s n fun _ t m => Numbered first (m .line) t := by
  refine .seq (numbers_frame getForUpdate_keeps ⟨h, hb⟩) fun _ s₁ n₁ h₁ => ?_
  refine numbers_unless (R := fun t m => Numbered first (m .line) t ∧ OnBills t) (fun _ => h₁)
    (fun _ => numbers_frame checkDuplicate_keeps h₁) fun s₂ n₂ h₂ => ?_
  refine .seq (numbers_frame (mergedAssessments_keeps fun h => h) h₂) fun assessments s₃ n₃ h₃ => ?_
  refine numbers_guard fun _ => ?_
  refine .seq (numbers_frame dueDateOf_keeps h₃) fun dueDate s₄ n₄ h₄ => ?_
  exact numbers_writeBill h₄.1 h₄.2

theorem position_le_nextPosition {l : BillLine} (hl : (s.table .line).get k = some l) :
    l.position ≤ nextPosition s l.bill := by
  have hmem : l.position ∈ (s.linesOf l.bill).map (·.row.position) :=
    List.mem_map.mpr ⟨⟨k, l⟩, mem_linesOf.mpr ⟨hl, rfl⟩, rfl⟩
  rw [nextPosition]
  split
  case h_1 hnone => simp [List.max?_eq_none_iff.mp hnone] at hmem
  case h_2 hzero => exact (List.max?_eq_some_iff.mp hzero).2 _ hmem
  case h_3 m _ hmax => exact ((List.max?_eq_some_iff.mp hmax).2 _ hmem).trans m.le_succ

theorem numbers_addBillLine {bill : Loaded Bill} {actor : ℕ} {e : LineEntry} (h : Numbered first (n .line) s) :
    Prog.Numbers (addBillLine today bill actor e) s n fun _ t m => Numbered first (m .line) t := by
  have hassessment : ∀ {s t : Db}, Database.Only [Name.assessment] s t → LinesFrom s t :=
    fun h => .of_eq <| h .line (by simp)
  have hrecompute {amountPaid : ℚ} : (recomputeBill today bill amountPaid).Keeps LinesFrom :=
    recomputeBill_keeps fun _ => .of_eq <| modify_table_ne (by decide)
  refine .seq (h.keeps load_keeps) fun _ s₁ n₁ h₁ => ?_
  refine .seq (h₁.keeps <| createDraftAssessment_keeps fun _ => hassessment <| only_insert <| by simp)
    fun a s₂ n₂ h₂ => ?_
  refine .seq (h₂.keeps keeps_select) fun line s₃ n₃ h₃ => ?_
  split
  case h_1 =>
    refine h₃.keeps <| .bind load_keeps fun _ => .bind store_keeps fun _ => .bind store_keeps fun _ => ?_
    refine .bind (keeps_save fun _ => hassessment <| only_modify <| by simp) fun _ => ?_
    refine .bind store_keeps fun _ => .bind store_keeps fun _ => ?_
    refine .bind (keeps_save fun _ => .modify fun _ => ⟨rfl, rfl⟩) fun _ => ?_
    exact .bind (setAssessmentStatus_keeps hassessment) fun _ => .bind hrecompute fun _ => .ret
  case h_2 =>
    refine .seq (h₃.keeps <| setAssessmentStatus_keeps hassessment) fun _ s₄ n₄ h₄ => ?_
    have hselect : Prog.Post (query fun s => nextPosition s bill.id) s₄ <|
        Prog.OnReturn fun position t => position = nextPosition s₄ bill.id ∧ t = s₄ := post_select ⟨rfl, rfl⟩
    refine .seq (.of_post hselect) fun position s₅ n₅ h₅ => ?_
    obtain ⟨⟨rfl, rfl⟩, hn⟩ := h₅
    refine .seq (numbers_createLine (h₄.from_lines (Std.Refl.refl _) <| hn .line) fun hl hb => ?_)
      fun line s₆ n₆ h₆ => ?_
    · exact hb ▸ position_le_nextPosition hl
    exact .seq (h₆.1.keeps hrecompute) fun _ _ _ ht => .ret ht

theorem numbers_serve {r : Request} (h : Numbered first (n .line) s) (hb : OnBills s) :
    Prog.Numbers (r.serve today) s n fun _ t m => Numbered first (m .line) t := by
  have hassessment : ∀ {s t : Db}, Database.Only [Name.assessment] s t → LinesFrom s t :=
    fun h => .of_eq <| h .line (by simp)
  cases r with
  | issueBill r => exact .seq (numbers_issueBill h hb) fun _ _ _ ht => .ret ht
  | addLine pk actor e =>
    refine .seq (.seq (h.keeps getObject_keeps) fun bill _ _ h₁ => numbers_addBillLine h₁) fun _ _ _ ht => .ret ht
  | putLine pk lineId amount =>
    refine h.keeps <| .bind getObject_keeps fun _ => .bind getObject_keeps fun _ => ?_
    exact updateBillLine_keeps hassessment (fun _ => .of_eq <| modify_table_ne (by decide)) .modify
  | deleteLine pk lineId =>
    refine h.keeps <| .bind getObject_keeps fun _ => .bind getObject_keeps fun _ => .bind keeps_select fun _ => ?_
    refine when_keeps keeps_refuse <| deleteBillLine_keeps hassessment
      (fun _ => .of_eq <| modify_table_ne (by decide)) (fun {_} => ?_)
    exact .erase
  | postPayment pk r =>
    refine h.keeps <| .bind (.bind getObject_keeps fun _ => ?_) fun _ => .ret
    refine postPayment_keeps (.of_eq <| insert_table_ne (by decide)) (fun _ => .of_eq <| modify_table_ne (by decide))
      (fun h => .of_eq <| h .line (by simp)) (fun {_ _} => ?_)
    exact .of_eq <| modify_table_ne (by decide)
  | reverse pk =>
    refine h.keeps <| .bind getObject_keeps fun _ => ?_
    exact reversePayment_keeps (fun _ => .of_eq <| modify_table_ne (by decide)) fun h => .of_eq <| h .line (by simp)

end Creation

section Runs

-- The runs of requests from the time before there are lines, with the primary keys that have been handed out to
-- lines, the first first.
inductive LineRun : List ℕ → Db → (Name → ℕ) → Prop
  | start {s : Db} {n : Name → ℕ} : Database.valid s → s.table .line = .empty → LineRun [] s n
  | serve {added : List ℕ} {s t : Db} {n m : Name → ℕ} {out : Except relational.Exn Unit} (today : Date)
    (r : Request) : LineRun added s n → (r.serve today).call s n = (out, t, m) →
    LineRun (added ++ (r.serve today).drawn .line s n) t m

variable {added : List ℕ}

theorem onBills_of_valid (h : Database.valid s) : OnBills s :=
  fun _ _ hl => valid_ref h hl <| .head _

theorem LineRun.numbered (h : LineRun added s n) : Database.valid s ∧ ∃ first, Numbered first (n .line) s ∧
    added = List.range' first (n .line - first) := by
  induction h with
  | start hv hline =>
    refine ⟨hv, _, ⟨le_rfl, fun hl => ?_, fun hl => ?_⟩, by simp⟩ <;> simp [hline] at hl
  | serve today r _ hc hi =>
    obtain ⟨hv, first, hs, rfl⟩ := hi
    rename_i s t n m out _
    obtain ⟨hdrawn, hle⟩ := Prog.drawn_of_call  hc
    have hadded : List.range' first (n .line - first) ++ (r.serve today).drawn .line s n =
        List.range' first (m .line - first) := by
      have hfirst := hs.le
      rw [hdrawn, show n .line = first + (n .line - first) by omega, Nat.add_sub_cancel_left, List.range'_append_1]
      congr 1
      omega
    rw [hadded]
    refine ⟨Prog.valid_of_call hv hc, first, ?_, rfl⟩
    cases out with
    | error e =>
      obtain rfl := Prog.call_error hc
      exact hs.from_lines (Std.Refl.refl _) hle
    | ok a => exact (numbers_serve hs <| onBills_of_valid hv).call hc

-- The lines of a bill in their order are those that have been added, the first first, without those that are gone.
theorem LineRun.linesOf (h : LineRun added s n) :
    (s.linesOf b).map Loaded.id = added.filter fun k => ((s.table .line).get k).any (Db.isLineOf b k) := by
  obtain ⟨-, first, hs, rfl⟩ := h.numbered
  refine List.Pairwise.eq_of_mem_iff (r := (· < ·)) (List.pairwise_map.mpr ?_) ((List.pairwise_lt_range' 1).filter _)
    fun k => ?_
  · refine (linesOf_sorted.and <| List.pairwise_map.mp linesOf_nodup).imp_of_mem fun {x y} hx hy hxy => ?_
    obtain ⟨hx, hb⟩ := mem_linesOf.mp hx
    obtain ⟨hy, hb'⟩ := mem_linesOf.mp hy
    by_contra hle
    have hlt : y.id < x.id := lt_of_le_of_ne (not_lt.mp hle) (Ne.symm hxy.2)
    have hposition := hs.ordered hy hx (hb'.trans hb.symm) hlt
    rcases hxy.1 with hbefore | ⟨-, hbefore⟩ <;> omega
  · rw [List.mem_filter, List.mem_range'_1, List.mem_map, Option.any_eq_true]
    constructor
    · rintro ⟨l, hl, rfl⟩
      obtain ⟨hl, hb⟩ := mem_linesOf.mp hl
      obtain ⟨hle, hlt⟩ := hs.within hl
      exact ⟨⟨hle, by omega⟩, l.row, hl, by simpa [Db.isLineOf] using hb⟩
    · rintro ⟨-, l, hl, hb⟩
      exact ⟨⟨k, l⟩, mem_linesOf.mpr ⟨hl, by simpa [Db.isLineOf] using hb⟩, rfl⟩

-- A line that has been added before another one of its bill is before it.
theorem LineRun.before {l l' : Loaded BillLine} (h : LineRun added s n) (hl : (s.table .line).get l.id = some l.row)
    (hl' : (s.table .line).get l'.id = some l'.row) (hb : l'.row.bill = l.row.bill)
    (hadded : [l'.id, l.id].Sublist added) : l'.Before l := by
  obtain ⟨-, first, hs, rfl⟩ := h.numbered
  have hlt : l'.id < l.id := by
    have := (List.pairwise_lt_range' 1).sublist hadded
    simpa using this
  have := hs.ordered hl' hl hb hlt
  rw [Loaded.Before]
  omega

end Runs

-- The lines of each bill stand in the order in which they have been added, and a payment reaches a line only when
-- the lines of its bill that have been added before it are paid.
theorem lines_in_order {added : List ℕ} (h : LineRun added s n) :
    (∀ b, (s.linesOf b).map Loaded.id =
      added.filter fun k => ((s.table .line).get k).any (Db.isLineOf b k)) ∧
    ∀ {t : Db} {m m' : Name → ℕ} {day : Date} {bill : Loaded Bill} {r : PaymentRequest} {payment : ℕ} {z : ℤ},
      0 < z → r.amount = kobo z → (postPayment day bill r).call s m = (.ok payment, t, m') →
      ∀ {k a i l'}, (t.table .allocation).get k = some a → (s.table .allocation).get k = none →
        [i, a.line].Sublist added → (s.table .line).get i = some l' → l'.bill = bill.id →
        l'.lineAmount.units ≤ t.paidAmount i := by
  obtain ⟨hv, -⟩ := h.numbered
  refine ⟨fun _ => h.linesOf, fun hz hamount hc k a i l' ha hnew hadded hl' hb => ?_⟩
  have hsourced : Sourced s := sourced_of_valid hv
  obtain ⟨⟨-, w, hposted⟩, -⟩ := Prog.call_ok (post_postPayment_kobo hsourced hz hamount) hc
  have hfifo := hposted.fifoAllocated hsourced
  obtain ⟨l, hl, hbill, -⟩ := hfifo.within ha hnew
  have hbefore : Loaded.Before ⟨i, l'⟩ ⟨a.line, l⟩ := h.before hl hl' (hb.trans hbill.symm) hadded
  exact hfifo.inOrder ha hnew (mem_linesOf.mpr ⟨hl, hbill⟩) rfl (mem_linesOf.mpr ⟨hl', hb⟩) hbefore

namespace Sample

-- The first of two lines has been removed, and its item has been added again.
def relined : Db × (Name → ℕ) :=
  serve (serve (serve start <| issue [1, 2] false) <| .deleteLine 1 1) <| .addLine 1 1 <| entry 1

set_option maxRecDepth 20000 in
def relinedBill : Loaded Bill :=
  ⟨1, ((relined.1.table .bill).get 1).get (by decide +kernel)⟩

theorem lineRun_relined : ∃ added, LineRun added relined.1 relined.2 ∧ [2, 3].Sublist added ∧
    (added.filter fun k => ((relined.1.table .line).get k).any (Db.isLineOf 1 k)) = [2, 3] := by
  have hissued := (LineRun.start (n := keys) (by decide +kernel) council_initial.line).serve day
    (issue [1, 2] false) rfl
  have hremoved := hissued.serve day (.deleteLine 1 1) rfl
  exact ⟨_, hremoved.serve day (.addLine 1 1 <| entry 1) rfl, by decide +kernel, by decide +kernel⟩

end Sample

set_option maxRecDepth 20000 in
theorem sample_in_order : (Sample.relined.1.linesOf 1).map Loaded.id = [2, 3] ∧
    ∃ t : Db, 2000 ≤ t.paidAmount 2 := by
  obtain ⟨added, hrun, hadded, hlines⟩ := Sample.lineRun_relined
  have hc := Sample.call_returns (p := postPayment Sample.day Sample.relinedBill ⟨1, 1, kobo 3000, "", none,
    .ok (none, none), none⟩) (s := Sample.relined) (a := 1) (by decide +kernel)
  obtain ⟨horder, hpaid⟩ := lines_in_order hrun
  have hallocation : (((postPayment Sample.day Sample.relinedBill ⟨1, 1, kobo 3000, "", none,
    .ok (none, none), none⟩).call Sample.relined.1 Sample.relined.2).2.1.table .allocation).get 2 =
      some ⟨1, 3, ⟨1000, by decide⟩⟩ := by decide +kernel
  have hline : ((Sample.relined.1.table .line).get 2).map (fun l => (l.bill, l.lineAmount.units)) = some (1, 2000) := by
    decide +kernel
  obtain ⟨l, hl, hlamount⟩ := Option.map_eq_some_iff.mp hline
  obtain ⟨hb, hamount⟩ := Prod.mk.inj hlamount
  have hfull := hpaid (by norm_num) rfl hc hallocation (by decide +kernel) hadded hl hb
  rw [hamount] at hfull
  exact ⟨(horder 1).trans hlines, _, hfull⟩

end ACRev360
