import ACRev360.Theorems.Allocation
import ACRev360.Theorems.Charges

namespace ACRev360

open Relational Relational.Database

-- Lines are what they charge and the arrears that they carry, and bills are their lines.

variable {s t : Db} {b k : ℕ} {today : Date}

section Amounts

-- Products of prices and quantities have four decimals.
def Priced (q : ℚ) : Prop :=
  ∃ n : ℕ, q = n / 10 ^ 4

-- An amount that can be charged is priced, unless it has more digits than its column.
structure Chargeable (q : ℚ) : Prop where
  nonneg : 0 ≤ q
  priced : q < 10 ^ 12 → Priced q

theorem Priced.fits {q : ℚ} (h : Priced q) (hlt : q < 10 ^ 13) : Decimal.Fits q := by
  obtain ⟨n, rfl⟩ := h
  refine ⟨4, n, by norm_num, ?_, rfl⟩
  rw [div_lt_iff₀ (by positivity)] at hlt
  have : n < 10 ^ 17 := by
    have : (n : ℚ) < 10 ^ 17 := hlt.trans_eq (by norm_num)
    exact_mod_cast this
  rw [Decimal.precision]
  omega

theorem Priced.add {p q : ℚ} : Priced p → Priced q → Priced (p + q)
  | ⟨m, hm⟩, ⟨n, hn⟩ => ⟨m + n, by rw [hm, hn]; push_cast; ring⟩

theorem priced_kobo {z : ℤ} (hz : 0 ≤ z) : Priced (kobo z) := by
  obtain ⟨n, rfl⟩ := Int.eq_ofNat_of_zero_le hz
  exact ⟨n * 100, by rw [kobo]; push_cast; ring⟩

theorem chargeable_kobo {z : ℤ} (hz : 0 ≤ z) : Chargeable (kobo z) where
  nonneg   := by simpa using (priced_kobo hz).elim fun n h => h ▸ (by positivity : (0 : ℚ) ≤ n / 10 ^ 4)
  priced _ := priced_kobo hz

theorem Chargeable.add {p q : ℚ} (hp : Chargeable p) (hq : Chargeable q) :
    Chargeable (Decimal.round (p + q)) where
  nonneg     := Decimal.round_nonneg <| add_nonneg hp.nonneg hq.nonneg
  priced hlt := by
    have hp₀ := hp.nonneg
    have hq₀ := hq.nonneg
    by_cases hsum : p + q < 10 ^ 12
    case pos =>
      have hpriced := (hp.priced (by linarith)).add (hq.priced (by linarith))
      rwa [(hpriced.fits (by linarith)).round_eq]
    case neg =>
      -- Rounding does not take the sum below the limit.
      have hlimit : Decimal.round (kobo (10 ^ 14)) = 10 ^ 12 := by
        rw [round_kobo (by norm_num), kobo]
        norm_num
      have := Decimal.round_mono (q := kobo (10 ^ 14)) (r := p + q) (by norm_num [kobo])
        (by norm_num [kobo]; linarith)
      linarith

-- What a column has taken has not too many digits.
theorem lt_of_cents {q : ℚ} {x : Money} (hq : 0 ≤ q) (hx : x.units = cents q) : q < 10 ^ 12 := by
  have hbound := x.bound
  have hlt : cents q < 10 ^ 14 := by omega
  rw [cents, roundHalfAway, if_pos (by positivity), Int.floor_lt] at hlt
  push_cast at hlt
  linarith

-- Arrears are added to a charge exactly.
theorem cents_round_add {q : ℚ} {x y : Money} (hq : Chargeable q) (hx : x.units = cents q)
    (hy : 0 ≤ y.units) : cents (Decimal.round (q + kobo y.units)) = x.units + y.units := by
  have hlt := lt_of_cents hq.nonneg hx
  have hpriced := (hq.priced hlt).add (priced_kobo hy)
  have hy' : kobo y.units < 10 ^ 12 := lt_of_cents (chargeable_kobo hy).nonneg (cents_kobo _).symm
  rw [(hpriced.fits (by linarith)).round_eq, add_comm, cents_kobo_add hy hq.nonneg, ← hx, add_comm]

theorem LineEntry.Validated.chargeable {e : LineEntry} (he : e.Validated) {p : ℚ}
    (h : priceOf s e = some p) : ACRev360.Chargeable p where
  nonneg   := (priceOf_exact he h).choose_spec.2.2
  priced _ := by
    obtain ⟨unit, hunit, hp, hpos⟩ := priceOf_exact he h
    obtain ⟨_, m, hm⟩ := unitPrice_money he hunit
    obtain ⟨q, hq, _⟩ := he.quantity
    have hprod : p = (m.units * q.units : ℤ) / 10 ^ 4 := by
      rw [hp, hm, hq, Numeric.toRat, Numeric.toRat]
      push_cast
      ring
    rw [hprod, le_div_iff₀ (by positivity), zero_mul] at hpos
    obtain ⟨n, hn⟩ := Int.eq_ofNat_of_zero_le (show 0 ≤ m.units * q.units by exact_mod_cast hpos)
    exact ⟨n, by rw [hprod, hn]; rfl⟩

end Amounts

structure BillLine.Formed (l : BillLine) : Prop where
  current : 0 ≤ l.currentAmount.units
  arrears : 0 ≤ l.arrearsAmount.units
  sum     : l.lineAmount.units = l.currentAmount.units + l.arrearsAmount.units

def Formed (s : Db) : Prop :=
  ∀ ⦃k l⦄, (s.table .line).get k = some l → l.Formed

namespace Formed

theorem congr (h : Formed s) (ht : t.table .line = s.table .line) : Formed t := by
  unfold Formed
  rwa [ht]

theorem insert (h : Formed s) {l : BillLine} (hl : l.Formed) : Formed (s.insert .line k l) := by
  intro i l' hl'
  rcases get_insert_cases hl' with ⟨_, rfl⟩ | hl'
  · exact hl
  · exact h hl'

theorem modify (h : Formed s) {g : BillLine → BillLine}
    (hg : ∀ l, (s.table .line).get k = some l → (g l).Formed) : Formed (s.modify .line k g) := by
  intro i l' hl'
  rw [modify_table, Table.get_modify] at hl'
  split at hl'
  case isTrue hi =>
    have ⟨l, hl, he⟩ := Option.map_eq_some_iff.mp hl'
    exact he ▸ hg l hl
  case isFalse => exact h hl'

theorem erase (h : Formed s) : Formed (s.erase .line k) := by
  intro i l hl
  rw [erase_table, Table.get_erase] at hl
  split at hl
  · contradiction
  · exact h hl

end Formed

section Issuing

abbrev ChargeableAmounts (l : List AssessmentObject) : Prop :=
  ∀ a ∈ l, Chargeable a.amount

theorem draftsOf_chargeable {payer : ℕ} {excluded : List ℕ} (h : Nonneg s) :
    ChargeableAmounts (draftsOf s payer excluded) := by
  intro a ha
  have ⟨⟨k, row⟩, hrow, he⟩ := List.mem_map.mp ha
  rw [← he]
  simp only [Money.toRat_eq_kobo]
  exact chargeable_kobo <| h.assessment (Table.mem_filter_iff.mp hrow).1

theorem post_mergedAssessments_chargeable {r : IssueRequest} (h : Nonneg s)
    (hr : ∀ e ∈ r.lines, e.Validated) : Prog.Post (mergedAssessments r) s <|
      Prog.OnReturn fun l t => ChargeableAmounts l ∧ Database.Only [Name.assessment] s t := by
  let I (l : List AssessmentObject) (rest : List LineEntry) (t : Db) :=
    Nonneg t ∧ ChargeableAmounts l ∧ (∀ e ∈ rest, e.Validated) ∧ Database.Only [Name.assessment] s t
  refine .seq (Prog.Post.foldlM (S := relational.schema) (I := I) (fun {l e rest _} ⟨hn, hl, hrest, ho⟩ => ?_)
    ⟨h, List.forall_mem_nil _, hr, Std.Refl.refl _⟩) fun priced s₁ ⟨h₁, hpriced, _, ho₁⟩ => .bind <| post_select ?_
  case refine_1 =>
    have he := hrest e <| .head _
    refine .seq post_createDraftAssessment fun a u ⟨_, hprice, row, hrow, hu⟩ => .ret ?_
    have ha := he.chargeable hprice
    subst hu
    refine ⟨hn.insert_assessment <| units_nonneg hrow.amount ha.nonneg, fun x hx => ?_,
      fun e he => hrest e <| .tail _ he, IsTrans.trans _ _ _ ho <| only_insert <| .head _⟩
    rcases List.mem_append.mp hx with hx | hx
    · exact hl x hx
    · rwa [List.mem_singleton.mp hx]
  have hmerged : ChargeableAmounts ((priced ++ if r.billAllDrafts then draftsOf s₁ r.payer.id
      (priced.map (·.id)) else []).foldl mergeAssessment ([], [])).1 := by
    refine mergeAll_forall (P := fun a => Chargeable a.amount) .add (List.forall_mem_nil _) fun a ha => ?_
    rcases List.mem_append.mp ha with ha | ha
    · exact hpriced a ha
    · split at ha
      · exact draftsOf_chargeable h₁ a ha
      · contradiction
  refine .seq (forM_keeps (P := Database.Only [Name.assessment]) fun _ _ => saveAssessment_keeps id).returns
    fun _ s₂ ho₂ => ?_
  refine .seq (forM_keeps (P := Database.Only [Name.assessment]) fun _ _ => setAssessmentStatus_keeps id).returns
    fun _ s₃ ho₃ => .ret ⟨hmerged, ?_⟩
  exact IsTrans.trans _ _ _ ho₁ (IsTrans.trans _ _ _ ho₂ ho₃)

-- The lines of the fresh charges charge what the process holds.
def Holds (fresh : List FreshLine) (s : Db) : Prop :=
  ∀ f ∈ fresh, Chargeable f.currentAmount ∧ ∃ l, (s.table .line).get f.id = some l ∧
    l.currentAmount.units = cents f.currentAmount

theorem Holds.insert {fresh : List FreshLine} (h : Holds fresh s) {l : BillLine} :
    Holds fresh (s.insert .line k l) := fun f hf => by
  have ⟨hf, l, hl, hcurrent⟩ := h f hf
  exact ⟨hf, l, get_insert_of_some hl, hcurrent⟩

theorem Holds.modify {fresh : List FreshLine} (h : Holds fresh s) {g : BillLine → BillLine}
    (hg : ∀ l, (g l).currentAmount = l.currentAmount) : Holds fresh (s.modify .line k g) := fun f hf => by
  have ⟨hf, l, hl, hcurrent⟩ := h f hf
  by_cases hk : f.id = k
  · exact ⟨hf, g l, by rw [modify_table, Table.get_modify, if_pos hk, ← hk, hl]; rfl, by rwa [hg]⟩
  · exact ⟨hf, l, by rwa [modify_table, Table.get_modify, if_neg hk], hcurrent⟩

theorem Holds.congr {fresh : List FreshLine} (h : Holds fresh s) (ht : t.table .line = s.table .line) :
    Holds fresh t := by
  unfold Holds
  rwa [ht]

theorem post_createFreshLines_formed {assessments : List AssessmentObject} (h : Formed s)
    (ha : ChargeableAmounts assessments) : Prog.Post (assessments.foldlM (createFreshLine b) []) s <|
      Prog.OnReturn fun fresh t => Formed t ∧ Holds fresh t := by
  let I (fresh : List FreshLine) (rest : List AssessmentObject) (t : Db) :=
    Formed t ∧ ChargeableAmounts rest ∧ Holds fresh t
  refine .imp (Prog.Post.foldlM (S := relational.schema) (I := I) (fun {fresh a rest _} ⟨ht, hrest, hheld⟩ => ?step)
    ⟨h, ha, List.forall_mem_nil _⟩) fun fresh t ⟨ht, _, hfresh⟩ => ⟨ht, hfresh⟩
  have ha := hrest a <| .head _
  refine .seq post_createLine_row fun k s₁ ⟨x, y, z, hr, hk, hs₁, hx, hy, hz⟩ => ?_
  refine .seq (setAssessmentStatus_keeps id).returns fun _ s₂ ho => .ret ?_
  have hline : s₂.table .line = s₁.table .line := ho .line (by simp)
  subst hs₁
  rw [cents_zero] at hz
  refine ⟨.congr (ht.insert ⟨hy ▸ cents_nonneg ha.nonneg, hz.ge, ?_⟩) hline, fun x hx => hrest x <| .tail _ hx,
    .congr (fun f hf => ?_) hline⟩
  · exact hx.trans <| by rw [hz, add_zero, hy]
  · rcases List.mem_append.mp hf with hf | hf
    · exact hheld.insert f hf
    · rw [List.mem_singleton.mp hf]
      exact ⟨ha, _, by rw [insert_table hr, Table.get_insert_self hk], hy⟩

theorem post_placeArrears_formed {fresh : List FreshLine} {position : ℕ} {a : Arrears} (h : Formed s)
    (hheld : Holds fresh s) (ha : 0 < a.amount) : Prog.Post (placeArrears b fresh position a) s <|
      Prog.OnReturn fun _ t => Formed t ∧ Holds fresh t := by
  unfold placeArrears
  split
  case h_1 f hf =>
    obtain ⟨hcharge, l, hl, hcurrent⟩ := hheld f <| List.mem_of_find?_eq_some hf
    refine .bind <| post_store (fun arrears harrears => .bind ?_) fun _ => trivial
    refine post_store (fun amount hamount => .bind ?_) fun _ => trivial
    refine post_save (fun _ _ => .ret ⟨h.modify fun l' hl' => ?_, hheld.modify fun _ => rfl⟩) fun _ => trivial
    obtain rfl := Option.some.inj <| hl.symm.trans hl'
    rw [← cents, cents_kobo] at harrears
    refine ⟨(h hl).current, by simp only [harrears]; exact ha.le, ?_⟩
    simp only
    rw [hamount, ← cents, ← harrears]
    exact cents_round_add hcharge hcurrent (by omega)
  case h_2 =>
    refine .seq post_createLine_row fun k t hpost => .ret ?_
    obtain ⟨x, y, z, _, _, ht, hx, hy, hz⟩ := hpost
    subst ht
    rw [cents_zero] at hy
    rw [cents_kobo] at hx hz
    refine ⟨h.insert ⟨hy.ge, hz ▸ ha.le, ?_⟩, hheld.insert⟩
    simp only [hx, hy, hz, zero_add]

theorem post_rollArrears_formed {payer : ℕ} {fresh : List FreshLine} (h : Formed s) (hheld : Holds fresh s) :
    Prog.Post (rollArrears today payer b fresh) s <| Prog.OnReturn fun _ t => Formed t := by
  refine .bind <| post_select <| .seq post_lockOpenBills fun bills s₁ ⟨hs₁, _⟩ => ?_
  subst hs₁
  refine .seq post_rollBills fun arrears s₂ ⟨_, ho, hsum⟩ => ?_
  have hline : s₂.table .line = s₁.table .line := ho .line (by simp)
  let I (_ : ℕ) (rest : List Arrears) (t : Db) := Formed t ∧ Holds fresh t ∧ ∀ a ∈ rest, 0 < a.amount
  refine .seq (Prog.Post.foldlM (S := relational.schema) (I := I) (fun {_ a rest _} ⟨ht, hheld, hrest⟩ => ?step)
    ⟨h.congr hline, hheld.congr hline, hsum.pos⟩) fun _ _ ⟨h₃, _⟩ => .ret h₃
  refine .imp (post_placeArrears_formed ht hheld <| hrest a <| .head _) fun _ _ ⟨hu, hheld⟩ => ?_
  exact ⟨hu, hheld, fun x hx => hrest x <| .tail _ hx⟩

theorem post_writeBill_formed {r : IssueRequest} {assessments : List AssessmentObject} {dueDate : Date}
    (h : Formed s) (ha : ChargeableAmounts assessments) :
    Prog.Post (writeBill today r assessments dueDate) s <| Prog.OnReturn fun _ t => Formed t := by
  refine .bind <| post_create (fun bill _ => ?_) fun _ => trivial
  refine .seq (post_createFreshLines_formed (h.congr <| insert_table_ne (by decide)) ha)
    fun fresh s₂ ⟨h₂, hheld⟩ => ?_
  have roll : Prog.Post (if r.rollArrears then rollArrears today r.payer.id bill fresh
      else pure 0 : Service ℕ) s₂ <| Prog.OnReturn fun _ t => Formed t := by
    split
    · exact post_rollArrears_formed h₂ hheld
    · exact .ret h₂
  refine .seq roll fun _ s₃ h₃ => .seq post_finalizeBill fun _ t h₄ => .ret ?_
  have ⟨_, _, _, _, _, _, _, _, ho⟩ := h₄
  exact h₃.congr <| ho .line (by simp)

theorem post_issueBill_formed {r : IssueRequest} (h : Formed s) (hn : Nonneg s)
    (hr : ∀ e ∈ r.lines, e.Validated) : Prog.Post (issueBill today r) s <| Prog.OnReturn fun _ t => Formed t := by
  refine .bind <| post_getForUpdate (fun _ _ => ?_) fun _ => trivial
  have rest : Prog.Post (do
      let assessments ← mergedAssessments r
      if assessments.isEmpty && !r.rollArrears then refuse .emptyBill
      let dueDate ← dueDateOf today r
      writeBill today r assessments dueDate) s (Prog.OnReturn fun _ t => Formed t) := by
    refine .seq (post_mergedAssessments_chargeable hn hr) fun assessments s₁ ⟨ha, h₁⟩ => ?_
    refine post_guard (fun _ => trivial) fun _ => ?_
    refine .seq (dueDateOf_keeps (P := Eq)).returns fun dueDate s₂ h₂ => ?_
    exact h₂ ▸ post_writeBill_formed (h.congr <| h₁ .line (by simp)) ha
  refine post_unless (fun _ => rest) fun _ => ?_
  refine .seq (checkDuplicate_keeps (P := Eq)).returns fun _ s₁ h₁ => ?_
  exact h₁ ▸ rest

end Issuing

section Lines

theorem post_recomputeBill_formed {bill : Loaded Bill} {amountPaid : ℚ} (h : Formed s) :
    Prog.Post (recomputeBill today bill amountPaid) s <| Prog.OnReturn fun _ t => Formed t :=
  .imp (recomputeBill_keeps fun _ => only_modify <| List.mem_singleton_self _).returns
    fun _ _ ho => h.congr <| ho .line (by simp)

theorem post_addBillLine_formed {bill : Loaded Bill} {actor : ℕ} {e : LineEntry} (h : Formed s)
    (hn : Nonneg s) (he : e.Validated) :
    Prog.Post (addBillLine today bill actor e) s <| Prog.OnReturn fun _ t => Formed t := by
  refine .bind <| post_load (fun _ _ => ?_) fun _ => trivial
  refine .seq post_createDraftAssessment fun a s₁ hpost => .bind <| post_select ?_
  obtain ⟨_, hprice, row, hrow, hs₁⟩ := hpost
  have ha := he.chargeable hprice
  subst hs₁
  have hn₁ := hn.insert_assessment (k := a.id) <| units_nonneg hrow.amount ha.nonneg
  have h₁ : Formed (s.insert .assessment a.id row) := h.congr <| insert_table_ne (by decide)
  simp only
  split
  case h_1 line hfound =>
    refine .bind <| post_load (fun existing hexisting => .bind ?_) fun _ => trivial
    have hold : Chargeable existing.amount.toRat :=
      Money.toRat_eq_kobo _ ▸ chargeable_kobo (hn₁.assessment hexisting)
    have hcharge := hold.add ha
    refine post_store (fun _ _ => .bind ?_) fun _ => trivial
    refine post_store (fun _ _ => .bind ?_) fun _ => trivial
    refine post_save (fun _ _ => .bind ?_) fun _ => trivial
    refine post_store (fun current hcurrent => .bind ?_) fun _ => trivial
    refine post_store (fun amount hamount => .bind ?_) fun _ => trivial
    refine post_save (fun _ _ => .bind ?_) fun _ => trivial
    refine post_save (fun _ _ => ?_) fun _ => trivial
    have hformed : Formed ((s.insert .assessment a.id row).modify .line line.id fun l =>
        { l with currentAmount := current, lineAmount := amount }) := h₁.modify fun l hl => by
      obtain rfl : l = line.row := Option.some.inj <| hl.symm.trans (matchingLine_mem hfound).1
      have harrears := (h₁ hl).arrears
      refine ⟨hcurrent ▸ cents_nonneg hcharge.nonneg, harrears, ?_⟩
      simp only
      rw [hamount, ← cents, Money.toRat_eq_kobo line.row.arrearsAmount]
      exact cents_round_add hcharge hcurrent harrears
    exact .seq (post_recomputeBill_formed <| hformed.congr rfl) fun _ _ ht => .ret ht
  case h_2 =>
    refine .seq (setAssessmentStatus_keeps id).returns fun _ s₂ ho => .bind <| post_select ?_
    have h₂ : Formed s₂ := h₁.congr <| ho .line (by simp)
    refine .seq post_createLine_row fun k s₃ hpost => ?_
    obtain ⟨x, y, z, _, _, hs₃, hx, hy, hz⟩ := hpost
    subst hs₃
    rw [cents_zero] at hz
    refine .seq (post_recomputeBill_formed <| h₂.insert ⟨hy ▸ cents_nonneg ha.nonneg, hz.ge, ?_⟩)
      fun _ _ ht => .ret ht
    exact hx.trans <| by rw [hz, add_zero, hy]

-- The new amount is of whole kobo, as the arrears are that are taken off.
theorem post_updateBillLine_formed {line : Loaded BillLine} {m : Money} (h : Formed s)
    (hl : (s.table .line).get line.id = some line.row) :
    Prog.Post (updateBillLine today line m.toRat) s <| Prog.OnReturn fun _ t => Formed t := by
  refine post_guard (fun _ => trivial) fun hpos => post_guard (fun _ => trivial) fun hle => ?_
  have harrears := (h hl).arrears
  have hle : line.row.arrearsAmount.units ≤ m.units := Numeric.toRat_le_iff.mp <| not_lt.mp hle
  have hround : Decimal.round (m.toRat - line.row.arrearsAmount.toRat) =
      kobo (m.units - line.row.arrearsAmount.units) := by
    have := m.bound
    rw [Money.toRat_eq_kobo, Money.toRat_eq_kobo, kobo_sub]
    exact round_kobo (by omega)
  refine .bind <| post_store (fun x hx => .bind ?_) fun _ => trivial
  refine post_store (fun y hy => .bind ?_) fun _ => trivial
  refine post_save (fun _ _ => .bind ?_) fun _ => trivial
  refine post_load (fun _ _ => .bind ?_) fun _ => trivial
  refine post_save (fun _ _ => .bind ?_) fun _ => trivial
  refine post_load (fun _ _ => ?_) fun _ => trivial
  rw [hround, ← cents, cents_kobo] at hx
  rw [Money.toRat_eq_kobo, ← cents, cents_kobo] at hy
  have hformed : Formed (s.modify .line line.id fun l =>
      { l with currentAmount := x, lineAmount := y }) := h.modify fun l hl' => by
    obtain rfl := Option.some.inj <| hl.symm.trans hl'
    refine ⟨by simp only [hx]; omega, harrears, ?_⟩
    simp only [hx, hy]
    omega
  exact .seq (post_recomputeBill_formed <| hformed.congr rfl) fun _ _ ht => .ret ht

theorem post_deleteBillLine_formed {line : Loaded BillLine} (h : Formed s)
    (hl : (s.table .line).get line.id = some line.row) :
    Prog.Post (deleteBillLine today line) s <| Prog.OnReturn fun _ t => Formed t :=
  .imp (post_deleteBillLine hl) fun _ _ ⟨_, ht, _⟩ => h.erase.congr <| ht.trans erase_table.symm

end Lines

-- Quantities, prices set by hand and new line amounts have two decimals, as the serializers validate
-- them.
def Request.Validated : Request → Prop
  | .issueBill r          => ∀ e ∈ r.lines, e.Validated
  | .addLine _ _ e        => e.Validated
  | .putLine _ _ lineAmount => ∃ m : Money, lineAmount = m.toRat
  | _                     => True

theorem Formed.serve {r : Request} (h : Formed s) (hn : Nonneg s) (hs : Sourced s) (hr : r.Validated) :
    Prog.Post (r.serve today) s <| Prog.OnReturn fun _ t => Formed t := by
  cases r with
  | issueBill r => exact .seq (post_issueBill_formed h hn hr) fun _ _ ht => .ret ht
  | addLine pk actor e =>
    refine .seq (.bind <| post_getObject (fun _ _ _ => ?_) fun _ => trivial) fun _ _ ht => .ret ht
    exact post_addBillLine_formed h hn hr
  | putLine pk lineId lineAmount =>
    obtain ⟨m, rfl⟩ := hr
    refine .bind <| post_getObject (fun _ _ _ => .bind ?_) fun _ => trivial
    exact post_getObject (fun _ hl _ => post_updateBillLine_formed h hl) fun _ => trivial
  | deleteLine pk lineId =>
    refine .bind <| post_getObject (fun _ _ _ => .bind ?_) fun _ => trivial
    refine post_getObject (fun _ hl _ => .bind ?_) fun _ => trivial
    exact post_select <| post_guard (fun _ => trivial) fun _ => post_deleteBillLine_formed h hl
  | postPayment pk r =>
    refine .seq (.bind <| post_getObject (fun _ _ _ => ?_) fun _ => trivial) fun _ _ ht => .ret ht
    exact .imp (post_postPayment_reckoned hs) fun _ _ ht => h.congr <| ht.only .line (by simp)
  | reverse pk =>
    refine .bind <| post_getObject (fun _ hq _ => ?_) fun _ => trivial
    exact .imp (post_reversePayment_reckoned hq) fun _ _ ht => h.congr <| ht.only .line (by simp)

theorem Db.Reachable.formed {ok : Db → Request → Prop} (h : s.Reachable ok)
    (hok : ∀ {s r}, ok s r → r.Validated) : Formed s := by
  have hall := h.preserves (P := fun s => Tallied s ∧ Nonneg s ∧ Formed s)
    (fun hi => ⟨hi.tallied, hi.nonneg, fun _ _ hl => by simp [hi.line] at hl⟩) fun ⟨ht, hn, hf⟩ hr =>
      .imp (.both (.both ht.serve <| hn.serve ht.sourced) <| hf.serve hn ht.sourced <| hok hr)
        fun _ _ ⟨⟨ht, hn⟩, hf⟩ hv => ⟨ht hv, hn, hf⟩
  exact hall.2.2

-- The lines and the bills of a state add up.
structure Structured (s : Db) : Prop where
  line : ∀ {k l}, (s.table .line).get k = some l →
    l.lineAmount.units = l.currentAmount.units + l.arrearsAmount.units ∧
      0 ≤ l.currentAmount.units ∧ 0 ≤ l.arrearsAmount.units
  bill : ∀ {b r}, (s.table .bill).get b = some r →
    r.arrearsAmount.units = s.arrearsTotal b ∧ r.totalAmount.units = s.lineTotal b

theorem structured_of_reachable (h : s.Reachable fun _ r => r.Validated) : Structured s where
  line hl := by
    have hl := h.formed id hl
    exact ⟨hl.sum, hl.current, hl.arrears⟩
  bill hr := (h.tallied.totals hr).symm

theorem sample_structured : Structured Sample.lowered.1 := by
  have hentries : ∀ e ∈ [1, 2].map Sample.entry, e.Validated := by simp [Sample.entry_validated]
  refine structured_of_reachable <| Sample.reachable_serve (Sample.reachable_serve (Sample.reachable_serve
    (.initial Sample.council_initial) hentries) trivial) ⟨⟨1000, by norm_num⟩, ?_⟩
  norm_num [Numeric.toRat]

end ACRev360
