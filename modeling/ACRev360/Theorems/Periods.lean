import Mathlib.Data.Int.ConditionallyCompleteOrder
import Mathlib.Order.CompletePartialOrder
import Mathlib.Order.Interval.Set.Disjoint
import ACRev360.Services.Filtering
import ACRev360.Theorems.Settlements

namespace ACRev360

open Relational Relational.Database

variable {z : Zone} {s t : Db} {a b c d : Date} {x : Timestamp} {createdAt : ℕ → Timestamp} {council consultant actor : ℕ}

namespace Zone

theorem midnight_succ : z.midnight (a + 1) = z.midnight a + dayLength := by
  simp [midnight]
  ring

theorem midnight_strictMono : StrictMono z.midnight := by
  refine strictMono_nat_of_lt_succ fun n => ?_
  rw [midnight_succ]
  exact lt_add_of_pos_right _ (by decide)

theorem midnight_le_iff : z.midnight a ≤ z.midnight b ↔ a ≤ b :=
  midnight_strictMono.le_iff_le

-- Every time from year 1 on is on a day.
theorem exists_day (hx : z.midnight 1 ≤ x) : ∃ d, 1 ≤ d ∧ z.midnight d ≤ x ∧ x < z.midnight (d + 1) := by
  have hpos : (0 : ℤ) ≤ x + z.utcOffset := by
    have : z.midnight 1 = -z.utcOffset := by simp [midnight]
    rw [this] at hx
    linarith
  have hcast : ((((x + z.utcOffset) / dayLength).toNat : ℕ) : ℤ) = (x + z.utcOffset) / dayLength :=
    Int.toNat_of_nonneg <| Int.ediv_nonneg hpos (by decide)
  have hle := Int.mul_ediv_self_le (x := x + z.utcOffset) (k := dayLength) (by decide)
  have hlt := Int.lt_mul_ediv_self_add (x := x + z.utcOffset) (k := dayLength) (by decide)
  refine ⟨((x + z.utcOffset) / dayLength).toNat + 1, Nat.le_add_left .., ?_, ?_⟩
  · rw [midnight, Nat.cast_succ, hcast]
    linarith
  · rw [midnight_succ, midnight, Nat.cast_succ, hcast]
    linarith

theorem dateSpanBounds_eq (h : a < Date.max) : z.dateSpanBounds a = .ok (z.midnight a, z.midnight (a + 1)) :=
  if_pos h

theorem window_eq (ha : a < Date.max) (hb : b < Date.max) : z.window a b = .ok (z.midnight a, z.midnight (b + 1)) := by
  rw [window, dateSpanBounds_eq ha, dateSpanBounds_eq hb]
  rfl

theorem lt_of_window {w : Timestamp × Timestamp} (h : z.window a b = .ok w) : b < Date.max := by
  by_contra hb
  rw [window, dateSpanBounds, dateSpanBounds, if_neg hb] at h
  split at h <;> contradiction

-- The time is on the day.
def InDay (z : Zone) (x : Timestamp) (day : Date) : Prop :=
  1 ≤ day ∧ ∃ w, z.dateSpanBounds day = .ok w ∧ x ∈ Set.Ico w.1 w.2

-- The payments have been made on their days.
def Dated (z : Zone) (s : Db) (createdAt : ℕ → Timestamp) : Prop :=
  ∀ ⦃k p⦄, (s.table .payment).get k = some p →
    createdAt k ∈ Set.Ico (z.midnight p.createdAt) (z.midnight (p.createdAt + 1))

theorem InDay.mem (h : z.InDay x a) : x ∈ Set.Ico (z.midnight a) (z.midnight (a + 1)) := by
  obtain ⟨_, w, hw, hx⟩ := h
  rw [dateSpanBounds] at hw
  split at hw
  case isTrue =>
    obtain rfl := Except.ok.inj hw
    exact hx
  case isFalse => contradiction

theorem InDay.unique (ha : z.InDay x a) (hb : z.InDay x b) : a = b := by
  obtain ⟨ha, hxa⟩ := ha.mem
  obtain ⟨hb, hxb⟩ := hb.mem
  exact le_antisymm (Nat.lt_succ_iff.mp <| midnight_strictMono.lt_iff_lt.mp <| ha.trans_lt hxb)
    (Nat.lt_succ_iff.mp <| midnight_strictMono.lt_iff_lt.mp <| hb.trans_lt hxa)

-- A time from year 1 on is on one day, unless it is on the last day there is, or later.
theorem existsUnique_day (hx : z.midnight 1 ≤ x) : (∃! day, z.InDay x day) ↔ x < z.midnight Date.max := by
  constructor
  case mp =>
    rintro ⟨day, ⟨_, w, hw, hmem⟩, _⟩
    rw [dateSpanBounds] at hw
    split at hw
    case isFalse => contradiction
    case isTrue hday =>
      obtain rfl := Except.ok.inj hw
      exact lt_of_lt_of_le hmem.2 <| midnight_le_iff.mpr hday
  case mpr =>
    intro hmax
    obtain ⟨d, hd, hle, hlt⟩ := exists_day hx
    have hday : d < Date.max := midnight_strictMono.lt_iff_lt.mp <| lt_of_le_of_lt hle hmax
    exact ⟨d, ⟨hd, _, dateSpanBounds_eq hday, hle, hlt⟩, fun d' h => h.unique ⟨hd, _, dateSpanBounds_eq hday, hle, hlt⟩⟩

-- By days or by times, a settlement counts the same payments.
theorem gross_eq (hdated : z.Dated s createdAt) (ha : a < Date.max) (hb : b < Date.max) :
    z.gross s createdAt council consultant a b = .ok (grossCollections s council consultant a (b + 1)) := by
  rw [gross, window_eq ha hb, grossCollections]
  refine congrArg Except.ok <| Table.sum_congr fun k p hp => ?_
  obtain ⟨hle, hlt⟩ := hdated hp
  have hstart : z.midnight a ≤ createdAt k ↔ a ≤ p.createdAt := by
    refine ⟨fun h => ?_, fun h => (midnight_le_iff.mpr h).trans hle⟩
    exact Nat.lt_succ_iff.mp <| midnight_strictMono.lt_iff_lt.mp <| h.trans_lt hlt
  have hend : createdAt k < z.midnight (b + 1) ↔ p.createdAt < b + 1 := by
    refine ⟨fun h => midnight_strictMono.lt_iff_lt.mp <| hle.trans_lt h, fun h => ?_⟩
    exact hlt.trans_le <| midnight_le_iff.mpr h
  simp only [counts, decide_eq_decide.mpr hstart, decide_eq_decide.mpr hend]
  rfl

-- A payment of both parts of a period is counted in one of them.
theorem gross_add (s : Db) (createdAt : ℕ → Timestamp) (council consultant : ℕ) (hab : a ≤ b) (hbc : b < c) (hc : c < Date.max) : ∃ g₁ g₂ : ℤ,
    z.gross s createdAt council consultant a b = .ok g₁ ∧ z.gross s createdAt council consultant (b + 1) c = .ok g₂ ∧
      z.gross s createdAt council consultant a c = .ok (g₁ + g₂) := by
  have hb : b < Date.max := hbc.trans hc
  have ha : a < Date.max := hab.trans_lt hb
  have hb' : b + 1 < Date.max := (Nat.succ_le_of_lt hbc).trans_lt hc
  simp only [gross, window_eq ha hb, window_eq hb' hc, window_eq ha hc]
  refine ⟨_, _, rfl, rfl, congrArg Except.ok ?_⟩
  rw [← Table.sum_add]
  refine Table.sum_congr fun k p _ => ?_
  have hleft : z.midnight a ≤ z.midnight (b + 1) := midnight_le_iff.mpr <| hab.trans b.le_succ
  have hright : z.midnight (b + 1) ≤ z.midnight (c + 1) := midnight_le_iff.mpr <| Nat.succ_le_succ hbc.le
  rcases lt_or_ge (createdAt k) (z.midnight (b + 1)) with h | h
  · have hlast : createdAt k < z.midnight (c + 1) := h.trans_le hright
    simp [h, hlast, h.not_ge]
  · have hfirst : z.midnight a ≤ createdAt k := hleft.trans h
    simp [h, hfirst, h.not_gt]

end Zone

-- The windows of two periods, one after the other, and of both together, and what they count.
structure Tiles (z : Zone) (a b c : Date) : Prop where
  windows : ∃ w₁ w₂ w, z.window a b = .ok w₁ ∧ z.window (b + 1) c = .ok w₂ ∧ z.window a c = .ok w ∧
    Disjoint (Set.Ico w₁.1 w₁.2) (Set.Ico w₂.1 w₂.2) ∧ Set.Ico w₁.1 w₁.2 ∪ Set.Ico w₂.1 w₂.2 = Set.Ico w.1 w.2
  gross   : ∀ (s : Db) (createdAt : ℕ → Timestamp) (council consultant : ℕ), ∃ g₁ g₂ : ℤ,
    z.gross s createdAt council consultant a b = .ok g₁ ∧ z.gross s createdAt council consultant (b + 1) c = .ok g₂ ∧
      z.gross s createdAt council consultant a c = .ok (g₁ + g₂)
  settled : ∀ {s t₁ t₂ t₃ : Db} {createdAt council actor r₁ r₂ r₃ n₀ n₁ n₂ n₃}, z.Dated s createdAt →
    (computeSettlements council a b actor).call s n₀ = (.ok r₁, t₁, n₁) →
    (computeSettlements council (b + 1) c actor).call t₁ n₁ = (.ok r₂, t₂, n₂) →
    (computeSettlements council a c actor).call t₂ n₂ = (.ok r₃, t₃, n₃) →
    ∀ k₁ ∈ r₁, ∀ k₂ ∈ r₂, ∀ k₃ ∈ r₃, ∀ row₁ row₂ row₃, (t₁.table .settlement).get k₁ = some row₁ →
      (t₂.table .settlement).get k₂ = some row₂ → (t₃.table .settlement).get k₃ = some row₃ →
      row₁.consultant = row₃.consultant → row₂.consultant = row₃.consultant →
      z.gross s createdAt council row₃.consultant a c = .ok row₃.grossCollections.units ∧
        row₃.grossCollections.units = row₁.grossCollections.units + row₂.grossCollections.units

theorem settled_gross (hdated : z.Dated s createdAt) {s' : Db} (hs : Database.Only [Name.settlement] s s')
    {results : List ℕ} (h : Settled s' council a b results t) {k : ℕ} (hk : k ∈ results) {row : CommissionSettlement}
    (hrow : (t.table .settlement).get k = some row) :
    z.gross s createdAt council row.consultant a b = .ok row.grossCollections.units := by
  obtain ⟨row', hrow', hcomputed, _⟩ := h.computed k hk
  obtain rfl := Option.some.inj <| hrow.symm.trans hrow'
  rw [Zone.gross_eq hdated hcomputed.dated.1 hcomputed.dated.2, hcomputed.gross, grossCollections_congr hs]

theorem tiles_iff (hab : a ≤ b) (hbc : b < c) : Tiles z a b c ↔ c < Date.max := by
  constructor
  case mp =>
    intro h
    obtain ⟨_, _, w, _, _, hw, _⟩ := h.windows
    exact Zone.lt_of_window hw
  case mpr =>
    intro hc
    have hb : b < Date.max := hbc.trans hc
    have ha : a < Date.max := hab.trans_lt hb
    have hb' : b + 1 < Date.max := (Nat.succ_le_of_lt hbc).trans_lt hc
    constructor
    case windows =>
      refine ⟨_, _, _, Zone.window_eq ha hb, Zone.window_eq hb' hc, Zone.window_eq ha hc, ?_, ?_⟩
      · exact Set.Ico_disjoint_Ico_same
      · refine Set.Ico_union_Ico_eq_Ico ?_ ?_
        · exact Zone.midnight_le_iff.mpr <| hab.trans b.le_succ
        · exact Zone.midnight_le_iff.mpr <| Nat.succ_le_succ hbc.le
    case gross => exact fun s createdAt council consultant => Zone.gross_add s createdAt council consultant hab hbc hc
    case settled =>
      intro s t₁ t₂ t₃ createdAt council actor r₁ r₂ r₃ n₀ n₁ n₂ n₃ hdated hcall₁ hcall₂ hcall₃
        k₁ hk₁ k₂ hk₂ k₃ hk₃ row₁ row₂ row₃ hrow₁ hrow₂ hrow₃ hc₁ hc₂
      have h₁ := (Prog.call_ok post_computeSettlements hcall₁).1
      have h₂ := (Prog.call_ok post_computeSettlements hcall₂).1
      have h₃ := (Prog.call_ok post_computeSettlements hcall₃).1
      have hg₁ := settled_gross hdated (Std.Refl.refl _) h₁ hk₁ hrow₁
      have hg₂ := settled_gross hdated h₁.only h₂ hk₂ hrow₂
      have hg₃ := settled_gross hdated (IsTrans.trans _ _ _ h₁.only h₂.only) h₃ hk₃ hrow₃
      refine ⟨hg₃, ?_⟩
      rw [hc₁] at hg₁
      rw [hc₂] at hg₂
      obtain ⟨g₁, g₂, he₁, he₂, he₃⟩ := Zone.gross_add (z := z) s createdAt council row₃.consultant hab hbc hc
      rw [Except.ok.inj (hg₁.symm.trans he₁), Except.ok.inj (hg₂.symm.trans he₂), Except.ok.inj (hg₃.symm.trans he₃)]

-- The windows tile time, but for the last day there is, which has no window.
theorem periods_tile (hab : a ≤ b) (hbc : b < c) : (Tiles z a b c ↔ c < Date.max) ∧
    ∀ x, z.midnight 1 ≤ x → ((∃! day, z.InDay x day) ↔ x < z.midnight Date.max) :=
  ⟨tiles_iff hab hbc, fun _ => Zone.existsUnique_day⟩

def Sample.lagos : Zone where
  utcOffset := 3600000000

theorem sample_tile : (Tiles Sample.lagos 736330 736331 736336 ↔ 736336 < Date.max) ∧
    ∀ x, Sample.lagos.midnight 1 ≤ x →
      ((∃! day, Sample.lagos.InDay x day) ↔ x < Sample.lagos.midnight Date.max) :=
  periods_tile (by decide) (by decide)

-- The two last days there are have no common window.
theorem last_day_not_tiled : ¬∀ (z : Zone) (a b c : Date), 1 ≤ a → a ≤ b → b < c → c ≤ Date.max →
    Tiles z a b c ∧ ∀ x, z.midnight 1 ≤ x → x < z.midnight (Date.max + 1) → ∃! day, z.InDay x day := by
  intro h
  have htiles := (h Sample.lagos 3652058 3652058 3652059 (by decide) le_rfl (by decide) le_rfl).1
  obtain ⟨_, _, _, _, _, hw, _⟩ := htiles.windows
  exact absurd (Zone.lt_of_window hw) (by decide)

end ACRev360
