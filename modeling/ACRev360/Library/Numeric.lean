import Mathlib.Data.Rat.Floor
import Mathlib.Data.Int.Log
import Mathlib.Tactic.FieldSimp
import Mathlib.Tactic.Linarith
import Mathlib.Tactic.Positivity
import Mathlib.Tactic.Ring

-- The number of units nearest to `q`, halves going away from zero.
def roundHalfAway (q : ℚ) : ℤ :=
  if 0 ≤ q then ⌊q + 1 / 2⌋ else -⌊-q + 1 / 2⌋

-- The number of units nearest to `q`, halves going to the even neighbour.
def roundHalfEven (q : ℚ) : ℤ :=
  if q - ⌊q⌋ < 1 / 2 then ⌊q⌋
  else if 1 / 2 < q - ⌊q⌋ then ⌊q⌋ + 1
  else if ⌊q⌋ % 2 = 0 then ⌊q⌋ else ⌊q⌋ + 1

theorem floor_add_half (z : ℤ) : ⌊(z : ℚ) + 1 / 2⌋ = z := by
  rw [Int.floor_intCast_add]
  norm_num

@[simp]
theorem roundHalfAway_intCast (z : ℤ) : roundHalfAway z = z := by
  unfold roundHalfAway
  split
  · exact floor_add_half z
  · have := floor_add_half (-z)
    push_cast at this
    omega

@[simp]
theorem roundHalfEven_intCast (z : ℤ) : roundHalfEven z = z := by
  simp [roundHalfEven]

theorem roundHalfEven_nonneg {q : ℚ} (h : 0 ≤ q) : 0 ≤ roundHalfEven q := by
  have := Int.floor_nonneg.mpr h
  unfold roundHalfEven
  split
  · exact this
  · split
    · omega
    · split <;> omega

theorem floor_le_roundHalfEven (q : ℚ) : ⌊q⌋ ≤ roundHalfEven q := by
  unfold roundHalfEven
  split
  · exact le_rfl
  · split
    · omega
    · split <;> omega

theorem roundHalfEven_le_floor (q : ℚ) : roundHalfEven q ≤ ⌊q⌋ + 1 := by
  unfold roundHalfEven
  split
  · omega
  · split
    · exact le_rfl
    · split <;> omega

theorem roundHalfEven_mono {q r : ℚ} (h : q ≤ r) : roundHalfEven q ≤ roundHalfEven r := by
  have hq := roundHalfEven_le_floor q
  have hr := floor_le_roundHalfEven r
  rcases (Int.floor_le_floor h).lt_or_eq with hlt | heq
  · omega
  · -- Between the same two numbers, `r` is not rounded down where `q` is rounded up.
    rcases lt_trichotomy (q - ⌊q⌋) (1 / 2) with hhalf | hhalf | hhalf
    · rw [roundHalfEven, if_pos hhalf, heq]
      exact hr
    · rcases h.lt_or_eq with hlt | rfl
      · have hup : 1 / 2 < r - ⌊r⌋ := by rw [← heq]; linarith
        rw [show roundHalfEven r = ⌊r⌋ + 1 by rw [roundHalfEven, if_neg hup.not_gt, if_pos hup]]
        omega
      · exact le_rfl
    · have hup : 1 / 2 < r - ⌊r⌋ := by rw [← heq]; linarith
      rw [show roundHalfEven r = ⌊r⌋ + 1 by rw [roundHalfEven, if_neg hup.not_gt, if_pos hup]]
      omega

theorem abs_roundHalfEven_sub_le (q : ℚ) : |roundHalfEven q - q| ≤ 1 / 2 := by
  have hle := Int.floor_le q
  have hlt := Int.lt_floor_add_one q
  rw [abs_le]
  unfold roundHalfEven
  split
  case isTrue h => constructor <;> linarith
  case isFalse h =>
    split
    case isTrue h' => push_cast; constructor <;> linarith
    case isFalse h' => split <;> push_cast <;> constructor <;> linarith

theorem roundHalfAway_nonneg {q : ℚ} (h : 0 ≤ q) : 0 ≤ roundHalfAway q := by
  rw [roundHalfAway, if_pos h]
  apply Int.floor_nonneg.mpr
  positivity

theorem roundHalfAway_le {q r : ℚ} (h : 0 ≤ q) (hle : q ≤ r) : roundHalfAway q ≤ roundHalfAway r := by
  rw [roundHalfAway, roundHalfAway, if_pos h, if_pos (h.trans hle)]
  exact Int.floor_le_floor (by linarith)

-- Away from zero, rounding commutes with adding whole units of the same sign.
theorem roundHalfAway_add {z : ℤ} {q : ℚ} (hz : 0 ≤ z) (hq : 0 ≤ q) :
    roundHalfAway (z + q) = z + roundHalfAway q := by
  have hz' : (0 : ℚ) ≤ z := by exact_mod_cast hz
  rw [roundHalfAway, roundHalfAway, if_pos hq, if_pos (by positivity), add_assoc]
  exact Int.floor_intCast_add z _

-- A column of type NUMERIC(p, s): an integral number of units of size 10^-s, of at most p digits.
structure Numeric (p s : ℕ) where
  units : ℤ
  bound : units.natAbs < 10 ^ p
deriving DecidableEq

namespace Numeric

variable {p s : ℕ}

instance : Zero (Numeric p s) where
  zero := ⟨0, by positivity⟩

instance : Inhabited (Numeric p s) where
  default := 0

def toRat (n : Numeric p s) : ℚ :=
  n.units / 10 ^ s

-- What a column of the type holds after `q` is written to it. A value with too many digits before
-- the point is refused.
def ofRat? (q : ℚ) : Option (Numeric p s) :=
  let z := roundHalfAway (q * 10 ^ s)
  if h : z.natAbs < 10 ^ p then some ⟨z, h⟩ else none

@[ext]
theorem ext {m n : Numeric p s} (h : m.units = n.units) : m = n := by
  cases m; cases n; simp_all

@[simp]
theorem zero_units : (0 : Numeric p s).units = 0 :=
  rfl

theorem toRat_mul (n : Numeric p s) : n.toRat * 10 ^ s = n.units := by
  rw [toRat]
  field_simp

theorem ofRat?_units {q : ℚ} {n : Numeric p s} (h : ofRat? q = some n) :
    n.units = roundHalfAway (q * 10 ^ s) := by
  unfold ofRat? at h
  simp only at h
  split at h
  · exact (congrArg units (Option.some.inj h)).symm
  · contradiction

@[simp]
theorem ofRat?_toRat (n : Numeric p s) : ofRat? n.toRat = some n := by
  simp [ofRat?, toRat_mul, n.bound]

theorem toRat_lt_iff {m n : Numeric p s} : m.toRat < n.toRat ↔ m.units < n.units := by
  rw [toRat, toRat, div_lt_div_iff_of_pos_right (by positivity)]
  exact_mod_cast Iff.rfl

theorem toRat_le_iff {m n : Numeric p s} : m.toRat ≤ n.toRat ↔ m.units ≤ n.units := by
  rw [toRat, toRat, div_le_div_iff_of_pos_right (by positivity)]
  exact_mod_cast Iff.rfl

theorem toRat_nonneg_iff {n : Numeric p s} : 0 ≤ n.toRat ↔ 0 ≤ n.units := by
  rw [toRat, le_div_iff₀ (by positivity), zero_mul]
  exact_mod_cast Iff.rfl

end Numeric

namespace Decimal

-- The significant digits that decimal arithmetic keeps.
def precision : ℕ :=
  28

-- The result of an arithmetic operation whose exact value is `q`.
def round (q : ℚ) : ℚ :=
  let e := Int.log 10 |q| - (precision - 1)
  roundHalfEven (q / 10 ^ e) * 10 ^ e

theorem round_nonneg {q : ℚ} (h : 0 ≤ q) : 0 ≤ round q := by
  simp only [round]
  generalize Int.log 10 |q| - (precision - 1) = e
  have he : (0 : ℚ) ≤ 10 ^ e := zpow_nonneg (by norm_num) e
  exact mul_nonneg (by exact_mod_cast roundHalfEven_nonneg (div_nonneg h he)) he

theorem round_zero : round 0 = 0 := by
  have : roundHalfEven 0 = 0 := by exact_mod_cast roundHalfEven_intCast 0
  simp [round, this]

-- Rounding stays within the power of ten below a number and the one above it.
theorem zpow_log_le_round {q : ℚ} (h : 0 < q) : 10 ^ Int.log 10 q ≤ round q := by
  have hlog := Int.zpow_log_le_self (by norm_num : 1 < 10) h
  simp only [round, abs_of_pos h]
  have he : (0 : ℚ) < 10 ^ (Int.log 10 q - (precision - 1)) := zpow_pos (by norm_num) _
  have hpow : (10 : ℚ) ^ Int.log 10 q = ((10 ^ 27 : ℤ) : ℚ) * 10 ^ (Int.log 10 q - (precision - 1)) := by
    rw [zpow_sub₀ (by norm_num), precision]
    push_cast
    field_simp
  have hle : ((10 ^ 27 : ℤ) : ℚ) ≤ q / 10 ^ (Int.log 10 q - (precision - 1)) := by
    rw [le_div_iff₀ he, ← hpow]
    exact_mod_cast hlog
  have := roundHalfEven_mono hle
  rw [roundHalfEven_intCast] at this
  rw [hpow]
  exact mul_le_mul_of_nonneg_right (by exact_mod_cast this) he.le

theorem round_le_zpow_log {q : ℚ} (h : 0 < q) : round q ≤ 10 ^ (Int.log 10 q + 1) := by
  have hlog := Int.lt_zpow_succ_log_self (by norm_num : 1 < 10) q
  simp only [round, abs_of_pos h]
  have he : (0 : ℚ) < 10 ^ (Int.log 10 q - (precision - 1)) := zpow_pos (by norm_num) _
  have hpow : (10 : ℚ) ^ (Int.log 10 q + 1) = ((10 ^ 28 : ℤ) : ℚ) * 10 ^ (Int.log 10 q - (precision - 1)) := by
    rw [zpow_sub₀ (by norm_num), zpow_add₀ (by norm_num), precision]
    push_cast
    field_simp
    norm_num
  have hle : q / 10 ^ (Int.log 10 q - (precision - 1)) ≤ ((10 ^ 28 : ℤ) : ℚ) := by
    rw [div_le_iff₀ he, ← hpow]
    exact_mod_cast hlog.le
  have := roundHalfEven_mono hle
  rw [roundHalfEven_intCast] at this
  rw [hpow]
  exact mul_le_mul_of_nonneg_right (by exact_mod_cast this) he.le

theorem round_mono {q r : ℚ} (h : 0 ≤ q) (hle : q ≤ r) : round q ≤ round r := by
  rcases h.eq_or_lt with rfl | h
  · exact (round_zero.trans_le <| round_nonneg hle)
  have hr := h.trans_le hle
  rcases (Int.log_mono_right (b := 10) h hle).lt_or_eq with hlt | heq
  · refine (round_le_zpow_log h).trans <| le_trans ?_ (zpow_log_le_round hr)
    exact zpow_le_zpow_right₀ (by norm_num) (by omega)
  · simp only [round, abs_of_pos h, abs_of_pos hr, heq]
    have he : (0 : ℚ) < 10 ^ (Int.log 10 r - (precision - 1)) := zpow_pos (by norm_num) _
    refine mul_le_mul_of_nonneg_right ?_ he.le
    exact_mod_cast roundHalfEven_mono (div_le_div_of_nonneg_right hle he.le)

-- What is a whole number of the last digit that is kept is not rounded.
theorem round_eq_of_digits {q : ℚ} {z : ℤ} (hz : q / 10 ^ (Int.log 10 |q| - (precision - 1)) = z) : round q = q := by
  simp only [round, hz, roundHalfEven_intCast]
  rw [← hz]
  exact div_mul_cancel₀ _ (zpow_ne_zero _ (by norm_num))

theorem round_round {q : ℚ} (h : 0 ≤ q) : round (round q) = round q := by
  rcases h.eq_or_lt with rfl | hpos
  · rw [round_zero, round_zero]
  have hlow := zpow_log_le_round hpos
  have hhigh := round_le_zpow_log hpos
  have hr : 0 < round q := lt_of_lt_of_le (zpow_pos (by norm_num) _) hlow
  rcases hhigh.eq_or_lt with heq | hlt
  case inl =>
    have hlog : Int.log 10 (round q) = Int.log 10 q + 1 := by
      rw [heq]
      exact_mod_cast Int.log_zpow (R := ℚ) (b := 10) (by norm_num) _
    refine round_eq_of_digits (z := 10 ^ 27) ?_
    rw [abs_of_pos hr, hlog, heq, ← zpow_sub₀ (by norm_num), precision]
    push_cast
    rw [show Int.log 10 q + 1 - (Int.log 10 q + 1 - 27) = (27 : ℕ) by ring]
    norm_num
  case inr =>
    have hlog : Int.log 10 (round q) = Int.log 10 q := by
      refine le_antisymm (Int.lt_add_one_iff.mp <| (Int.lt_zpow_iff_log_lt (by norm_num) hr).mp ?_) ?_
      · exact_mod_cast hlt
      · exact (Int.zpow_le_iff_le_log (by norm_num) hr).mp (by exact_mod_cast hlow)
    refine round_eq_of_digits (z := roundHalfEven (q / 10 ^ (Int.log 10 |q| - (precision - 1)))) ?_
    rw [abs_of_pos hr, hlog]
    simp only [round, abs_of_pos hpos]
    rw [mul_div_assoc, div_self (zpow_ne_zero _ (by norm_num)), mul_one]

-- The largest exponent of the default context, the smallest being its opposite.
def maxExponent : ℕ :=
  999999

-- The result of an arithmetic operation with the exponents of the context. One that is too large is trapped as
-- Overflow, one that is too small loses digits.
def inContext (q : ℚ) : Option ℚ :=
  if 10 ^ (maxExponent + 1) ≤ |round q| then none
  else if |q| < 10 ^ (-maxExponent : ℤ) then
    let e : ℤ := -(maxExponent + (precision - 1))
    some (roundHalfEven (q / 10 ^ e) * 10 ^ e)
  else some (round q)

theorem inContext_nonneg {q r : ℚ} (h : inContext q = some r) (hq : 0 ≤ q) : 0 ≤ r := by
  unfold inContext at h
  split at h
  case isTrue => contradiction
  case isFalse =>
    split at h
    case isFalse => exact Option.some.inj h ▸ round_nonneg hq
    case isTrue =>
      rw [← Option.some.inj h]
      have he : (0 : ℚ) < 10 ^ (-(maxExponent + (precision - 1)) : ℤ) := zpow_pos (by norm_num) _
      exact mul_nonneg (by exact_mod_cast roundHalfEven_nonneg <| div_nonneg hq he.le) he.le

-- `Decimal.quantize`, which refuses to write more digits than arithmetic keeps.
def quantize (places : ℕ) (q : ℚ) : Option ℚ :=
  let z := roundHalfEven (q * 10 ^ places)
  if z.natAbs < 10 ^ precision then some (z / 10 ^ places) else none

-- `q` is written with at most as many significant digits as arithmetic keeps, when it is written
-- with at least two decimals.
def Fits (q : ℚ) : Prop :=
  ∃ d m : ℕ, 2 ≤ d ∧ m < 10 ^ precision ∧ q = m / 10 ^ d

theorem Fits.nonneg {q : ℚ} : Fits q → 0 ≤ q := by
  rintro ⟨d, m, -, -, rfl⟩
  positivity

-- The last digit that is kept is not above the last digit of a number that fits.
theorem Fits.digits {q : ℚ} (h : Fits q) : ∃ z : ℤ, q / 10 ^ (Int.log 10 |q| - (precision - 1)) = z := by
  have ⟨d, m, _, hm, hq⟩ := h
  rcases Nat.eq_zero_or_pos m with rfl | hpos
  · exact ⟨0, by simp [hq]⟩
  have hq₀ : 0 < q := by rw [hq]; positivity
  simp only [abs_of_pos hq₀]
  have he : Int.log 10 q - (precision - 1) ≤ -(d : ℤ) := by
    by_contra hlt
    have hle : (10 : ℚ) ^ (precision - (d : ℤ)) ≤ q := by
      refine le_trans ?_ (Int.zpow_log_le_self (by norm_num : 1 < 10) hq₀)
      exact zpow_le_zpow_right₀ (by norm_num) (by omega)
    rw [zpow_sub₀ (by norm_num), zpow_natCast, zpow_natCast, hq,
      div_le_div_iff_of_pos_right (by positivity)] at hle
    have : 10 ^ precision ≤ m := by exact_mod_cast hle
    omega
  generalize Int.log 10 q - (precision - 1) = e at he
  have ⟨k, hk⟩ := Int.eq_ofNat_of_zero_le (show 0 ≤ -(d : ℤ) - e by omega)
  refine ⟨(m * 10 ^ k : ℕ), ?_⟩
  have : e = -(d : ℤ) - k := by omega
  rw [hq, this, zpow_sub₀ (by norm_num), zpow_neg, zpow_natCast, zpow_natCast]
  push_cast
  field_simp

theorem Fits.round_eq {q : ℚ} (h : Fits q) : round q = q :=
  have ⟨_, hz⟩ := h.digits
  round_eq_of_digits hz

theorem Fits.round_neg_eq {q : ℚ} (h : Fits q) : round (-q) = -q := by
  have ⟨z, hz⟩ := h.digits
  have hneg : -q / 10 ^ (Int.log 10 |q| - (precision - 1)) = (-z : ℤ) := by rw [neg_div, hz, Int.cast_neg]
  simp only [round, abs_neg, hneg, roundHalfEven_intCast]
  rw [← hneg]
  exact div_mul_cancel₀ _ (zpow_ne_zero _ (by norm_num))

-- A number with at most as many digits as arithmetic keeps is not rounded.
theorem round_of_digits {z : ℤ} {d : ℕ} (hd : 2 ≤ d) (hz : z.natAbs < 10 ^ precision) :
    round (z / 10 ^ d) = z / 10 ^ d := by
  have hfits : Fits (z.natAbs / 10 ^ d) := ⟨d, z.natAbs, hd, hz, rfl⟩
  rcases Int.natAbs_eq z with h | h
  · have hcast : (z : ℚ) = ((z.natAbs : ℤ) : ℚ) := congrArg Int.cast h
    rw [hcast, Int.cast_natCast]
    exact hfits.round_eq
  · have hcast : (z : ℚ) = ((-(z.natAbs : ℤ) : ℤ) : ℚ) := congrArg Int.cast h
    rw [hcast, Int.cast_neg, Int.cast_natCast, neg_div]
    exact hfits.round_neg_eq

-- Whole hundredths up to a number that fits have its decimals.
theorem Fits.hundredths {q : ℚ} {z : ℤ} (h : Fits q) (hz : 0 ≤ z) (hle : z / 100 ≤ q) :
    ∃ d m n : ℕ, 2 ≤ d ∧ m < 10 ^ precision ∧ n ≤ m ∧ q = m / 10 ^ d ∧ (z : ℚ) / 100 = n / 10 ^ d := by
  have ⟨d, m, hd, hm, hq⟩ := h
  have ⟨k, hk⟩ := Int.eq_ofNat_of_zero_le hz
  have hpow : (10 : ℚ) ^ d = 10 ^ (d - 2) * 100 := by
    rw [show (100 : ℚ) = 10 ^ 2 by norm_num, ← pow_add]
    congr 1
    omega
  have hz' : (z : ℚ) / 100 = (k * 10 ^ (d - 2) : ℕ) / 10 ^ d := by
    rw [hk, hpow]
    push_cast
    field_simp
  refine ⟨d, m, k * 10 ^ (d - 2), hd, hm, ?_, hq, hz'⟩
  rw [hz', hq, div_le_div_iff_of_pos_right (by positivity)] at hle
  exact_mod_cast hle

theorem Fits.of_le {q : ℚ} {z : ℤ} (h : Fits q) (hz : 0 ≤ z) (hle : z / 100 ≤ q) :
    Fits (z / 100) := by
  have ⟨d, m, n, hd, hm, hn, _, hz'⟩ := h.hundredths hz hle
  exact ⟨d, n, hd, by omega, hz'⟩

-- Taking whole hundredths off leaves a number that fits.
theorem Fits.sub {q : ℚ} {z : ℤ} (h : Fits q) (hz : 0 ≤ z) (hle : z / 100 ≤ q) :
    Fits (q - z / 100) := by
  have ⟨d, m, n, hd, hm, hn, hq, hz'⟩ := h.hundredths hz hle
  refine ⟨d, m - n, hd, by omega, ?_⟩
  rw [hq, hz', Nat.cast_sub hn, sub_div]

-- Amounts below 10^12 with at most sixteen decimals fit.
theorem fits_of_decimals {q : ℚ} {m : ℕ} (hq : q = m / 10 ^ 16) (h : q < 10 ^ 12) : Fits q := by
  refine ⟨16, m, by norm_num, ?_, hq⟩
  rw [hq, div_lt_iff₀ (by positivity)] at h
  have : (m : ℚ) < 10 ^ precision := by
    rw [precision]
    calc (m : ℚ) < 10 ^ 12 * 10 ^ 16 := h
      _ = 10 ^ 28 := by norm_num
  exact_mod_cast this

end Decimal
