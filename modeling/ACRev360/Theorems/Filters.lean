import Mathlib.Tactic.IntervalCases
import ACRev360.Theorems.Periods

namespace ACRev360

variable {p q digits digits' : List Char} {n year month day week : ℕ} {d : Date} {usesSeparator : Bool}

section Digits

theorem valueOf_concat {c : Char} : valueOf (digits ++ [c]) = 10 * valueOf digits + digitOf c := by
  simp [valueOf]

theorem digitOf_lt {c : Char} (h : c.isDigit) : digitOf c < 10 := by
  have hc : 0x30 ≤ c.toNat ∧ c.toNat ≤ 0x39 := Char.isDigit_iff_toNat.mp h
  rw [digitOf]
  omega

theorem digitOf_inj {c c' : Char} (h : c.isDigit) (h' : c'.isDigit) (he : digitOf c = digitOf c') : c = c' := by
  have hc : 0x30 ≤ c.toNat ∧ c.toNat ≤ 0x39 := Char.isDigit_iff_toNat.mp h
  have hc' : 0x30 ≤ c'.toNat ∧ c'.toNat ≤ 0x39 := Char.isDigit_iff_toNat.mp h'
  rw [digitOf, digitOf] at he
  exact Char.toNat_inj.mp (by omega)

-- Numbers of the same length have the same digits if they are the same.
theorem valueOf_inj (h : ∀ c ∈ digits, c.isDigit) (h' : ∀ c ∈ digits', c.isDigit)
    (hlen : digits.length = digits'.length) (he : valueOf digits = valueOf digits') : digits = digits' := by
  induction digits using List.reverseRecOn generalizing digits' with
  | nil => exact (List.length_eq_zero_iff.mp hlen.symm).symm
  | append_singleton digits c hi =>
    obtain ⟨digits', c', rfl⟩ : ∃ l c', digits' = l ++ [c'] := by
      rcases List.eq_nil_or_concat digits' with rfl | ⟨l, c', hl⟩
      · simp at hlen
      · exact ⟨l, c', hl.trans List.concat_eq_append⟩
    rw [List.forall_mem_append] at h h'
    have hc := h.2 c (.head _)
    have hc' := h'.2 c' (.head _)
    rw [valueOf_concat, valueOf_concat] at he
    have := digitOf_lt hc
    have := digitOf_lt hc'
    rw [digitOf_inj hc hc' (by omega), hi h.1 h'.1 (by simpa using hlen) (by omega)]

theorem parseDigits_some {v : ℕ} : parseDigits n p = some (v, q) ↔
    ∃ digits, digits.length = n ∧ (∀ c ∈ digits, c.isDigit) ∧ p = digits ++ q ∧ v = valueOf digits := by
  rw [parseDigits]
  constructor
  · intro h
    split at h
    case isTrue hdigits =>
      obtain ⟨rfl, rfl⟩ := Prod.ext_iff.mp <| Option.some.inj h
      exact ⟨p.take n, hdigits.1, List.all_eq_true.mp hdigits.2, (List.take_append_drop n p).symm, rfl⟩
    case isFalse => contradiction
  · rintro ⟨digits, rfl, hdigits, rfl, rfl⟩
    rw [List.take_left, List.drop_left, if_pos ⟨rfl, List.all_eq_true.mpr hdigits⟩]

end Digits

section Dates

theorem dayOfYear_le (hm : 1 ≤ month) (hm' : month ≤ 12) (hd : day ≤ daysInMonth year month) :
    daysBeforeMonth year month + day ≤ 366 := by
  rw [daysInMonth, monthLengths] at hd
  rw [daysBeforeMonth, monthLengths]
  cases hleap : isLeap year <;> rw [hleap] at hd <;> interval_cases month <;> simp at hd ⊢ <;> omega

theorem daysBeforeYear_lt (h : year < 9999) : daysBeforeYear year + 380 ≤ 3652059 := by
  rw [daysBeforeYear]
  omega

-- The year 9999 has no 29th of February.
theorem dayOfYear_last (hm : 1 ≤ month) (hm' : month ≤ 12) (hd : 1 ≤ day) (hd' : day ≤ daysInMonth 9999 month) :
    daysBeforeMonth 9999 month + day ≤ 365 ∧
      (daysBeforeMonth 9999 month + day = 365 ↔ month = 12 ∧ day = 31) := by
  have hleap : isLeap 9999 = false := by decide
  rw [daysInMonth, monthLengths, hleap] at hd'
  rw [daysBeforeMonth, monthLengths, hleap]
  interval_cases month <;> simp at hd' ⊢ <;> omega

theorem ymd_le (h : ymd year month day = some d) : d ≤ Date.max ∧
    (d = Date.max ↔ year = 9999 ∧ month = 12 ∧ day = 31) := by
  rw [ymd] at h
  split at h
  case isFalse => contradiction
  case isTrue hvalid =>
    simp only [Bool.and_eq_true, decide_eq_true_eq] at hvalid
    obtain ⟨⟨⟨⟨⟨hy, hy'⟩, hm⟩, hm'⟩, hd⟩, hd'⟩ := hvalid
    obtain rfl := Option.some.inj h
    show (daysBeforeYear year + daysBeforeMonth year month + day : ℕ) ≤ (3652059 : ℕ) ∧
      ((daysBeforeYear year + daysBeforeMonth year month + day : ℕ) = (3652059 : ℕ) ↔ _)
    have hday := dayOfYear_le hm hm' hd'
    rcases Nat.lt_or_eq_of_le hy' with hlt | rfl
    · have := daysBeforeYear_lt hlt
      omega
    · have := dayOfYear_last hm hm' hd hd'
      have hyear : daysBeforeYear 9999 = 3651694 := rfl
      omega

theorem isoToYmd_le (h : isoToYmd year week day = some d) : d ≤ Date.max ∧
    (d = Date.max ↔ year = 9999 ∧ week = 52 ∧ day = 5) := by
  unfold isoToYmd at h
  extract_lets firstWeekday last monday at h
  have hlast : last ≤ 53 := by
    simp only [last]
    split <;> omega
  split at h
  case isFalse => contradiction
  case isTrue hvalid =>
    simp only [Bool.and_eq_true, decide_eq_true_eq] at hvalid
    obtain ⟨⟨⟨⟨⟨⟨hy, hy'⟩, hw⟩, hw'⟩, hd⟩, hd'⟩, hle⟩ := hvalid
    obtain rfl := Option.some.inj h
    refine ⟨hle, ?_⟩
    show (isoWeek1Monday year + (week - 1) * 7 + (day - 1) : ℕ) = (3652059 : ℕ) ↔ _
    rcases Nat.lt_or_eq_of_le hy' with hlt | rfl
    · have hyear := daysBeforeYear_lt hlt
      have hmonday : isoWeek1Monday year ≤ daysBeforeYear year + 8 := by
        have hfirst : ymdToOrd year 1 1 = daysBeforeYear year + 1 := rfl
        rw [isoWeek1Monday, hfirst]
        split <;> omega
      omega
    · have hmonday : isoWeek1Monday 9999 = 3651698 := by decide
      omega

theorem valueOf_eq_iff (h : ∀ c ∈ digits, c.isDigit) (h' : ∀ c ∈ digits', c.isDigit)
    (hlen : digits.length = digits'.length) : valueOf digits = valueOf digits' ↔ digits = digits' :=
  ⟨valueOf_inj h h' hlen, congrArg _⟩

def dash (usesSeparator : Bool) : List Char :=
  if usesSeparator then ['-'] else []

theorem parseSeparator_some : parseSeparator usesSeparator p = some q ↔ p = dash usesSeparator ++ q := by
  cases usesSeparator with
  | false =>
    rw [parseSeparator.eq_def]
    split <;> simp [dash]
  | true =>
    rw [parseSeparator.eq_def]
    split
    · simp [dash]
    · refine iff_of_false (by simp) fun h => ?_
      simp_all [dash]

-- The texts of the last day there is.
def lastForms : List String :=
  ["9999-12-31", "9999-W52-5", "99991231", "9999W525"]

theorem week_last {y w n r : List Char} (hy : ∀ c ∈ y, c.isDigit) (hw : ∀ c ∈ w, c.isDigit) (hn : ∀ c ∈ n, c.isDigit)
    (hy' : y.length = 4) (hw' : w.length = 2) (hn' : n.length = 1) :
    (valueOf y = 9999 ∧ valueOf w = 52 ∧ valueOf n = 5) ↔ ∃ form ∈ lastForms,
      form.toList <+: y ++ (dash usesSeparator ++ 'W' :: (w ++ (dash usesSeparator ++ (n ++ r)))) := by
  have hyear := @valueOf_eq_iff y "9999".toList hy (List.all_eq_true.mp rfl) hy'
  have hweek := @valueOf_eq_iff w "52".toList hw (List.all_eq_true.mp rfl) hw'
  have hday := @valueOf_eq_iff n "5".toList hn (List.all_eq_true.mp rfl) hn'
  rw [show valueOf "9999".toList = 9999 from rfl] at hyear
  rw [show valueOf "52".toList = 52 from rfl] at hweek
  rw [show valueOf "5".toList = 5 from rfl] at hday
  rw [hyear, hweek, hday]
  obtain ⟨y₁, y₂, y₃, y₄, rfl⟩ := List.length_eq_four.mp hy'
  obtain ⟨w₁, w₂, rfl⟩ := List.length_eq_two.mp hw'
  obtain ⟨n₁, rfl⟩ := List.length_eq_one_iff.mp hn'
  cases usesSeparator <;> simp [lastForms, dash, List.cons_prefix_cons] <;> grind

theorem month_last {y m n r : List Char} (hy : ∀ c ∈ y, c.isDigit) (hm : ∀ c ∈ m, c.isDigit) (hn : ∀ c ∈ n, c.isDigit)
    (hy' : y.length = 4) (hm' : m.length = 2) (hn' : n.length = 2) :
    (valueOf y = 9999 ∧ valueOf m = 12 ∧ valueOf n = 31) ↔ ∃ form ∈ lastForms,
      form.toList <+: y ++ (dash usesSeparator ++ (m ++ (dash usesSeparator ++ (n ++ r)))) := by
  have hyear := @valueOf_eq_iff y "9999".toList hy (List.all_eq_true.mp rfl) hy'
  have hmonth := @valueOf_eq_iff m "12".toList hm (List.all_eq_true.mp rfl) hm'
  have hday := @valueOf_eq_iff n "31".toList hn (List.all_eq_true.mp rfl) hn'
  rw [show valueOf "9999".toList = 9999 from rfl] at hyear
  rw [show valueOf "12".toList = 12 from rfl] at hmonth
  rw [show valueOf "31".toList = 31 from rfl] at hday
  rw [hyear, hmonth, hday]
  obtain ⟨y₁, y₂, y₃, y₄, rfl⟩ := List.length_eq_four.mp hy'
  obtain ⟨m₁, m₂, rfl⟩ := List.length_eq_two.mp hm'
  obtain ⟨n₁, n₂, rfl⟩ := List.length_eq_two.mp hn'
  have hne {c : Char} (hc : c.isDigit = false) : c ≠ m₁ := fun he => by simp [he, hm m₁ (.head _)] at hc
  cases usesSeparator <;> simp [lastForms, dash, List.cons_prefix_cons, hne (c := 'W') rfl, hne (c := '-') rfl] <;> grind

-- The week alone does not lead to the last day.
theorem short_last {y w : List Char} (hy' : y.length = 4) (hw' : w.length = 2) :
    ¬∃ form ∈ lastForms, form.toList <+: y ++ (dash usesSeparator ++ 'W' :: w) := by
  obtain ⟨y₁, y₂, y₃, y₄, rfl⟩ := List.length_eq_four.mp hy'
  obtain ⟨w₁, w₂, rfl⟩ := List.length_eq_two.mp hw'
  cases usesSeparator <;> simp [lastForms, dash, List.cons_prefix_cons]

theorem parseIsoformatDate_le (h : parseIsoformatDate p = some d) :
    d ≤ Date.max ∧ (d = Date.max ↔ ∃ form ∈ lastForms, form.toList <+: p) := by
  obtain ⟨⟨year, p₁⟩, hyear, hrest⟩ := Option.bind_eq_some_iff.mp h
  clear h
  obtain ⟨y, hy', hy, rfl, rfl⟩ := parseDigits_some.mp hyear
  obtain ⟨u, p₂, hu, hp₂, hp₁⟩ : ∃ u p₂, decide (p₁.head? = some '-') = u ∧
      (if p₁.head? = some '-' then p₁.tail else p₁) = p₂ ∧ p₁ = dash u ++ p₂ := by
    refine ⟨_, _, rfl, rfl, ?_⟩
    cases p₁ with
    | nil => rfl
    | cons c p₁ => by_cases hc : c = '-' <;> simp [dash, hc]
  simp only [hu, hp₂] at hrest
  subst hp₁
  split at hrest
  case h_1 p₃ heq =>
    obtain ⟨⟨week, p₄⟩, hweek, hday⟩ := Option.bind_eq_some_iff.mp hrest
    obtain ⟨w, hw', hw, rfl, rfl⟩ := parseDigits_some.mp hweek
    simp only at hday
    split at hday
    case isTrue hnil =>
      obtain rfl := List.isEmpty_iff.mp hnil
      obtain ⟨hle, hmax⟩ := isoToYmd_le hday
      refine ⟨hle, hmax.trans <| iff_of_false (by simp) ?_⟩
      rw [List.append_nil]
      exact short_last hy' hw'
    case isFalse =>
      obtain ⟨p₅, hsep, hbind⟩ := Option.bind_eq_some_iff.mp hday
      obtain rfl := parseSeparator_some.mp hsep
      obtain ⟨⟨day, r⟩, hparse, hymd⟩ := Option.bind_eq_some_iff.mp hbind
      obtain ⟨n, hn', hn, rfl, rfl⟩ := parseDigits_some.mp hparse
      obtain ⟨hle, hmax⟩ := isoToYmd_le hymd
      exact ⟨hle, hmax.trans <| week_last hy hw hn hy' hw' hn'⟩
  case h_2 =>
    obtain ⟨⟨month, p₄⟩, hmonth, hday⟩ := Option.bind_eq_some_iff.mp hrest
    obtain ⟨m, hm', hm, rfl, rfl⟩ := parseDigits_some.mp hmonth
    obtain ⟨p₅, hsep, hbind⟩ := Option.bind_eq_some_iff.mp hday
    obtain rfl := parseSeparator_some.mp hsep
    obtain ⟨⟨day, r⟩, hparse, hymd⟩ := Option.bind_eq_some_iff.mp hbind
    obtain ⟨n, hn', hn, rfl, rfl⟩ := parseDigits_some.mp hparse
    obtain ⟨hle, hmax⟩ := ymd_le hymd
    exact ⟨hle, hmax.trans <| month_last hy hm hn hy' hm' hn'⟩

theorem parseIsoformatDate_week {r : List Char} :
    parseIsoformatDate ("9999".toList ++ (dash usesSeparator ++ 'W' :: ("52".toList ++ (dash usesSeparator ++
      ("5".toList ++ r))))) = some Date.max := by
  have hyear (p : List Char) : parseDigits 4 ("9999".toList ++ p) = some (9999, p) := rfl
  have hweek (p : List Char) : parseDigits 2 ("52".toList ++ p) = some (52, p) := rfl
  have hday (p : List Char) : parseDigits 1 ("5".toList ++ p) = some (5, p) := rfl
  have hlast : isoToYmd 9999 52 5 = some Date.max := by decide +kernel
  cases usesSeparator with
  | false =>
    have hsep (p : List Char) : parseSeparator false ("5".toList ++ p) = some ("5".toList ++ p) := rfl
    have hne (p : List Char) : ("5".toList ++ p).isEmpty = false := rfl
    show parseIsoformatDate ("9999".toList ++ 'W' :: ("52".toList ++ ("5".toList ++ r))) = _
    simp only [parseIsoformatDate, hyear, Option.bind_eq_bind, Option.bind_some, List.head?_cons, Option.some.injEq,
      show ('W' = '-') = False by decide, if_false, hweek, hne, Bool.false_eq_true, decide_false, hsep, hday, hlast]
  | true =>
    show parseIsoformatDate ("9999".toList ++ '-' :: 'W' :: ("52".toList ++ '-' :: ("5".toList ++ r))) = _
    simp only [parseIsoformatDate, hyear, Option.bind_eq_bind, Option.bind_some, List.head?_cons, List.tail_cons, if_true,
      hweek, List.isEmpty_cons, Bool.false_eq_true, if_false, parseSeparator, decide_true, hday, hlast]

theorem parseIsoformatDate_last {r : List Char} {form : String} (h : form ∈ lastForms) :
    parseIsoformatDate (form.toList ++ r) = some Date.max := by
  have hday : ymd 9999 12 31 = some Date.max := rfl
  simp only [lastForms, List.mem_cons, List.not_mem_nil, or_false] at h
  rcases h with rfl | rfl | rfl | rfl
  · exact hday
  · exact @parseIsoformatDate_week true _
  · exact hday
  · exact @parseIsoformatDate_week false _

-- The texts of the 9999-12-31.
def LastDay (raw : String) : Prop :=
  raw.utf8ByteSize ∈ [7, 8, 10] ∧ ∃ form ∈ lastForms, form.toList <+: raw.toList

theorem fromisoformat_le {raw : String} (h : fromisoformat raw = some d) : d ≤ Date.max := by
  rw [fromisoformat] at h
  split at h
  case isTrue => exact (parseIsoformatDate_le h).1
  case isFalse => contradiction

theorem fromisoformat_last {raw : String} : fromisoformat raw = some Date.max ↔ LastDay raw := by
  rw [fromisoformat, LastDay]
  split
  case isTrue hsize =>
    constructor
    · exact fun h => ⟨hsize, (parseIsoformatDate_le h).2.mp rfl⟩
    · rintro ⟨-, form, hform, r, hr⟩
      rw [← hr]
      exact parseIsoformatDate_last hform
  case isFalse hsize => exact iff_of_false (by simp) fun h => hsize h.1

end Dates

section Decimals

variable {raw : String} {value : DecimalLiteral}

-- The words that are read as an infinity or as no number.
def NonFiniteWord (p : List Char) : Prop :=
  p = "inf".toList ∨ p = "infinity".toList ∨
    ∃ digits, (∀ c ∈ digits, c.isDigit) ∧ (p = "nan".toList ++ digits ∨ p = "snan".toList ++ digits)

-- The texts of such a word, with or without a sign.
def NonFinite (raw : String) : Prop :=
  ∃ s ∈ ["", "+", "-"], ∃ word, NonFiniteWord word ∧ decimalText raw = s.toList ++ word

theorem isFinite_of_limited {negative : Bool} {coefficient : ℕ} {exponent : ℤ} {c : Prop} [Decidable c]
    (h : (if c then none else some <| .finite negative coefficient exponent) = some value) : value.isFinite := by
  split at h
  case isTrue => contradiction
  case isFalse =>
    obtain rfl := Option.some.inj h
    rfl

theorem finiteDecimal_isFinite {negative : Bool} (h : finiteDecimal negative p = some value) : value.isFinite := by
  unfold finiteDecimal at h
  simp only [Option.pure_def, Option.bind_eq_bind, Option.bind_some, Option.bind_none] at h
  split at h
  case isTrue => contradiction
  case isFalse =>
    split at h
    case h_1 => exact isFinite_of_limited h
    case h_2 =>
      split at h
      case isTrue => contradiction
      case isFalse => exact isFinite_of_limited h

theorem sign_some (p : List Char) : ∃ s ∈ ["", "+", "-"], p = s.toList ++ (sign p).2 := by
  rw [sign.eq_def]
  split
  · exact ⟨"-", by decide, rfl⟩
  · exact ⟨"+", by decide, rfl⟩
  · exact ⟨"", by decide, rfl⟩

theorem NonFiniteWord.sign {word : List Char} (h : NonFiniteWord word) {s : String} (hs : s ∈ ["", "+", "-"]) :
    (ACRev360.sign (s.toList ++ word)).2 = word := by
  simp only [List.mem_cons, List.not_mem_nil, or_false] at hs
  rcases hs with rfl | rfl | rfl <;> obtain rfl | rfl | ⟨digits, -, rfl | rfl⟩ := h <;> rfl

theorem decimal_nonFinite : (∃ value, decimal raw = some value ∧ ¬value.isFinite) ↔ NonFinite raw := by
  constructor
  case mp =>
    rintro ⟨value, h, hvalue⟩
    obtain ⟨s, hs, htext⟩ := sign_some (decimalText raw)
    refine ⟨s, hs, _, ?_, htext⟩
    rw [decimal] at h
    simp only at h
    split at h
    case h_1 rest heq =>
      rw [heq]
      split at h
      case isTrue hrest =>
        simp only [Bool.or_eq_true, decide_eq_true_eq] at hrest
        obtain rfl | rfl := hrest
        · exact .inl rfl
        · exact .inr <| .inl rfl
      case isFalse => contradiction
    case h_2 rest heq =>
      rw [heq]
      split at h
      case isTrue hrest => exact .inr <| .inr ⟨rest, List.all_eq_true.mp hrest, .inl rfl⟩
      case isFalse => contradiction
    case h_3 rest heq =>
      rw [heq]
      split at h
      case isTrue hrest => exact .inr <| .inr ⟨rest, List.all_eq_true.mp hrest, .inr rfl⟩
      case isFalse => contradiction
    case h_4 => exact absurd (finiteDecimal_isFinite h) hvalue
  case mpr =>
    rintro ⟨s, hs, word, hword, htext⟩
    have hsign := hword.sign hs
    rw [← htext] at hsign
    rw [decimal]
    simp only [hsign]
    obtain rfl | rfl | ⟨digits, hdigits, rfl | rfl⟩ := hword
    · exact ⟨.infinity _, rfl, Bool.false_ne_true⟩
    · exact ⟨.infinity _, rfl, Bool.false_ne_true⟩
    · exact ⟨.nan _ false (valueOf digits), if_pos <| List.all_eq_true.mpr hdigits, Bool.false_ne_true⟩
    · exact ⟨.nan _ true (valueOf digits), if_pos <| List.all_eq_true.mpr hdigits, Bool.false_ne_true⟩

end Decimals

section Filters

variable {α : Type} {Usable : α → Prop} {params : Params} {name text : String} {convert : String → Option α}

-- A bound that can be used, or none, or a text for the parameter.
def Answers (Usable : α → Prop) (name : String) (r : Except FilterError (Option α)) : Prop :=
  (∃ bound, r = .ok bound ∧ ∀ a ∈ bound, Usable a) ∨ ∃ text, r = .error (.validationError name text)

-- A bound of a date is its midnight with the one that follows.
def IsDay (z : Zone) (bounds : Timestamp × Timestamp) : Prop :=
  ∃ day < Date.max, bounds = (z.midnight day, z.midnight (day + 1))

theorem parseParam_cases (params : Params) (name text : String) (convert : String → Option α) :
    (parseParam params name convert text = .ok none ∧ ∀ raw, params name = some raw → raw = "") ∨
    ∃ raw, params name = some raw ∧
      (convert raw = none ∧ parseParam params name convert text = .error (.validationError name text) ∨
      ∃ a, convert raw = some a ∧ parseParam params name convert text = .ok (some a)) := by
  rw [parseParam]
  cases hparam : params name with
  | none => exact .inl ⟨rfl, by simp⟩
  | some raw =>
    by_cases hraw : raw = ""
    case pos => exact .inl ⟨if_pos hraw, fun _ h => Option.some.inj h ▸ hraw⟩
    case neg =>
      refine .inr ⟨raw, rfl, ?_⟩
      simp only [if_neg hraw]
      cases convert raw with
      | none   => exact .inl ⟨rfl, rfl⟩
      | some a => exact .inr ⟨a, rfl, rfl⟩

theorem parseInt_answers : Answers (fun _ => True) name (parseInt params name) := by
  obtain ⟨h, -⟩ | ⟨raw, -, ⟨-, h⟩ | ⟨a, -, h⟩⟩ := parseParam_cases params name "Must be an integer." int
  · exact .inl ⟨_, h, fun _ _ => trivial⟩
  · exact .inr ⟨_, h⟩
  · exact .inl ⟨_, h, fun _ _ => trivial⟩

theorem dateBound_answers {z : Zone} :
    Answers (IsDay z) name (dateBound params name z) ↔ ∀ raw, params name = some raw → ¬LastDay raw := by
  rw [dateBound, parseDate]
  obtain ⟨h, hparam⟩ | ⟨raw, hraw, ⟨hnone, h⟩ | ⟨day, hday, h⟩⟩ :=
    parseParam_cases params name "Must be an ISO date (YYYY-MM-DD)." fromisoformat
  · refine iff_of_true (.inl ⟨none, by rw [h]; rfl, by simp⟩) fun raw hraw hlast => ?_
    obtain rfl := hparam raw hraw
    exact absurd hlast.1 (by decide)
  · refine iff_of_true (.inr ⟨_, by rw [h]; rfl⟩) fun raw' hraw' hlast => ?_
    obtain rfl := Option.some.inj <| hraw.symm.trans hraw'
    exact absurd (hnone.symm.trans <| fromisoformat_last.mpr hlast) (by simp)
  · rw [h]
    show Answers (IsDay z) name ((z.dateSpanBounds day |>.mapError .raised).map some) ↔ _
    rw [Zone.dateSpanBounds]
    split
    case isTrue hlt =>
      refine iff_of_true (.inl ⟨some _, rfl, fun _ hb => ⟨day, hlt, (Option.some.inj hb).symm⟩⟩) fun raw' hraw' hlast => ?_
      obtain rfl := Option.some.inj <| hraw.symm.trans hraw'
      obtain rfl := Option.some.inj <| hday.symm.trans <| fromisoformat_last.mpr hlast
      exact lt_irrefl _ hlt
    case isFalse hle =>
      obtain rfl := le_antisymm (fromisoformat_le hday) (not_lt.mp hle)
      refine iff_of_false ?_ fun hall => hall raw hraw <| fromisoformat_last.mp hday
      rintro (⟨_, hbound, -⟩ | ⟨_, herror⟩)
      · contradiction
      · have := Except.error.inj herror
        contradiction

theorem decimalBound_answers :
    Answers (·.isFinite) name (decimalBound params name) ↔ ∀ raw, params name = some raw → ¬NonFinite raw := by
  rw [decimalBound, parseDecimal]
  obtain ⟨h, hparam⟩ | ⟨raw, hraw, ⟨hnone, h⟩ | ⟨value, hvalue, h⟩⟩ :=
    parseParam_cases params name "Must be a number." decimal
  · refine iff_of_true (.inl ⟨none, by rw [h]; rfl, by simp⟩) fun raw hraw hnon => ?_
    obtain rfl := hparam raw hraw
    obtain ⟨_, hsome, -⟩ := decimal_nonFinite.mpr hnon
    exact absurd ((show decimal "" = none from rfl).symm.trans hsome) (by simp)
  · refine iff_of_true (.inr ⟨_, by rw [h]; rfl⟩) fun raw' hraw' hnon => ?_
    obtain rfl := Option.some.inj <| hraw.symm.trans hraw'
    obtain ⟨_, hsome, -⟩ := decimal_nonFinite.mpr hnon
    exact absurd (hnone.symm.trans hsome) (by simp)
  · rw [h]
    show Answers (·.isFinite) name ((toPython value).map some) ↔ _
    rw [toPython]
    split
    case isTrue hfinite =>
      refine iff_of_true (.inl ⟨some _, rfl, fun _ hb => Option.some.inj hb ▸ hfinite⟩) fun raw' hraw' hnon => ?_
      obtain rfl := Option.some.inj <| hraw.symm.trans hraw'
      obtain ⟨_, hsome, hnot⟩ := decimal_nonFinite.mpr hnon
      exact hnot <| Option.some.inj (hvalue.symm.trans hsome) ▸ hfinite
    case isFalse hnot =>
      refine iff_of_false ?_ fun hall => hall raw hraw <| decimal_nonFinite.mp ⟨value, hvalue, hnot⟩
      rintro (⟨_, hbound, -⟩ | ⟨_, herror⟩)
      · contradiction
      · have := Except.error.inj herror
        contradiction

theorem applyDateRange_answers {z : Zone} (hfrom : ∀ raw, params "date_from" = some raw → ¬LastDay raw)
    (hto : ∀ raw, params "date_to" = some raw → ¬LastDay raw) :
    (∃ bounds, applyDateRange params z = .ok bounds) ∨
      ∃ name text, applyDateRange params z = .error (.validationError name text) := by
  rw [applyDateRange]
  obtain ⟨dateFrom, h, -⟩ | ⟨text, h⟩ := dateBound_answers (z := z).mpr hfrom
  · obtain ⟨dateTo, h', -⟩ | ⟨text, h'⟩ := dateBound_answers (z := z).mpr hto
    · exact .inl ⟨_, by rw [h, h']; rfl⟩
    · exact .inr ⟨_, text, by rw [h, h']; rfl⟩
  · exact .inr ⟨_, text, by rw [h]; rfl⟩

-- The filters fail on the last day there is, and on infinities and what is no number.
theorem filters_answer (params : Params) (name : String) (z : Zone) :
    Answers (fun _ => True) name (parseInt params name) ∧
    (Answers (IsDay z) name (dateBound params name z) ↔ ∀ raw, params name = some raw → ¬LastDay raw) ∧
    (Answers (·.isFinite) name (decimalBound params name) ↔ ∀ raw, params name = some raw → ¬NonFinite raw) :=
  ⟨parseInt_answers, dateBound_answers, decimalBound_answers⟩

theorem filters_raise : ¬∀ (params : Params) (name : String) (z : Zone),
    Answers (fun _ => True) name (parseInt params name) ∧ Answers (IsDay z) name (dateBound params name z) ∧
      Answers (·.isFinite) name (decimalBound params name) := by
  intro h
  have hdate := (h (fun _ => some "9999-12-31") "date_to" Sample.lagos).2.1
  refine absurd ?_ (dateBound_answers.mp hdate _ rfl)
  exact ⟨by decide, "9999-12-31", .head _, List.prefix_rfl⟩

end Filters

end ACRev360
