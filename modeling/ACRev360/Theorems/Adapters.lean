import ACRev360.Theorems.Idempotency
import ACRev360.Theorems.Posting

namespace ACRev360

variable {gw : Gateway} {code : String} {payload : Json} {channel : ChannelCode}
  {members : List (String × Json)} {bankTxnRef billRef : String} {amount q : ℚ} {n : Normalised}

-- What a notification of a channel has to be before its amount is looked at.
structure Accepts (channel : ChannelCode) (members : List (String × Json)) (bankTxnRef billRef : String) :
    Prop where
  complete : ∃ required, channel.requiredFields = some required ∧ ∀ f ∈ required, (members.lookup f).isSome
  bill     : Json.getField members "billRef" = .str billRef
  nonblank : billRef.toList.all isSpace = false
  bankRef  : refText (Json.getField members channel.bankRefField) = some bankTxnRef

-- The amount of the payload is written as the positive number `q`.
structure Stated (gw : Gateway) (members : List (String × Json)) (q : ℚ) : Prop where
  written : match Json.getField members "amount" with
    | .str _ | .int _ | .float _ => True
    | _ => False
  decimal : gw.decimal (Json.getField members "amount") = some (.finite q)
  pos     : 0 < q

-- A payload that writes `q` is for this amount in naira, unless it is beyond the exponents of arithmetic.
def naira (members : List (String × Json)) (q : ℚ) : Option ℚ :=
  if (Json.getField members "amountInKobo").truthy then Decimal.inContext (q / 100) else some q

theorem stated_iff : parseAmount gw (Json.getField members "amount") = .ok q ↔ Stated gw members q := by
  constructor
  case mp =>
    intro h
    unfold parseAmount at h
    split at h
    case h_4 => contradiction
    all_goals
      rename_i hfield
      split at h
      case h_1 => contradiction
      case h_2 => contradiction
      case h_3 hdecimal =>
        split at h
        · contradiction
        case isFalse hpos =>
          obtain rfl := Except.ok.inj h
          exact ⟨by simp [hfield], hfield ▸ hdecimal, not_le.mp hpos⟩
  case mpr =>
    intro ⟨hwritten, hdecimal, hpos⟩
    unfold parseAmount
    split
    case h_4 hstr hint hfloat =>
      split at hwritten
      · exact absurd ‹_› (hstr _)
      · exact absurd ‹_› (hint _)
      · exact absurd ‹_› (hfloat _)
      · contradiction
    all_goals
      simp [hdecimal, hpos.not_ge]

theorem amountOf_stated (h : Stated gw members q) : amountOf gw members = match naira members q with
    | none        => .error (.other .decimalOverflow)
    | some amount => .ok amount := by
  rw [amountOf, stated_iff.mpr h]
  simp only [naira]
  split <;> rfl

-- What is left of the validation of a payload that is accepted up to its amount.
def validateAmount (gw : Gateway) (members : List (String × Json)) : Except Raised Unit := do
  let amount ← amountOf gw members
  if maxAmount < amount then adapterError "amount is too large"

theorem validate_accepts (hcode : ChannelCode.ofCode? code = some channel)
    (h : Accepts channel members bankTxnRef billRef) :
    validate gw code (.obj members) = validateAmount gw members := by
  have ⟨required, hrequired, hcomplete⟩ := h.complete
  have hmissing : required.filter (fun f => (members.lookup f).isNone) = [] :=
    List.filter_eq_nil_iff.mpr fun f hf => by simpa using hcomplete f hf
  simp only [validate, hcode, hrequired, hmissing, h.bill, h.nonblank, h.bankRef]
  rfl

-- What is not refused with an AdapterError has passed every check that comes before the amount.
theorem validate_cases : (∃ e, validate gw code payload = .error (.adapterError e)) ∨
    ∃ channel members bankTxnRef billRef, ChannelCode.ofCode? code = some channel ∧ payload = .obj members ∧
      Accepts channel members bankTxnRef billRef := by
  by_contra h
  obtain ⟨hpassed, h⟩ := not_or.mp h
  have ⟨channel, hcode⟩ : ∃ channel, ChannelCode.ofCode? code = some channel := by
    cases hcode : ChannelCode.ofCode? code with
    | some channel => exact ⟨channel, rfl⟩
    | none => exact absurd ⟨_, by rw [validate, hcode]; rfl⟩ hpassed
  have ⟨required, hrequired⟩ : ∃ required, channel.requiredFields = some required := by
    cases hrequired : channel.requiredFields with
    | some required => exact ⟨required, rfl⟩
    | none => exact absurd ⟨_, by simp only [validate, hcode, hrequired]; rfl⟩ hpassed
  have ⟨members, hmembers⟩ : ∃ members, payload = .obj members := by
    cases payload with
    | obj members => exact ⟨members, rfl⟩
    | _ => exact absurd ⟨_, by simp only [validate, hcode, hrequired]; rfl⟩ hpassed
  subst hmembers
  have hmissing : required.filter (fun f => (members.lookup f).isNone) = [] := by
    by_contra hmissing
    exact absurd ⟨_, by simp only [validate, hcode, hrequired, ne_eq, hmissing, not_false_eq_true]; rfl⟩ hpassed
  have ⟨billRef, hbill⟩ : ∃ billRef, Json.getField members "billRef" = .str billRef := by
    cases hbill : Json.getField members "billRef" with
    | str billRef => exact ⟨billRef, rfl⟩
    | _ => exact absurd ⟨_, by simp only [validate, hcode, hrequired, hmissing, hbill]; rfl⟩ hpassed
  have hblank : billRef.toList.all isSpace = false := by
    by_contra hblank
    rw [Bool.not_eq_false] at hblank
    exact absurd ⟨_, by simp only [validate, hcode, hrequired, hmissing, hbill, hblank]; rfl⟩ hpassed
  have ⟨bankTxnRef, href⟩ : ∃ ref, refText (Json.getField members channel.bankRefField) = some ref := by
    cases href : refText (Json.getField members channel.bankRefField) with
    | some ref => exact ⟨ref, rfl⟩
    | none =>
      exact absurd ⟨_, by simp only [validate, hcode, hrequired, hmissing, hbill, hblank, href]; rfl⟩ hpassed
  refine h ⟨channel, members, bankTxnRef, billRef, hcode, rfl, ⟨required, hrequired, fun f hf => ?_⟩, hbill, hblank, href⟩
  simpa using List.filter_eq_nil_iff.mp hmissing f hf

theorem normalise_accepts (hcode : ChannelCode.ofCode? code = some channel)
    (h : Accepts channel members bankTxnRef billRef) :
    normalise gw code (.obj members) = (amountOf gw members).map fun amount => ⟨bankTxnRef, amount, billRef⟩ := by
  simp only [normalise, hcode, h.bill, h.bankRef]
  cases amountOf gw members <;> rfl

-- A payload that passes every check that comes before the last one.
structure Submitted (gw : Gateway) (code : String) (payload : Json) (members : List (String × Json))
    (bankTxnRef billRef : String) (q : ℚ) : Prop where
  object  : payload = .obj members
  accepts : ∃ channel, ChannelCode.ofCode? code = some channel ∧ Accepts channel members bankTxnRef billRef
  stated  : Stated gw members q

namespace Submitted

variable (h : Submitted gw code payload members bankTxnRef billRef q)
include h

theorem validate : validate gw code payload = match naira members q with
    | none        => .error (.other .decimalOverflow)
    | some amount => if maxAmount < amount then adapterError "amount is too large" else .ok () := by
  have ⟨channel, hcode, haccepts⟩ := h.accepts
  rw [h.object, validate_accepts hcode haccepts, validateAmount, amountOf_stated h.stated]
  cases naira members q <;> rfl

theorem normalise : normalise gw code payload = match naira members q with
    | none        => .error (.other .decimalOverflow)
    | some amount => .ok ⟨bankTxnRef, amount, billRef⟩ := by
  have ⟨channel, hcode, haccepts⟩ := h.accepts
  rw [h.object, normalise_accepts hcode haccepts, amountOf_stated h.stated]
  cases naira members q <;> rfl

end Submitted

theorem submitted_or : (∃ e, validate gw code payload = .error (.adapterError e)) ∨
    ∃ members bankTxnRef billRef q, Submitted gw code payload members bankTxnRef billRef q := by
  rcases @validate_cases gw code payload with hraised | ⟨channel, members, bankTxnRef, billRef, hcode, rfl, haccepts⟩
  case inl => exact .inl hraised
  case inr =>
    cases hamount : parseAmount gw (Json.getField members "amount") with
    | ok q => exact .inr ⟨_, _, _, q, rfl, ⟨channel, hcode, haccepts⟩, stated_iff.mp hamount⟩
    | error e =>
      refine .inl ⟨e, ?_⟩
      rw [validate_accepts hcode haccepts, validateAmount, amountOf, hamount]
      rfl

theorem naira_nonneg (h : Stated gw members q) (hn : naira members q = some amount) : 0 ≤ amount := by
  unfold naira at hn
  split at hn
  case isTrue => exact Decimal.inContext_nonneg hn <| div_nonneg h.pos.le (by norm_num)
  case isFalse => exact Option.some.inj hn ▸ h.pos.le

-- The adapters accept no amount that is negative or too large.
theorem adapt_amount (h : adapt gw code payload = .ok n) : 0 ≤ n.amount ∧ n.amount ≤ maxAmount := by
  unfold adapt at h
  rcases @submitted_or gw code payload with ⟨e, he⟩ | ⟨members, bankTxnRef, billRef, q, hs⟩
  · rw [he] at h
    contradiction
  rw [hs.validate, hs.normalise] at h
  cases hn : naira members q with
  | none =>
    rw [hn] at h
    contradiction
  | some amount =>
    simp only [hn] at h
    split at h
    · contradiction
    case isFalse hmax => exact Except.ok.inj h ▸ ⟨naira_nonneg hs.stated hn, not_lt.mp hmax⟩

-- What the validation promises: a payload that it does not refuse is an amount for the column of payments,
-- which is not zero there, under a reference.
def Total (gw : Gateway) (code : String) (payload : Json) : Prop :=
  (∃ e, validate gw code payload = .error (.adapterError e)) ∨
  validate gw code payload = .ok () ∧ ∃ n, ∃ amount : Money, normalise gw code payload = .ok n ∧
    Numeric.ofRat? n.amount = some amount ∧ 0 < amount.units ∧ n.bankTxnRef ≠ ""

-- From half a kobo on, an amount is not zero in its column.
theorem ofRat?_pos (h : 0 ≤ amount) (hmax : amount ≤ maxAmount) :
    (∃ m : Money, Numeric.ofRat? amount = some m ∧ 0 < m.units) ↔ 1 / 200 ≤ amount := by
  obtain ⟨m, hm⟩ := ofRat?_money h hmax
  have hunits : m.units = ⌊amount * 100 + 1 / 2⌋ := by
    rw [Numeric.ofRat?_units hm, roundHalfAway, if_pos (by positivity)]
    norm_num
  have hpos : 0 < m.units ↔ 1 / 200 ≤ amount := by
    rw [hunits, Int.floor_pos]
    constructor <;> intro <;> linarith
  refine ⟨fun h => ?_, fun h => ⟨m, hm, hpos.mpr h⟩⟩
  obtain ⟨m', hm', hpos'⟩ := h
  refine hpos.mp ?_
  exact Option.some.inj (hm.symm.trans hm') ▸ hpos'

theorem Total.sound (htotal : Total gw code payload)
    (h : Submitted gw code payload members bankTxnRef billRef q) :
    ∃ amount, naira members q = some amount ∧ (amount ≤ maxAmount → 1 / 200 ≤ amount ∧ bankTxnRef ≠ "") := by
  have hvalidate := h.validate
  have hnormalise := h.normalise
  cases hn : naira members q with
  | none =>
    rw [hn] at hvalidate
    rcases htotal with ⟨e, he⟩ | ⟨hok, _⟩
    · simp [he] at hvalidate
    · simp [hok] at hvalidate
  | some amount =>
    refine ⟨amount, rfl, fun hmax => ?_⟩
    simp only [hn, hmax.not_gt, if_false] at hvalidate
    simp only [hn] at hnormalise
    rcases htotal with ⟨e, he⟩ | ⟨_, n, m, hnormalised, hm, hpos, href⟩
    · simp [he] at hvalidate
    · obtain rfl := Except.ok.inj <| hnormalise.symm.trans hnormalised
      exact ⟨(ofRat?_pos (naira_nonneg h.stated hn) hmax).mp ⟨m, hm, hpos⟩, href⟩

-- The validation keeps its promise just if an amount in kobo is not too large to be divided, and what is not
-- too large in naira is at least half a kobo, of a reference with a character.
theorem validation_total : Total gw code payload ↔
    ∀ {members bankTxnRef billRef q}, Submitted gw code payload members bankTxnRef billRef q →
      ∃ amount, naira members q = some amount ∧ (amount ≤ maxAmount → 1 / 200 ≤ amount ∧ bankTxnRef ≠ "") := by
  refine ⟨fun htotal {members bankTxnRef billRef q} h => htotal.sound h, fun hsound => ?_⟩
  rcases @submitted_or gw code payload with hraised | ⟨members, bankTxnRef, billRef, q, h⟩
  case inl => exact .inl hraised
  case inr =>
    obtain ⟨amount, hn, hamount⟩ := hsound h
    have hvalidate := h.validate
    simp only [hn] at hvalidate
    by_cases hmax : amount ≤ maxAmount
    case pos =>
      have ⟨hpos, href⟩ := hamount hmax
      have ⟨m, hm, hpos⟩ := (ofRat?_pos (naira_nonneg h.stated hn) hmax).mpr hpos
      rw [if_neg hmax.not_gt] at hvalidate
      exact .inr ⟨hvalidate, ⟨bankTxnRef, amount, billRef⟩, m, by rw [h.normalise, hn], hm, hpos, href⟩
    case neg =>
      rw [if_pos (not_le.mp hmax)] at hvalidate
      exact .inl ⟨_, hvalidate⟩

theorem inContext_overflow {k : ℕ} (hk : Decimal.maxExponent < k) :
    Decimal.inContext (10 ^ (k + 2) / 100) = none := by
  have hdiv : (10 : ℚ) ^ (k + 2) / 100 = 10 ^ k := by
    rw [pow_add]
    norm_num
  have hlog : Int.log 10 ((10 : ℚ) ^ k) = k := by
    rw [← zpow_natCast]
    exact_mod_cast Int.log_zpow (R := ℚ) (b := 10) (by norm_num) k
  have hround : (10 : ℚ) ^ k ≤ Decimal.round (10 ^ k) := by
    simpa only [hlog, zpow_natCast] using Decimal.zpow_log_le_round (q := 10 ^ k) (by positivity)
  rw [hdiv, Decimal.inContext, if_pos]
  calc (10 : ℚ) ^ (Decimal.maxExponent + 1) ≤ 10 ^ k := pow_le_pow_right₀ (by norm_num) hk
    _ ≤ |Decimal.round (10 ^ k)| := hround.trans <| le_abs_self _

namespace Sample

-- A library that reads the texts of three amounts.
def reader : Gateway :=
  { gateway with decimal := fun
      | .str "20"        => some (.finite 20)
      | .str "0.001"     => some (.finite (1 / 1000))
      | .str "1e2000002" => some (.finite (10 ^ 2000002))
      | _                => none }

def terminalFields (rrn amount : String) (amountInKobo : Bool) : List (String × Json) :=
  [("terminalId", .str "T1"), ("rrn", .str rrn), ("amount", .str amount),
    ("billRef", .str "KAC/2017/000010"), ("amountInKobo", .bool amountInKobo)]

theorem submitted {rrn amount : String} {amountInKobo : Bool}
    (hstated : Stated reader (terminalFields rrn amount amountInKobo) q) :
    Submitted reader "POS" (.obj <| terminalFields rrn amount amountInKobo)
      (terminalFields rrn amount amountInKobo) rrn "KAC/2017/000010" q where
  object  := rfl
  stated  := hstated
  accepts := ⟨.pos, rfl, ⟨_, rfl, by simp [terminalFields, List.lookup_cons]⟩, rfl, by decide +kernel, rfl⟩

end Sample

-- An amount in kobo that is too large to be divided raises what nobody catches; a tenth of a kobo, and an
-- amount without a reference, are accepted.
theorem validation_not_total :
    ¬Total Sample.reader "POS" (.obj <| Sample.terminalFields "R1" "1e2000002" true) ∧
    ¬Total Sample.reader "POS" (.obj <| Sample.terminalFields "R1" "0.001" false) ∧
    ¬Total Sample.reader "POS" (.obj <| Sample.terminalFields "" "20" false) := by
  refine ⟨fun h => ?overflow, fun h => ?tenth, fun h => ?blank⟩
  case overflow =>
    obtain ⟨amount, hn, _⟩ := h.sound <| Sample.submitted (q := 10 ^ 2000002) ⟨trivial, rfl, by positivity⟩
    exact absurd (hn.symm.trans <| inContext_overflow (k := 2000000) (by decide)) (by simp)
  case tenth =>
    obtain ⟨amount, hn, hamount⟩ := h.sound <| Sample.submitted (q := 1 / 1000) ⟨trivial, rfl, by norm_num⟩
    obtain rfl : 1 / 1000 = amount := Option.some.inj hn
    have := (hamount <| by norm_num [maxAmount]).1
    norm_num at this
  case blank =>
    obtain ⟨amount, hn, hamount⟩ := h.sound <| Sample.submitted (q := 20) ⟨trivial, rfl, by norm_num⟩
    obtain rfl : 20 = amount := Option.some.inj hn
    exact (hamount <| by norm_num [maxAmount]).2 rfl

end ACRev360
