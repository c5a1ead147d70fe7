import Mathlib.Data.Nat.Notation
import Mathlib.Data.List.Basic
import Mathlib.Logic.Function.Basic
import Mathlib.Order.Nat

-- Values that are computed from committed data and kept under tokens. What is saved replaces the tokens of
-- the values it is to make out of date, when it is saved and not when it is committed.
structure Memo where
  Place   : Type
  Content : Place → Type
  Key     : Type
  View    : Type
  Value   : Type
  [decPlace : DecidableEq Place]
  [decKey   : DecidableEq Key]
  [decView  : DecidableEq View]
  -- The token that the values of a view are kept under, and the one that a save replaces.
  key     : View → Key
  bump    : Place → Option Key
  compute : View → (∀ p, Content p) → Value
  reads   : View → List Place
  congr   : ∀ {v d₁ d₂}, (∀ p ∈ reads v, d₁ p = d₂ p) → compute v d₁ = compute v d₂

namespace Memo

variable {M : Memo}

instance : DecidableEq M.Place := M.decPlace
instance : DecidableEq M.Key := M.decKey
instance : DecidableEq M.View := M.decView

abbrev Data (M : Memo) :=
  ∀ p, M.Content p

-- What a transaction has saved at a place, as a change of what is committed.
abbrev Save (M : Memo) :=
  Σ p, M.Content p → M.Content p

def Save.apply (d : M.Data) (s : M.Save) : M.Data :=
  Function.update d s.1 (s.2 <| d s.1)

-- A reader, with what has been committed when it started and since then until it returned.
inductive Reader (M : Memo) where
  | idle
  | looking (v : M.View) (token : ℕ) (since : List M.Data)
  | missed (v : M.View) (token : ℕ) (since : List M.Data)
  | computed (v : M.View) (token : ℕ) (a : M.Value) (since : List M.Data)
  | returned (v : M.View) (a : M.Value) (since : List M.Data)

def Reader.commit (d : M.Data) : M.Reader → M.Reader
  | looking v t since    => looking v t (d :: since)
  | missed v t since     => missed v t (d :: since)
  | computed v t a since => computed v t a (d :: since)
  | r                    => r

structure State (M : Memo) where
  data    : M.Data
  tokens  : M.Key → Option ℕ
  -- Tokens are never used twice.
  next    : ℕ
  memo    : ℕ → M.View → Option M.Value
  writers : ℕ → Option (List M.Save)
  readers : ℕ → M.Reader

inductive Action (M : Memo) where
  | begin (w : ℕ)
  | save (w : ℕ) (s : M.Save)
  -- A save that no token is replaced for, whatever the place.
  | update (w : ℕ) (s : M.Save)
  | commit (w : ℕ)
  | rollback (w : ℕ)
  | start (r : ℕ) (v : M.View)
  | lookup (r : ℕ)
  | compute (r : ℕ)
  | store (r : ℕ)

namespace State

def initial (d : M.Data) : M.State where
  data    := d
  tokens  := fun _ => none
  next    := 0
  memo    := fun _ _ => none
  writers := fun _ => none
  readers := fun _ => .idle

def setReader (s : M.State) (r : ℕ) (x : M.Reader) : M.State :=
  { s with readers := Function.update s.readers r x }

def setWriter (s : M.State) (w : ℕ) (x : Option (List M.Save)) : M.State :=
  { s with writers := Function.update s.writers w x }

-- The token of a key is replaced by a new one.
def replace (s : M.State) (k : M.Key) : M.State :=
  { s with tokens := Function.update s.tokens k (some s.next), next := s.next + 1 }

def commit (s : M.State) (saves : List M.Save) : M.State :=
  let data := saves.foldl Save.apply s.data
  { s with data, readers := fun r => (s.readers r).commit data }

-- What has been computed is kept under the token that was read before.
def keep (s : M.State) (t : ℕ) (v : M.View) (a : M.Value) : M.State :=
  { s with memo := Function.update s.memo t (Function.update (s.memo t) v (some a)) }

-- The token of a key, which is minted if there is none.
def versionToken (s : M.State) (k : M.Key) : ℕ × M.State :=
  match s.tokens k with
  | some t => (t, s)
  | none   => (s.next, s.replace k)

def step (s : M.State) : Action M → Option M.State
  | .begin w    => if (s.writers w).isNone then some <| s.setWriter w (some []) else none
  | .save w x   => (s.writers w).map fun saves =>
    let s := s.setWriter w (some <| saves ++ [x])
    match M.bump x.1 with
    | some k => s.replace k
    | none   => s
  | .update w x => (s.writers w).map fun saves => s.setWriter w (some <| saves ++ [x])
  | .commit w   => (s.writers w).map fun saves => (s.setWriter w none).commit saves
  | .rollback w => (s.writers w).map fun _ => s.setWriter w none
  | .start r v  =>
    match s.readers r with
    | .idle | .returned .. =>
      let (t, s) := s.versionToken (M.key v)
      some <| s.setReader r (.looking v t [s.data])
    | _ => none
  | .lookup r   =>
    match s.readers r with
    | .looking v t since => some <| s.setReader r <|
      match s.memo t v with
      | some a => .returned v a since
      | none   => .missed v t since
    | _ => none
  | .compute r  =>
    match s.readers r with
    | .missed v t since => some <| s.setReader r (.computed v t (M.compute v s.data) since)
    | _ => none
  | .store r    =>
    match s.readers r with
    | .computed v t a since => some <| (s.keep t v a).setReader r (.returned v a since)
    | _ => none

-- The value has been computed under the token, whether it has been stored yet or not.
def Kept (s : M.State) (t : ℕ) (v : M.View) (a : M.Value) : Prop :=
  s.memo t v = some a ∨ ∃ r since, s.readers r = .computed v t a since

-- No value that is computed from what the transaction has saved is kept under a token that is current.
def Quiet (s : M.State) (saves : List M.Save) : Prop :=
  ∀ ⦃x v t a⦄, x ∈ saves → x.1 ∈ M.reads v → s.tokens (M.key v) = some t → ¬s.Kept t v a

end State

-- The value is the one of what was committed at some time while the reader ran.
def Fresh (v : M.View) (a : M.Value) (since : List M.Data) : Prop :=
  ∃ d ∈ since, a = M.compute v d

theorem Fresh.cons {v : M.View} {a : M.Value} {since : List M.Data} {d : M.Data} (h : Fresh v a since) :
    Fresh v a (d :: since) :=
  have ⟨d', hd', ha⟩ := h
  ⟨d', .tail _ hd', ha⟩

-- The states that actions lead to that meet `ok`.
inductive Reachable (ok : M.State → M.Action → Prop) : M.State → Prop
  | initial (d : M.Data) : Reachable ok (.initial d)
  | step {s t : M.State} {x : M.Action} : Reachable ok s → ok s x → s.step x = some t → Reachable ok t

-- Transactions are committed while nothing that is computed from what they have saved is kept under a
-- current token.
def Action.Quiet (s : M.State) : M.Action → Prop
  | .commit w => ∀ saves, s.writers w = some saves → s.Quiet saves
  | _         => True

def Reader.Sound (s : M.State) : M.Reader → Prop
  | .idle                 => True
  | .looking v t since    => t < s.next ∧ s.data ∈ since ∧ ∀ a, s.Kept t v a → Fresh v a since
  | .missed _ t since     => t < s.next ∧ s.data ∈ since
  | .computed v t a since => t < s.next ∧ s.data ∈ since ∧ Fresh v a since
  | .returned v a since   => Fresh v a since

-- Under a current token is what would be computed now.
structure Sound (s : M.State) : Prop where
  tokens  : ∀ ⦃k t⦄, s.tokens k = some t → t < s.next
  kept    : ∀ ⦃v t a⦄, s.Kept t v a → t < s.next
  current : ∀ ⦃v t a⦄, s.tokens (M.key v) = some t → s.Kept t v a → a = M.compute v s.data
  readers : ∀ r, (s.readers r).Sound s

variable {s t : M.State}

-- The state after some actions in a row.
def State.run (s : M.State) (l : List M.Action) : Option M.State :=
  l.foldlM State.step s

theorem Reachable.run {ok : M.State → M.Action → Prop} {l : List M.Action} (h : Reachable ok s)
    (hok : ∀ x ∈ l, ∀ s, ok s x) (ht : s.run l = some t) : Reachable ok t := by
  induction l generalizing s with
  | nil => exact Option.some.inj ht ▸ h
  | cons x l hi =>
    obtain ⟨s', hs', ht⟩ := Option.bind_eq_some_iff.mp ht
    exact hi (h.step (hok x (.head _) s) hs') (fun y hy => hok y (.tail _ hy)) ht

theorem Reader.Sound.mono {x : M.Reader} (h : x.Sound s) (hd : t.data = s.data) (hn : s.next ≤ t.next)
    (hk : ∀ {t' v a}, t.Kept t' v a → s.Kept t' v a) : x.Sound t := by
  cases x with
  | idle => trivial
  | looking v t' since => exact ⟨h.1.trans_le hn, hd ▸ h.2.1, fun a ha => h.2.2 a <| hk ha⟩
  | missed v t' since => exact ⟨h.1.trans_le hn, hd ▸ h.2⟩
  | computed v t' a since => exact ⟨h.1.trans_le hn, hd ▸ h.2.1, h.2.2⟩
  | returned v a since => exact h

namespace Sound

theorem initial {d : M.Data} : Sound (State.initial d) where
  tokens _ _ h  := by simp [State.initial] at h
  kept _ _ _ h  := by simp [State.Kept, State.initial] at h
  current _ _ _ h := by simp [State.initial] at h
  readers _ := trivial

-- Nothing has been computed under a token yet when it replaces another.
theorem not_kept (h : Sound s) {v : M.View} {a : M.Value} : ¬s.Kept s.next v a :=
  fun ha => lt_irrefl _ <| h.kept ha

theorem setWriter (h : Sound s) {w : ℕ} {x : Option (List M.Save)} : Sound (s.setWriter w x) :=
  ⟨h.tokens, h.kept, h.current, fun r => (h.readers r).mono rfl le_rfl id⟩

theorem replace (h : Sound s) {k : M.Key} : Sound (s.replace k) where
  tokens k' t ht := by
    simp only [State.replace, Function.update_apply] at ht ⊢
    split at ht
    case isTrue => exact Option.some.inj ht ▸ Nat.lt_succ_self _
    case isFalse => exact (h.tokens ht).trans <| Nat.lt_succ_self _
  kept v t a hk := (h.kept hk).trans <| Nat.lt_succ_self _
  current v t a ht hk := by
    simp only [State.replace, Function.update_apply] at ht
    split at ht
    case isTrue => exact absurd (h.kept hk) <| Option.some.inj ht ▸ lt_irrefl _
    case isFalse => exact h.current ht hk
  readers r := (h.readers r).mono rfl (Nat.le_succ _) id

theorem versionToken (h : Sound s) {k : M.Key} :
    Sound (s.versionToken k).2 ∧ (s.versionToken k).2.tokens k = some (s.versionToken k).1 := by
  unfold State.versionToken
  split
  case h_1 t ht => exact ⟨h, ht⟩
  case h_2 => exact ⟨h.replace, by simp [State.replace]⟩

-- A reader goes on, without having computed anything.
theorem setReader (h : Sound s) {r : ℕ} {x : M.Reader} (hx : x.Sound s)
    (hc : ∀ v t a since, x ≠ .computed v t a since) : Sound (s.setReader r x) := by
  have hk {t v a} (hk : (s.setReader r x).Kept t v a) : s.Kept t v a := by
    refine hk.imp id fun ⟨r', since, hr'⟩ => ⟨r', since, ?_⟩
    simp only [State.setReader, Function.update_apply] at hr'
    split at hr'
    case isTrue => exact absurd hr' <| hc _ _ _ _
    case isFalse => exact hr'
  refine ⟨h.tokens, fun v t a ha => h.kept (hk ha), fun v t a ht ha => h.current ht (hk ha), fun r' => ?_⟩
  simp only [State.setReader, Function.update_apply]
  split
  · exact hx.mono rfl le_rfl hk
  · exact (h.readers r').mono rfl le_rfl hk

theorem compute (h : Sound s) {r t : ℕ} {v : M.View} {since : List M.Data}
    (hr : s.readers r = .missed v t since) :
    Sound (s.setReader r (.computed v t (M.compute v s.data) since)) := by
  have ⟨ht, hs⟩ := hr ▸ h.readers r
  have hk {t' v' a} (hk : (s.setReader r (.computed v t (M.compute v s.data) since)).Kept t' v' a) :
      s.Kept t' v' a ∨ (t' = t ∧ a = M.compute v' s.data) := by
    rcases hk with hm | ⟨r', since', hr'⟩
    case inl => exact .inl <| .inl hm
    case inr =>
      simp only [State.setReader, Function.update_apply] at hr'
      split at hr'
      case isTrue =>
        obtain ⟨rfl, rfl, rfl, rfl⟩ := by simpa using hr'
        exact .inr ⟨rfl, rfl⟩
      case isFalse => exact .inl <| .inr ⟨r', since', hr'⟩
  constructor
  case tokens => exact h.tokens
  case kept =>
    intro v' t' a ha
    rcases hk ha with ha | ⟨rfl, _⟩
    · exact h.kept ha
    · exact ht
  case current =>
    intro v' t' a ht' ha
    rcases hk ha with ha | ⟨_, ha⟩
    · exact h.current ht' ha
    · exact ha
  case readers =>
    intro r'
    simp only [State.setReader, Function.update_apply]
    split
    case isTrue => exact ⟨ht, hs, _, hs, rfl⟩
    case isFalse =>
      have hr' := h.readers r'
      cases hx : s.readers r' with
      | looking v' t' since' =>
        rw [hx] at hr'
        refine ⟨hr'.1, hr'.2.1, fun a ha => ?_⟩
        rcases hk ha with ha | ⟨_, rfl⟩
        · exact hr'.2.2 a ha
        · exact ⟨_, hr'.2.1, rfl⟩
      | _ =>
        rw [hx] at hr'
        exact hr'

theorem store (h : Sound s) {r t : ℕ} {v : M.View} {a : M.Value} {since : List M.Data}
    (hr : s.readers r = .computed v t a since) :
    Sound ((s.keep t v a).setReader r (.returned v a since)) := by
  have hk {t' v' a'} (hk : (s.keep t v a).Kept t' v' a') : s.Kept t' v' a' := by
    rcases hk with hm | hc
    case inr => exact .inr hc
    case inl =>
      simp only [State.keep, Function.update_apply] at hm
      split at hm
      case isFalse => exact .inl hm
      case isTrue ht =>
        rw [Function.update_apply] at hm
        split at hm
        case isFalse => exact .inl <| ht ▸ hm
        case isTrue hv =>
          obtain rfl := Option.some.inj hm
          exact .inr ⟨r, since, by rw [hr, ht, hv]⟩
  have hkeep : Sound (s.keep t v a) :=
    ⟨h.tokens, fun _ _ _ ha => h.kept (hk ha), fun _ _ _ ht ha => h.current ht (hk ha),
      fun r' => (h.readers r').mono rfl le_rfl hk⟩
  exact hkeep.setReader (hr ▸ h.readers r).2.2 nofun

theorem applied {saves : List M.Save} {d : M.Data} {p : M.Place} (h : ∀ x ∈ saves, x.1 ≠ p) :
    saves.foldl Save.apply d p = d p := by
  induction saves generalizing d with
  | nil => rfl
  | cons x saves hi =>
    rw [List.foldl_cons, hi fun y hy => h y (.tail _ hy), Save.apply, Function.update_of_ne]
    exact (h x (.head _)).symm

theorem commit (h : Sound s) {saves : List M.Save} (hq : s.Quiet saves) : Sound (s.commit saves) := by
  have hk {t v a} (hk : (s.commit saves).Kept t v a) : s.Kept t v a := by
    refine hk.imp id fun ⟨r, since, hr⟩ => ?_
    simp only [State.commit] at hr
    cases hx : s.readers r with
    | computed v' t' a' since' =>
      rw [hx] at hr
      obtain ⟨rfl, rfl, rfl, -⟩ := by simpa [Reader.commit] using hr
      exact ⟨r, since', hx⟩
    | _ => rw [hx] at hr; simp [Reader.commit] at hr
  constructor
  case tokens => exact h.tokens
  case kept => exact fun v t a ha => h.kept (hk ha)
  case current =>
    intro v t a ht ha
    refine (h.current ht <| hk ha).trans <| M.congr fun p hp => (applied fun x hx he => ?_).symm
    exact hq hx (he ▸ hp) ht <| hk ha
  case readers =>
    intro r
    have hr := h.readers r
    simp only [State.commit]
    cases hx : s.readers r with
    | idle => trivial
    | looking v t since =>
      rw [hx] at hr
      exact ⟨hr.1, .head _, fun a ha => (hr.2.2 a <| hk ha).cons⟩
    | missed v t since =>
      rw [hx] at hr
      exact ⟨hr.1, .head _⟩
    | computed v t a since =>
      rw [hx] at hr
      exact ⟨hr.1, .head _, hr.2.2.cons⟩
    | returned v a since =>
      rw [hx] at hr
      exact hr

theorem step (h : Sound s) {x : M.Action} (hx : x.Quiet s) (ht : s.step x = some t) : Sound t := by
  cases x with
  | begin w =>
    simp only [State.step, Option.ite_none_right_eq_some, Option.some.injEq] at ht
    exact ht.2 ▸ h.setWriter
  | save w x =>
    obtain ⟨saves, _, rfl⟩ := Option.map_eq_some_iff.mp ht
    simp only
    split
    · exact h.setWriter.replace
    · exact h.setWriter
  | update w x =>
    obtain ⟨saves, _, rfl⟩ := Option.map_eq_some_iff.mp ht
    exact h.setWriter
  | commit w =>
    obtain ⟨saves, hw, rfl⟩ := Option.map_eq_some_iff.mp ht
    exact h.setWriter.commit <| hx saves hw
  | rollback w =>
    obtain ⟨saves, _, rfl⟩ := Option.map_eq_some_iff.mp ht
    exact h.setWriter
  | start r v =>
    have ⟨hs, htoken⟩ := h.versionToken (k := M.key v)
    have hstart := hs.setReader (r := r) (x := .looking v _ [_])
      ⟨hs.tokens htoken, .head _, fun a ha => ⟨_, .head _, hs.current htoken ha⟩⟩ nofun
    simp only [State.step] at ht
    split at ht
    · exact Option.some.inj ht ▸ hstart
    · exact Option.some.inj ht ▸ hstart
    · contradiction
  | lookup r =>
    simp only [State.step] at ht
    split at ht
    case h_2 => contradiction
    case h_1 v t since hr =>
      obtain ⟨hlt, hs, hfresh⟩ := hr ▸ h.readers r
      rw [← Option.some.inj ht]
      split
      case h_1 a ha => exact h.setReader (hfresh a <| .inl ha) nofun
      case h_2 => exact h.setReader ⟨hlt, hs⟩ nofun
  | compute r =>
    simp only [State.step] at ht
    split at ht
    case h_2 => contradiction
    case h_1 hr => exact Option.some.inj ht ▸ h.compute hr
  | store r =>
    simp only [State.step] at ht
    split at ht
    case h_2 => contradiction
    case h_1 hr => exact Option.some.inj ht ▸ h.store hr

theorem reachable (h : Reachable Action.Quiet s) : Sound s := by
  induction h with
  | initial d => exact initial
  | step _ hx ht hs => exact hs.step hx ht

end Sound

end Memo
