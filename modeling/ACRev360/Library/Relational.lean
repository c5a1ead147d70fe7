import ACRev360.Library.Effects
import ACRev360.Library.Table

-- A relational database: its tables with the type of their rows, the values their unique
-- constraints range over, their foreign keys, and the columns that no statement changes.
structure Relational where
  Name      : Type
  [decName  : DecidableEq Name]
  names     : List Name
  mem_names : ∀ t, t ∈ names
  Rec       : Name → Type
  Key       : Type
  [decKey   : DecidableEq Key]
  keys      : (t : Name) → Rec t → List Key
  refs      : (t : Name) → Rec t → List (Name × ℕ)
  Fixed     : Name → Type
  fixed     : (t : Name) → Rec t → Fixed t
  -- A facet is a projection of the rows of one table.
  Facet     : Type
  Obs       : Facet → Type
  of        : Facet → Name
  obs       : (f : Facet) → ℕ → Rec (of f) → Option (Obs f)
  Error     : Type
  -- A constraint is violated, and an update of a row that is gone.
  integrityError : Error
  databaseError  : Error

namespace Relational

variable (R : Relational)

instance : DecidableEq R.Name := R.decName
instance : DecidableEq R.Key := R.decKey

-- Rows are locked by their primary key. A value of a unique constraint is locked by the transaction
-- that inserts it.
inductive Row where
  | row (t : R.Name) (k : ℕ)
  | key (u : R.Key)
deriving DecidableEq

-- An exception, and whether the transaction takes no statement before it is rolled back.
structure Exn where
  error   : R.Error
  aborted : Bool

-- A deleted primary key stays retired: the sequences do not hand it out again.
structure Database where
  table   : (t : R.Name) → Table (R.Rec t)
  retired : R.Name → List ℕ

end Relational

variable {R : Relational} {t t' : R.Name} {i k : ℕ}

namespace Relational.Database

variable {s s₁ s₂ s₃ : R.Database}

def Holds (s : R.Database) (u : R.Key) (t : R.Name) (k : ℕ) : Prop :=
  ∃ r, (s.table t).get k = some r ∧ u ∈ R.keys t r

def Agree : R.Row → R.Database → R.Database → Prop
  | .row t k, s₁, s₂ =>
    (s₁.table t).get k = (s₂.table t).get k ∧ (k ∈ s₁.retired t ↔ k ∈ s₂.retired t)
  | .key u, s₁, s₂ => ∀ t k, s₁.Holds u t k ↔ s₂.Holds u t k

theorem agree_equivalence (r : R.Row) : Equivalence (Agree r) := by
  cases r with
  | row t k => exact ⟨fun _ => ⟨rfl, .rfl⟩, fun h => ⟨h.1.symm, h.2.symm⟩,
      fun h₁ h₂ => ⟨h₁.1.trans h₂.1, h₁.2.trans h₂.2⟩⟩
  | key u => exact ⟨fun _ _ _ => .rfl, fun h t k => (h t k).symm,
      fun h₁ h₂ t k => (h₁ t k).trans (h₂ t k)⟩

-- Rows keep their fixed columns until they are deleted, and deleted rows do not come back.
def Evolves : R.Row → R.Database → R.Database → Prop
  | .row t k, s₁, s₂ =>
    (k ∈ s₁.retired t → k ∈ s₂.retired t ∧ ((s₁.table t).get k = none → (s₂.table t).get k = none)) ∧
    ∀ r, (s₁.table t).get k = some r →
      (∃ r', (s₂.table t).get k = some r' ∧ R.fixed t r' = R.fixed t r) ∨
      ((s₂.table t).get k = none ∧ k ∈ s₂.retired t)
  | .key _, _, _ => True

theorem evolves_of_agree {r : R.Row} (h : Agree r s₁ s₂) : Evolves r s₁ s₂ := by
  cases r with
  | key u => trivial
  | row t k =>
    refine ⟨fun hr => ⟨h.2.mp hr, fun hn => h.1 ▸ hn⟩, fun r hr => .inl ⟨r, h.1 ▸ hr, rfl⟩⟩

theorem evolves_trans {r : R.Row} (h₁ : Evolves r s₁ s₂) (h₂ : Evolves r s₂ s₃) :
    Evolves r s₁ s₃ := by
  cases r with
  | key u => trivial
  | row t k =>
    refine ⟨fun hr => ?gone, fun r hr => ?kept⟩
    case gone =>
      have ⟨hr₂, hn₂⟩ := h₁.1 hr
      have ⟨hr₃, hn₃⟩ := h₂.1 hr₂
      exact ⟨hr₃, hn₃ ∘ hn₂⟩
    case kept =>
      rcases h₁.2 r hr with ⟨r₂, hr₂, hf₂⟩ | ⟨hn₂, hr₂⟩
      · rcases h₂.2 r₂ hr₂ with ⟨r₃, hr₃, hf₃⟩ | h₃
        · exact .inl ⟨r₃, hr₃, hf₃.trans hf₂⟩
        · exact .inr h₃
      · have ⟨hr₃, hn₃⟩ := h₂.1 hr₂
        exact .inr ⟨hn₃ hn₂, hr₃⟩

def Same (f : R.Facet) (s₁ s₂ : R.Database) : Prop :=
  ∀ k, ((s₁.table (R.of f)).get k).bind (R.obs f k) = ((s₂.table (R.of f)).get k).bind (R.obs f k)

def valid (s : R.Database) : Bool :=
  R.names.all fun t => (s.table t).rows.all fun r =>
    (R.refs t r.2).all fun ref => ((s.table ref.1).get ref.2).isSome

theorem valid_ref (h : s.valid) {r : R.Rec t} (hr : (s.table t).get k = some r) {ref : R.Name × ℕ}
    (href : ref ∈ R.refs t r) : ∃ r', (s.table ref.1).get ref.2 = some r' := by
  simp only [valid, List.all_eq_true] at h
  exact Option.isSome_iff_exists.mp <| h t (R.mem_names t) (k, r) (Table.mem_rows_iff.mpr hr) ref href

end Relational.Database

namespace Relational

abbrev schema (R : Relational) : Schema where
  State   := R.Database
  Row     := R.Row
  Seq     := R.Name
  Facet   := R.Facet
  Exn     := R.Exn
  Agree   := Database.Agree
  agree   := Database.agree_equivalence
  Same    := Database.Same
  same f  := ⟨fun _ _ => rfl, fun h k => (h k).symm, fun h₁ h₂ k => (h₁ k).trans (h₂ k)⟩
  same_of {f s₁ s₂ t₁ t₂} h ha k := by
    rcases ha (.row (R.of f) k) with ⟨h₁, h₂⟩ | h'
    · rw [← h₁.1, ← h₂.1, h k]
    · rw [h'.1]
  Evolves := Database.Evolves
  evolves_of_agree := Database.evolves_of_agree
  evolves_trans    := Database.evolves_trans
  valid   := Database.valid
  invalid := ⟨R.integrityError, false⟩
  contained e := { e with aborted := false }

end Relational
