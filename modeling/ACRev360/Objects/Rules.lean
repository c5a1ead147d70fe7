import ACRev360.Library.Total
import ACRev360.Objects.Queries

namespace ACRev360

open Relational

-- The rules of the statements that the services are written with.

variable {α : Type}

section Keeps

variable {P : Db → Db → Prop}

theorem store_keeps {p s : ℕ} {q : ℚ} : (store q : Service (Numeric p s)).Keeps P := by
  unfold store
  split
  · exact .ret
  · exact keeps_abort

theorem storeText_keeps {width : ℕ} {text : String} : (storeText width text).Keeps P := by
  unfold storeText
  split
  · exact .ret
  · exact keeps_abort

-- What runs under a condition comes before the rest of a service.
theorem when_keeps {c : Prop} [Decidable c] {p : Service PUnit} {f : PUnit → Service α}
    (hp : p.Keeps P) (h : (f ⟨⟩).Keeps P) : (if c then p >>= f else f ⟨⟩).Keeps P := by
  split
  · exact .bind hp fun _ => h
  · exact h

theorem unless_keeps {c : Prop} [Decidable c] {p : Service PUnit} {f : PUnit → Service α}
    (hp : p.Keeps P) (h : (f ⟨⟩).Keeps P) : (if c then f ⟨⟩ else p >>= f).Keeps P := by
  split
  · exact h
  · exact .bind hp fun _ => h

theorem forM_keeps {β : Type} {f : β → Service PUnit} {l : List β} (h : ∀ a ∈ l, (f a).Keeps P) :
    (l.forM f).Keeps P := by
  induction l with
  | nil => exact .ret
  | cons a l hi => exact .bind (h a <| .head _) fun _ => hi fun b hb => h b <| .tail _ hb

variable [Std.Refl P]

theorem load_keeps {t : Name} {k : ℕ} {sees : List Facet} : (load t k sees).Keeps P := by
  refine .bind keeps_select fun r => ?_
  split
  · exact .ret
  · exact keeps_refuse

theorem getObject_keeps {t : Name} {k : ℕ} {p : Rec t → Bool} {sees : List Facet} :
    (getObject t k p sees).Keeps P := by
  refine .bind keeps_select fun r => ?_
  split
  · split
    · exact .ret
    · exact keeps_refuse
  · exact keeps_refuse

theorem getForUpdate_keeps {t : Name} {k : ℕ} : (getForUpdate t k).Keeps P := by
  refine .bind keeps_selectForUpdate fun r => ?_
  split
  · exact .ret
  · exact keeps_refuse

theorem getOrCreate_keeps {find : Db → Option ℕ} {make : Service ℕ} (h : make.Keeps P) :
    (getOrCreate find make).Keeps P := by
  refine .bind keeps_select fun found => ?_
  split
  · exact .ret
  · refine .bind (.attempt <| .atomic h) fun r => ?_
    split
    · exact .ret
    · refine when_keeps .raise <| .bind keeps_select fun found => ?_
      split
      · exact .ret
      · exact .raise

end Keeps

theorem when_maintains {I : Db → Prop} {c : Prop} [Decidable c] {p : Service PUnit}
    {f : PUnit → Service α} (hp : p.Maintains I) (h : (f ⟨⟩).Maintains I) :
    (if c then p >>= f else f ⟨⟩).Maintains I := by
  split
  · exact .bind hp fun _ => h
  · exact h

section Post

variable {s : Db} {t : Name} {k : ℕ}

theorem post_refuse {e : Error} {Q : Except relational.Exn α → Db → Prop}
    (h : Q (.error ⟨e, false⟩) s) : Prog.Post (refuse e : Service α) s Q :=
  .raise h

theorem post_store {p d : ℕ} {q : ℚ} {Q : Except relational.Exn (Numeric p d) → Db → Prop}
    (h : ∀ n : Numeric p d, n.units = roundHalfAway (q * 10 ^ d) → Q (.ok n) s)
    (he : ∀ e, Q (.error e) s) : Prog.Post (store q) s Q := by
  unfold store
  split
  case h_1 n hn => exact .ret <| h n <| Numeric.ofRat?_units hn
  case h_2 => exact .raise <| he _

theorem post_storeText {width : ℕ} {text : String} {Q : Except relational.Exn (VarChar width) → Db → Prop}
    (h : ∀ v : VarChar width, fitText width text = some v.val → Q (.ok v) s) (he : ∀ e, Q (.error e) s) :
    Prog.Post (storeText width text) s Q := by
  unfold storeText
  split
  case h_1 t ht => exact .ret <| h ⟨t, fitText_idem ht⟩ ht
  case h_2 => exact .raise <| he _

theorem post_when {c : Prop} [Decidable c] {p : Service PUnit} {f : PUnit → Service α}
    {Q : Except relational.Exn α → Db → Prop} (h : c → Prog.Post (p >>= f) s Q)
    (h' : ¬c → Prog.Post (f ⟨⟩) s Q) : Prog.Post (if c then p >>= f else f ⟨⟩) s Q := by
  split
  · exact h ‹_›
  · exact h' ‹_›

-- What holds whether or not the step is taken is all that the rest of the program needs.
theorem post_when_seq {c : Prop} [Decidable c] {p : Service PUnit} {f : PUnit → Service α} {R : Db → Prop}
    {Q : α → Db → Prop} (h : c → Prog.Post p s (Prog.OnReturn fun _ t => R t)) (h' : ¬c → R s)
    (hf : ∀ t, R t → Prog.Post (f ⟨⟩) t (Prog.OnReturn Q)) :
    Prog.Post (if c then p >>= f else f ⟨⟩) s (Prog.OnReturn Q) :=
  post_when (fun hc => .seq (h hc) fun _ => hf) fun hc => hf s (h' hc)

theorem post_unless {c : Prop} [Decidable c] {p : Service PUnit} {f : PUnit → Service α}
    {Q : Except relational.Exn α → Db → Prop} (h : c → Prog.Post (f ⟨⟩) s Q)
    (h' : ¬c → Prog.Post (p >>= f) s Q) : Prog.Post (if c then f ⟨⟩ else p >>= f) s Q := by
  split
  · exact h ‹_›
  · exact h' ‹_›

-- The rest of a service runs only if the guard does not raise.
theorem post_guard {c : Prop} [Decidable c] {e : relational.Exn} {f : PUnit → Service α}
    {Q : Except relational.Exn α → Db → Prop} (he : ∀ e, Q (.error e) s)
    (h : ¬c → Prog.Post (f ⟨⟩) s Q) : Prog.Post (if c then Prog.raise e >>= f else f ⟨⟩) s Q :=
  post_when (fun _ => .bind <| .raise <| he _) h

theorem post_load {sees : List Facet} {Q : Except relational.Exn (Rec t) → Db → Prop}
    (h : ∀ r, (s.table t).get k = some r → Q (.ok r) s) (he : ∀ e, Q (.error e) s) :
    Prog.Post (load t k sees) s Q := by
  refine .bind <| post_select ?_
  cases hk : (s.table t).get k with
  | none => exact .raise <| he _
  | some r => exact .ret <| h r hk

theorem post_getObject {p : Rec t → Bool} {sees : List Facet}
    {Q : Except relational.Exn (Loaded (Rec t)) → Db → Prop}
    (h : ∀ r, (s.table t).get k = some r → p r → Q (.ok ⟨k, r⟩) s) (he : ∀ e, Q (.error e) s) :
    Prog.Post (getObject t k p sees) s Q := by
  refine .bind <| post_select ?_
  cases hk : (s.table t).get k with
  | none => exact .raise <| he _
  | some r =>
    simp only
    split
    case isTrue hp => exact .ret <| h r hk hp
    case isFalse => exact .raise <| he _

theorem post_getForUpdate {Q : Except relational.Exn (Rec t) → Db → Prop}
    (h : ∀ r, (s.table t).get k = some r → Q (.ok r) s) (he : ∀ e, Q (.error e) s) :
    Prog.Post (getForUpdate t k) s Q := by
  refine .bind <| post_selectForUpdate ?_
  cases hk : (s.table t).get k with
  | none => exact .raise <| he _
  | some r => exact .ret <| h r hk

-- Alone, a row that was not found before has not been inserted since.
theorem post_getOrCreate_all {find : Db → Option ℕ} {make : Service ℕ}
    {Q : Except relational.Exn (ℕ × Bool) → Db → Prop} (h : ∀ k, find s = some k → Q (.ok (k, false)) s)
    (hn : find s = none → Prog.Post make s (Prog.OnReturn fun k t => Q (.ok (k, true)) t))
    (he : ∀ e, find s = none → e.aborted = false → Q (.error e) s) :
    Prog.Post (getOrCreate find make) s Q := by
  refine .bind <| post_select ?_
  simp only
  cases hf : find s with
  | some k => exact .ret <| h k hf
  | none =>
    refine .bind <| .attempt <| .atomic <| (hn hf).mono fun r t hr => ?_
    cases r with
    | ok k => exact .ret hr
    | error e =>
      refine post_when (fun _ => .bind <| .raise <| he _ hf rfl) fun _ => .bind <| post_select ?_
      rw [hf]
      exact .raise <| he _ hf rfl

theorem post_getOrCreate {find : Db → Option ℕ} {make : Service ℕ} {Q : ℕ × Bool → Db → Prop}
    (h : ∀ k, find s = some k → Q (k, false) s)
    (hn : find s = none → Prog.Post make s (Prog.OnReturn fun k t => Q (k, true) t)) :
    Prog.Post (getOrCreate find make) s (Prog.OnReturn Q) :=
  post_getOrCreate_all h hn fun _ _ _ => trivial

end Post

section Runs

variable {s : Db} {t : Name} {k : ℕ}

theorem runs_store {p d : ℕ} {q : ℚ} {Q : Except relational.Exn (Numeric p d) → Db → Prop}
    (h : ∀ n : Numeric p d, Numeric.ofRat? q = some n → Q (.ok n) s)
    (he : (Numeric.ofRat? q : Option (Numeric p d)) = none → Q (.error ⟨.dataError, true⟩) s) :
    Runs (store q) s Q := by
  unfold store
  split
  case h_1 n hn => exact .ret <| h n hn
  case h_2 hn => exact .raise <| he hn

theorem runs_storeText {width : ℕ} {text : String}
    {Q : Except relational.Exn (VarChar width) → Db → Prop}
    (h : ∀ v : VarChar width, fitText width text = some v.val → Q (.ok v) s)
    (he : fitText width text = none → Q (.error ⟨.dataError, true⟩) s) :
    Runs (storeText width text) s Q := by
  unfold storeText
  split
  case h_1 t ht => exact .ret <| h ⟨t, fitText_idem ht⟩ ht
  case h_2 hn => exact .raise <| he hn

theorem runs_when {c : Prop} [Decidable c] {p : Service PUnit} {f : PUnit → Service α}
    {Q : Except relational.Exn α → Db → Prop} (h : c → Runs (p >>= f) s Q)
    (h' : ¬c → Runs (f ⟨⟩) s Q) : Runs (if c then p >>= f else f ⟨⟩) s Q := by
  split
  · exact h ‹_›
  · exact h' ‹_›

theorem runs_load {sees : List Facet} {r : Rec t} {Q : Except relational.Exn (Rec t) → Db → Prop}
    (hr : (s.table t).get k = some r) (h : Q (.ok r) s) : Runs (load t k sees) s Q := by
  refine .bind <| runs_select ?_
  rw [hr]
  exact .ret h

theorem runs_getObject {p : Rec t → Bool} {sees : List Facet}
    {Q : Except relational.Exn (Loaded (Rec t)) → Db → Prop}
    (h : ∀ r, (s.table t).get k = some r → p r → Q (.ok ⟨k, r⟩) s)
    (he : (∀ r, (s.table t).get k = some r → ¬p r) → Q (.error ⟨.notFound, false⟩) s) :
    Runs (getObject t k p sees) s Q := by
  refine .bind <| runs_select ?_
  cases hk : (s.table t).get k with
  | none => exact .raise <| he <| by simp [hk]
  | some r =>
    simp only
    split
    case isTrue hp => exact .ret <| h r hk hp
    case isFalse hp => exact .raise <| he <| by simpa [hk] using hp

theorem runs_getForUpdate {r : Rec t} {Q : Except relational.Exn (Rec t) → Db → Prop}
    (hr : (s.table t).get k = some r) (h : Q (.ok r) s) : Runs (getForUpdate t k) s Q := by
  refine .bind <| runs_selectForUpdate ?_
  rw [hr]
  exact .ret h

theorem runs_getOrCreate {find : Db → Option ℕ} {make : Service ℕ}
    {Q : Except relational.Exn (ℕ × Bool) → Db → Prop} (h : ∀ k, find s = some k → Q (.ok (k, false)) s)
    (hn : find s = none → Runs make s fun r t => match r with
      | .ok k    => Q (.ok (k, true)) t
      | .error e => Q (.error { e with aborted := false }) s) :
    Runs (getOrCreate find make) s Q := by
  refine .bind <| runs_select ?_
  simp only
  cases hf : find s with
  | some k => exact .ret <| h k hf
  | none =>
    refine .bind <| .attempt <| .atomic <| (hn hf).mono fun r t hr => ?_
    cases r with
    | ok k => exact .ret hr
    | error e =>
      refine runs_when (fun _ => .bind <| .raise hr) fun _ => .bind <| runs_select ?_
      rw [hf]
      exact .raise hr

end Runs

section Wp

variable {L : Rely relational.schema} {c : Db} {x : Txn relational.schema} {seen : List Facet}
  {t : Name} {k : ℕ}

theorem wp_store {p d : ℕ} {q : ℚ} {Q : Ends relational.schema (Numeric p d)}
    (h : ∀ n : Numeric p d, n.units = roundHalfAway (q * 10 ^ d) → Q (.ok n) c x seen)
    (he : ∀ e, Q (.error e) c x seen) : (store q).Wp L Q c x seen := by
  unfold store
  split
  case h_1 n hn => exact .ret <| h n <| Numeric.ofRat?_units hn
  case h_2 => exact .raise <| he _

theorem wp_when {p : Prop} [Decidable p] {g : Service PUnit} {f : PUnit → Service α}
    {Q : Ends relational.schema α} (h : p → (g >>= f).Wp L Q c x seen)
    (h' : ¬p → (f ⟨⟩).Wp L Q c x seen) : (if p then g >>= f else f ⟨⟩).Wp L Q c x seen := by
  split
  · exact h ‹_›
  · exact h' ‹_›

theorem wp_guard {p : Prop} [Decidable p] {e : relational.Exn} {f : PUnit → Service α}
    {Q : Ends relational.schema α} (he : ∀ e, Q (.error e) c x seen)
    (h : ¬p → (f ⟨⟩).Wp L Q c x seen) : (if p then Prog.raise e >>= f else f ⟨⟩).Wp L Q c x seen :=
  wp_when (fun _ => .bind <| .raise <| he _) h

theorem wp_load {sees : List Facet} {Q : Ends relational.schema (Rec t)}
    (h : ∀ r, ((x.pend c).table t).get k = some r →
      ∀ d, Interf L x (sees ++ seen) c d → Q (.ok r) d x (sees ++ seen))
    (he : ∀ e d, Interf L x (sees ++ seen) c d → Q (.error e) d x (sees ++ seen)) :
    (load t k sees).Wp L Q c x seen := by
  refine .bind <| wp_select fun d hd => ?_
  cases hk : ((x.pend c).table t).get k with
  | none => exact .raise <| he _ d hd
  | some r => exact .ret <| h r hk d hd

theorem wp_getObject {p : Rec t → Bool} {sees : List Facet}
    {Q : Ends relational.schema (Loaded (Rec t))}
    (h : ∀ r, ((x.pend c).table t).get k = some r → p r →
      ∀ d, Interf L x (sees ++ seen) c d → Q (.ok ⟨k, r⟩) d x (sees ++ seen))
    (he : ∀ e d, Interf L x (sees ++ seen) c d → Q (.error e) d x (sees ++ seen)) :
    (getObject t k p sees).Wp L Q c x seen := by
  refine .bind <| wp_select fun d hd => ?_
  cases hk : ((x.pend c).table t).get k with
  | none => exact .raise <| he _ d hd
  | some r =>
    simp only
    split
    case isTrue hp => exact .ret <| h r hk hp d hd
    case isFalse => exact .raise <| he _ d hd

theorem wp_getForUpdate {Q : Ends relational.schema (Rec t)}
    (h : ∀ r, ((x.pend c).table t).get k = some r → L.takes x c (.look [.row t k] []) →
      ∀ d, Interf L (x.add (.look [.row t k] [])) seen c d →
        Q (.ok r) d (x.add (.look [.row t k] [])) seen)
    (he : ∀ e d, Interf L x seen c d → Q (.error e) d x seen) :
    (getForUpdate t k).Wp L Q c x seen :=
  .bind <| wp_selectForUpdate (fun r hr ht d hd => .ret <| h r hr ht d hd)
    fun _ d hd => .raise <| he _ d hd

end Wp

end ACRev360
