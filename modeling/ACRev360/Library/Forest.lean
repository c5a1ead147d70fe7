import Mathlib.Algebra.BigOperators.Group.List.Basic
import Mathlib.Logic.Relation
import Mathlib.Order.WellFounded

-- Trees that are given by the children of each node, and a recursion over them that need not end.

variable {α β : Type*}

namespace Forest

variable {children : α → List α} {items : α → List β} {a b c d : α} {n m : ℕ}

-- The items of a node, then those of its children. Out of fuel, the recursion has not returned.
def collect (children : α → List α) (items : α → List β) : ℕ → α → Option (List β)
  | 0, _ => none
  | fuel + 1, a => do
    let below ← (children a).mapM (collect children items fuel)
    return items a ++ below.flatten

abbrev Child (children : α → List α) (c a : α) : Prop :=
  c ∈ children a

-- The node and its descendants.
abbrev Below (children : α → List α) : α → α → Prop :=
  Relation.ReflTransGen fun a c => c ∈ children a

theorem mapM_some {f : α → Option β} : ∀ {as : List α} {bs : List β}, as.mapM f = some bs →
    List.Forall₂ (fun a b => f a = some b) as bs
  | [], bs, h => by
    obtain rfl : [] = bs := by simpa using h
    exact .nil
  | a :: as, bs, h => by
    rw [List.mapM_cons] at h
    have ⟨b, hb, h⟩ := Option.bind_eq_some_iff.mp h
    have ⟨bs', hbs, h⟩ := Option.bind_eq_some_iff.mp h
    cases h
    exact .cons hb <| mapM_some hbs

theorem mapM_of_forall₂ {f : α → Option β} {as : List α} {bs : List β}
    (h : List.Forall₂ (fun a b => f a = some b) as bs) : as.mapM f = some bs := by
  induction h with
  | nil => rfl
  | cons ha _ hi => simp [List.mapM_cons, ha, hi]

theorem collect_succ {l : List β} : collect children items (n + 1) a = some l ↔
    ∃ below, List.Forall₂ (fun c l => collect children items n c = some l) (children a) below ∧
      l = items a ++ below.flatten where
  mp h  := by
    have ⟨below, hbelow, h⟩ := Option.bind_eq_some_iff.mp h
    cases h
    exact ⟨below, mapM_some hbelow, rfl⟩
  mpr h := by
    have ⟨below, hbelow, hl⟩ := h
    rw [collect, mapM_of_forall₂ hbelow, hl]
    rfl

-- More fuel changes nothing.
theorem collect_mono {l : List β} (h : collect children items n a = some l) (hle : n ≤ m) :
    collect children items m a = some l := by
  induction n generalizing a m l with
  | zero => contradiction
  | succ n hi =>
    obtain ⟨m, rfl⟩ : ∃ k, m = k + 1 := ⟨m - 1, by omega⟩
    have ⟨below, hbelow, hl⟩ := collect_succ.mp h
    exact collect_succ.mpr ⟨below, hbelow.imp fun _ _ hc => hi hc (by omega), hl⟩

-- The recursion returns if there is no infinite descent.
theorem exists_collect (h : Acc (Child children) a) :
    ∃ fuel l, ∀ n, fuel ≤ n → collect children items n a = some l := by
  induction h with
  | intro a _ hi =>
    have all : ∀ cs : List α, cs ⊆ children a → ∃ fuel below,
        List.Forall₂ (fun c l => collect children items fuel c = some l) cs below := by
      intro cs hcs
      induction cs with
      | nil => exact ⟨0, [], .nil⟩
      | cons c cs ih =>
        have ⟨hc, hcs⟩ := List.cons_subset.mp hcs
        have ⟨fuel, l, hl⟩ := hi c hc
        have ⟨fuel', below, hbelow⟩ := ih hcs
        refine ⟨max fuel fuel', l :: below, .cons (hl _ <| le_max_left ..) <| hbelow.imp fun _ _ hc => ?_⟩
        exact collect_mono hc <| le_max_right ..
    have ⟨fuel, below, hbelow⟩ := all _ <| List.Subset.refl _
    exact ⟨fuel + 1, _, fun n hn => collect_mono (collect_succ.mpr ⟨below, hbelow, rfl⟩) hn⟩

theorem mem_flatten {P : α → β → Prop} {cs : List α} {below : List (List β)}
    (h : List.Forall₂ (fun c l => ∀ x, x ∈ l ↔ P c x) cs below) {x : β} :
    x ∈ below.flatten ↔ ∃ c ∈ cs, P c x := by
  induction h with
  | nil => simp
  | cons hc _ hi => rw [List.flatten_cons, List.mem_append, hi, hc, List.exists_mem_cons_iff]

theorem mem_collect {l : List β} (h : collect children items n a = some l) {x : β} :
    x ∈ l ↔ ∃ c, Below children a c ∧ x ∈ items c := by
  induction n generalizing a l x with
  | zero => contradiction
  | succ n hi =>
    have ⟨below, hbelow, hl⟩ := collect_succ.mp h
    rw [hl, List.mem_append, mem_flatten <| hbelow.imp fun c l hc x => hi hc]
    constructor
    · rintro (hx | ⟨c, hc, d, hd, hx⟩)
      · exact ⟨a, .refl, hx⟩
      · exact ⟨d, .head hc hd, hx⟩
    · rintro ⟨d, hd, hx⟩
      rcases hd.cases_head with rfl | ⟨c, hc, hd⟩
      · exact .inl hx
      · exact .inr ⟨c, hc, d, hd, hx⟩

theorem mem_collected {cs : List α} {below : List (List β)}
    (h : List.Forall₂ (fun c l => collect children items n c = some l) cs below) {x : β} :
    x ∈ below.flatten ↔ ∃ c ∈ cs, ∃ d, Below children c d ∧ x ∈ items d :=
  mem_flatten <| h.imp fun _ _ hc _ => mem_collect hc

-- No node is below one of its children.
theorem not_below_child (h : WellFounded (Child children)) (hc : c ∈ children a) : ¬Below children c a := by
  intro hca
  have hcycle : Relation.TransGen (Child children) a a :=
    Relation.transGen_swap.mp <| .head' hc hca
  exact h.transGen.irrefl.irrefl a hcycle

-- Each node has one parent.
def Unique (children : α → List α) : Prop :=
  ∀ ⦃c a b⦄, c ∈ children a → c ∈ children b → a = b

-- Two nodes above one are above each other.
theorem Unique.below (h : Unique children) (ha : Below children a c) (hb : Below children b c) :
    Below children a b ∨ Below children b a := by
  induction ha with
  | refl => exact .inr hb
  | tail ha hc hi =>
    rcases hb.cases_tail with rfl | ⟨d, hd, hc'⟩
    · exact .inl <| ha.tail hc
    · exact hi <| h hc hc' ▸ hd

-- Nodes below different children of one are different.
theorem Unique.disjoint (h : Unique children) (hwf : WellFounded (Child children)) (hc : c ∈ children a)
    (hd : d ∈ children a) (hcb : Below children c b) (hdb : Below children d b) : c = d := by
  have aux : ∀ {c d}, c ∈ children a → d ∈ children a → Below children c d → c = d := by
    intro c d hc hd hcd
    rcases hcd.cases_tail with rfl | ⟨e, he, hde⟩
    · rfl
    · exact absurd (h hd hde ▸ he) <| not_below_child hwf hc
  rcases h.below hcb hdb with hcd | hdc
  · exact aux hc hd hcd
  · exact (aux hd hc hdc).symm

-- In a forest, no item is collected twice.
theorem nodup_collect (hwf : WellFounded (Child children)) (h : Unique children)
    (hchildren : ∀ a, (children a).Nodup) (hitems : ∀ a, (items a).Nodup)
    (hdisjoint : ∀ {a b x}, x ∈ items a → x ∈ items b → a = b) {l : List β}
    (hl : collect children items n a = some l) : l.Nodup := by
  induction n generalizing a l with
  | zero => contradiction
  | succ n hi =>
    obtain ⟨below, hbelow, rfl⟩ := collect_succ.mp hl
    have flat : ∀ {cs : List α} {below : List (List β)}, cs ⊆ children a → cs.Nodup →
        List.Forall₂ (fun c l => collect children items n c = some l) cs below → below.flatten.Nodup := by
      intro cs below hcs hnodup hbelow
      induction hbelow with
      | nil => exact .nil
      | cons hc hrest ih =>
        have ⟨hcmem, hcs⟩ := List.cons_subset.mp hcs
        have ⟨hnot, hnodup⟩ := List.nodup_cons.mp hnodup
        rw [List.flatten_cons]
        refine List.nodup_append.mpr ⟨hi hc, ih hcs hnodup, fun x hx y hy hxy => ?_⟩
        subst hxy
        have ⟨e, he, hxe⟩ := (mem_collect hc).mp hx
        have ⟨d, hd, e', he', hxe'⟩ := (mem_collected hrest).mp hy
        obtain rfl := hdisjoint hxe hxe'
        exact hnot <| h.disjoint hwf hcmem (hcs hd) he he' ▸ hd
    refine List.nodup_append.mpr ⟨hitems a, flat (List.Subset.refl _) (hchildren a) hbelow, fun x hx y hy hxy => ?_⟩
    subst hxy
    have ⟨c, hc, d, hd, hxd⟩ := (mem_collected hbelow).mp hy
    exact not_below_child hwf hc <| hdisjoint hx hxd ▸ hd

-- A weight that a node has from its items and its children is the sum over what is collected.
theorem sum_collect {M : Type*} [AddCommMonoid M] {f : β → M} {w : α → M} {l : List β}
    (hw : ∀ c, Below children a c → w c = ((items c).map f).sum + ((children c).map w).sum)
    (h : collect children items n a = some l) : (l.map f).sum = w a := by
  induction n generalizing a l with
  | zero => contradiction
  | succ n hi =>
    obtain ⟨below, hbelow, rfl⟩ := collect_succ.mp h
    have sum : ∀ {cs : List α} {below : List (List β)}, cs ⊆ children a →
        List.Forall₂ (fun c l => collect children items n c = some l) cs below →
        (below.flatten.map f).sum = (cs.map w).sum := by
      intro cs below hcs hbelow
      induction hbelow with
      | nil => rfl
      | cons hc _ ih =>
        have ⟨hmem, hcs⟩ := List.cons_subset.mp hcs
        rw [List.flatten_cons, List.map_append, List.sum_append, ih hcs, List.map_cons, List.sum_cons,
          hi (fun d hd => hw d <| .head hmem hd) hc]
    rw [List.map_append, List.sum_append, sum (List.Subset.refl _) hbelow, hw a .refl]

end Forest
