import Mathlib.Algebra.BigOperators.Group.List.Basic
import Mathlib.Data.List.Induction
import Mathlib.Data.List.Nodup

variable {α β κ : Type} [DecidableEq κ]

-- How the elements of a list become one for each key: the first starts it, and the later ones are added.
structure Grouping (α β κ : Type) where
  key       : α → κ
  tag       : β → κ
  start     : α → β
  add       : β → α → β
  tag_start : ∀ a, tag (start a) = key a
  tag_add   : ∀ b a, tag (add b a) = tag b

namespace Grouping

variable {g : Grouping α β κ} {l : List α} {acc : List β} {a : α} {b : β}

def step (g : Grouping α β κ) (acc : List β) (a : α) : List β :=
  if acc.any (g.tag · = g.key a) then acc.map fun b => if g.tag b = g.key a then g.add b a else b
  else acc ++ [g.start a]

def merge (g : Grouping α β κ) (l : List α) : List β :=
  l.foldl g.step []

-- What the elements of a key come to.
def total (g : Grouping α β κ) : List α → Option β
  | []     => none
  | a :: l => some <| l.foldl g.add (g.start a)

theorem any_tag : acc.any (g.tag · = g.key a) ↔ g.key a ∈ acc.map g.tag := by
  simp [List.any_eq_true]

theorem step_of_mem (h : g.key a ∈ acc.map g.tag) :
    g.step acc a = acc.map fun b => if g.tag b = g.key a then g.add b a else b :=
  if_pos <| any_tag.mpr h

theorem step_of_not_mem (h : g.key a ∉ acc.map g.tag) : g.step acc a = acc ++ [g.start a] :=
  if_neg <| mt any_tag.mp h

theorem tags_step : (g.step acc a).map g.tag =
    if g.key a ∈ acc.map g.tag then acc.map g.tag else acc.map g.tag ++ [g.key a] := by
  split
  case isTrue h =>
    rw [step_of_mem h, List.map_map]
    refine List.map_congr_left fun b _ => ?_
    rw [Function.comp_apply]
    split
    · rw [g.tag_add]
    · rfl
  case isFalse h => rw [step_of_not_mem h, List.map_append, List.map_singleton, g.tag_start]

theorem merge_concat : g.merge (l ++ [a]) = g.step (g.merge l) a := by
  rw [merge, merge, List.foldl_append]
  rfl

theorem nodup_tags : ((g.merge l).map g.tag).Nodup := by
  induction l using List.reverseRecOn with
  | nil => exact .nil
  | append_singleton l a hi =>
    rw [merge_concat, tags_step]
    split
    case isTrue => exact hi
    case isFalse h => exact List.nodup_append.mpr ⟨hi, by simp, fun x hx y hy he =>
      h <| List.mem_singleton.mp hy ▸ he ▸ hx⟩

theorem mem_tags {k : κ} : k ∈ (g.merge l).map g.tag ↔ k ∈ l.map g.key := by
  induction l using List.reverseRecOn with
  | nil => rfl
  | append_singleton l a hi =>
    rw [merge_concat, tags_step, List.map_append, List.map_singleton, List.mem_append, List.mem_singleton]
    split
    case isTrue h =>
      rw [hi]
      exact ⟨.inl, fun hk => hk.elim id fun hk => hk ▸ hi.mp (hk ▸ h)⟩
    case isFalse => rw [List.mem_append, List.mem_singleton, hi]

omit [DecidableEq κ] in
theorem total_concat : g.total (l ++ [a]) = some ((g.total l).elim (g.start a) (g.add · a)) := by
  cases l with
  | nil => rfl
  | cons a' l => rw [List.cons_append, total, List.foldl_append]; rfl

-- The list has one element for each key, which is what the elements of the key come to.
theorem mem_merge : b ∈ g.merge l ↔ g.total (l.filter (g.key · = g.tag b)) = some b := by
  induction l using List.reverseRecOn generalizing b with
  | nil => simp [merge, total]
  | append_singleton l a hi =>
    rw [merge_concat, List.filter_append]
    by_cases hb : g.key a = g.tag b
    case neg =>
      rw [List.filter_singleton, decide_eq_false hb, cond_false, List.append_nil, ← hi]
      by_cases ha : g.key a ∈ (g.merge l).map g.tag
      case neg =>
        rw [step_of_not_mem ha, List.mem_append, List.mem_singleton]
        exact or_iff_left fun he => hb <| by rw [he, g.tag_start]
      case pos =>
        rw [step_of_mem ha, List.mem_map]
        constructor
        · rintro ⟨b', hb', rfl⟩
          split at hb
          case isTrue ht => exact absurd (ht.symm.trans (g.tag_add _ _).symm) hb
          case isFalse ht => rwa [if_neg ht]
        · exact fun hmem => ⟨b, hmem, if_neg (Ne.symm hb)⟩
    case pos =>
      rw [List.filter_singleton, decide_eq_true hb, cond_true, total_concat, Option.some.injEq]
      by_cases ha : g.key a ∈ (g.merge l).map g.tag
      case neg =>
        have hnone : l.filter (g.key · = g.tag b) = [] := List.filter_eq_nil_iff.mpr fun x hx he => by
          refine ha <| mem_tags.mpr <| List.mem_map.mpr ⟨x, hx, ?_⟩
          rw [of_decide_eq_true he, hb]
        rw [step_of_not_mem ha, List.mem_append, List.mem_singleton, hnone]
        refine ⟨fun h => ?_, fun h => .inr h.symm⟩
        rcases h with h | h
        · exact absurd (hb ▸ List.mem_map_of_mem h) ha
        · exact h.symm
      case pos =>
        have ⟨b₀, hb₀, ht₀⟩ := List.mem_map.mp ha
        have htotal := hi.mp hb₀
        rw [ht₀, hb] at htotal
        rw [step_of_mem ha, List.mem_map, htotal, Option.elim_some]
        constructor
        · rintro ⟨b', hb', hf⟩
          have ht : g.tag b' = g.tag b₀ := by
            rw [ht₀, hb, ← hf]
            split
            · exact (g.tag_add _ _).symm
            · rfl
          rw [List.inj_on_of_nodup_map nodup_tags hb' hb₀ ht, if_pos ht₀] at hf
          exact hf
        · exact fun he => ⟨b₀, hb₀, by rw [if_pos ht₀, he]⟩

-- What holds of each element from its start.
theorem forall_merge {P : β → Prop} (hstart : ∀ a ∈ l, P (g.start a)) (hadd : ∀ b, ∀ a ∈ l, P b → P (g.add b a)) :
    ∀ b ∈ g.merge l, P b := by
  induction l using List.reverseRecOn with
  | nil => exact List.forall_mem_nil _
  | append_singleton l a hi =>
    rw [List.forall_mem_append] at hstart
    have hi := hi hstart.1 fun b a ha => hadd b a <| List.mem_append_left _ ha
    rw [merge_concat]
    by_cases ha : g.key a ∈ (g.merge l).map g.tag
    case neg =>
      rw [step_of_not_mem ha]
      exact List.forall_mem_append.mpr ⟨hi, List.forall_mem_singleton.mpr <| hstart.2 a <| .head _⟩
    case pos =>
      rw [step_of_mem ha]
      refine List.forall_mem_map.mpr fun b hb => ?_
      split
      · exact hadd b a (by simp) (hi b hb)
      · exact hi b hb

-- One grouping is the image of another one.
theorem merge_map {α' β' : Type} {g' : Grouping α' β' κ} {f : α → α'} {h : β → β'} (hkey : ∀ a, g'.key (f a) = g.key a)
    (htag : ∀ b, g'.tag (h b) = g.tag b) (hstart : ∀ a, g'.start (f a) = h (g.start a))
    (hadd : ∀ b a, g'.add (h b) (f a) = h (g.add b a)) : g'.merge (l.map f) = (g.merge l).map h := by
  induction l using List.reverseRecOn with
  | nil => rfl
  | append_singleton l a hi =>
    have htags : ((g.merge l).map h).map g'.tag = (g.merge l).map g.tag := by
      rw [List.map_map]
      exact List.map_congr_left fun b _ => htag b
    rw [List.map_append, List.map_singleton, merge_concat, merge_concat, hi]
    by_cases ha : g.key a ∈ (g.merge l).map g.tag
    case neg =>
      rw [step_of_not_mem ha, step_of_not_mem (by rwa [htags, hkey]), List.map_append, hstart]
      rfl
    case pos =>
      rw [step_of_mem ha, step_of_mem (by rwa [htags, hkey]), List.map_map, List.map_map]
      refine List.map_congr_left fun b _ => ?_
      rw [Function.comp_apply, Function.comp_apply, htag, hkey]
      split
      · exact hadd b a
      · rfl

end Grouping

section Fibers

variable {M : Type} [AddCommMonoid M] {key : α → κ} {f : α → M} {keys : List κ} {l : List α}

theorem sum_indicator {k : κ} {m : M} (hk : keys.Nodup) (h : k ∈ keys) :
    (keys.map fun k' => if k = k' then m else 0).sum = m := by
  induction keys with
  | nil => contradiction
  | cons k' keys hi =>
    obtain ⟨hnot, hk⟩ := List.nodup_cons.mp hk
    rw [List.map_cons, List.sum_cons]
    by_cases he : k = k'
    case pos =>
      have hzero : (keys.map fun k' => if k = k' then m else 0) = keys.map fun _ => 0 :=
        List.map_congr_left fun k'' hk'' => if_neg fun h => hnot <| (he.symm.trans h) ▸ hk''
      rw [if_pos he, hzero, List.sum_map_zero, add_zero]
    case neg => rw [if_neg he, zero_add, hi hk <| (List.mem_cons.mp h).resolve_left he]

-- What the elements of each key add up to adds up to what all elements do.
theorem sum_fibers (hk : keys.Nodup) (h : ∀ a ∈ l, key a ∈ keys) :
    (keys.map fun k => ((l.filter (key · = k)).map f).sum).sum = (l.map f).sum := by
  induction l with
  | nil => simp
  | cons a l hi =>
    rw [List.forall_mem_cons] at h
    have hcons (k : κ) : (((a :: l).filter (key · = k)).map f).sum =
        (if key a = k then f a else 0) + ((l.filter (key · = k)).map f).sum := by
      rw [List.filter_cons]
      split <;> simp_all
    simp only [hcons]
    rw [List.sum_map_add, sum_indicator hk h.1, hi h.2, List.map_cons, List.sum_cons]

end Fibers
