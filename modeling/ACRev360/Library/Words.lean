import Mathlib.Data.List.DropRight
import Mathlib.Data.List.Infix

-- The words of a list, which separators surround.
def words {α : Type} (sep : α → Bool) (l : List α) : List (List α) :=
  (l.splitOnP sep).filter fun w => !w.isEmpty

namespace Words

variable {α : Type} {sep : α → Bool} {blank a b : α} {l w : List α} {ws : List (List α)}

-- A word has at least one element, and no separator.
def IsWord (sep : α → Bool) (w : List α) : Prop :=
  w ≠ [] ∧ ∀ a ∈ w, sep a = false

-- Each run of separators becomes one `blank`.
def collapse (sep : α → Bool) (blank : α) : List α → List α
  | []     => []
  | a :: l =>
    if sep a then
      if l.head?.any sep then collapse sep blank l else blank :: collapse sep blank l
    else a :: collapse sep blank l

-- There are no separators left at the ends.
def trim (sep : α → Bool) (l : List α) : List α :=
  (l.dropWhile sep).rdropWhile sep

section Words

@[simp]
theorem words_nil : words sep [] = [] :=
  rfl

@[simp]
theorem words_cons_sep (ha : sep a = true) : words sep (a :: l) = words sep l := by
  simp [words, List.splitOnP_cons_eq_if_modifyHead, ha]

-- What is in front of the first separator is a list of its own.
theorem splitOnP_eq : ∃ rest, l.splitOnP sep = l.takeWhile (!sep ·) :: rest ∧
    words sep (l.dropWhile (!sep ·)) = rest.filter fun w => !w.isEmpty := by
  induction l with
  | nil => exact ⟨[], rfl, rfl⟩
  | cons a l hi =>
    obtain ⟨rest, hl, hrest⟩ := hi
    rw [List.splitOnP_cons_eq_if_modifyHead]
    cases ha : sep a with
    | true => exact ⟨l.splitOnP sep, by simp [ha], by simp [words, List.splitOnP_cons_eq_if_modifyHead, ha]⟩
    | false => exact ⟨rest, by simp [hl, ha], by simp [ha, hrest]⟩

theorem words_cons (ha : sep a = false) :
    words sep (a :: l) = (a :: l.takeWhile (!sep ·)) :: words sep (l.dropWhile (!sep ·)) := by
  obtain ⟨rest, hl, hrest⟩ := @splitOnP_eq _ sep l
  rw [words, List.splitOnP_cons_eq_if_modifyHead, hl, hrest]
  simp [ha]

-- One more element makes the word that begins there longer.
theorem words_cons_cons (ha : sep a = false) (hb : sep b = false) :
    ∃ w ws, words sep (b :: l) = (b :: w) :: ws ∧ words sep (a :: b :: l) = (a :: b :: w) :: ws := by
  rw [words_cons hb, words_cons ha]
  exact ⟨_, _, rfl, by simp [hb]⟩

theorem words_cons_before (ha : sep a = false) (hb : sep b = true) :
    words sep (a :: b :: l) = [a] :: words sep (b :: l) := by
  rw [words_cons ha]
  simp [hb]

theorem not_sep_of_splitOnP (hw : w ∈ l.splitOnP sep) : ∀ a ∈ w, sep a = false := by
  induction l generalizing w with
  | nil =>
    obtain rfl : w = [] := by simpa using hw
    exact List.forall_mem_nil _
  | cons a l hi =>
    rw [List.splitOnP_cons_eq_if_modifyHead] at hw
    cases ha : sep a with
    | true =>
      obtain rfl | hw : w = [] ∨ w ∈ l.splitOnP sep := by simpa [ha] using hw
      · exact List.forall_mem_nil _
      · exact hi hw
    | false =>
      obtain ⟨rest, hl, _⟩ := @splitOnP_eq _ sep l
      rw [hl] at hi hw
      obtain rfl | hw : w = a :: l.takeWhile (!sep ·) ∨ w ∈ rest := by simpa [ha] using hw
      · exact List.forall_mem_cons.mpr ⟨ha, hi (.head _)⟩
      · exact hi (.tail _ hw)

theorem isWord_of_mem (hw : w ∈ words sep l) : IsWord sep w := by
  obtain ⟨hmem, hne⟩ := List.mem_filter.mp hw
  exact ⟨by simpa using hne, not_sep_of_splitOnP hmem⟩

end Words

section Join

-- The words of words with blanks between them.
theorem words_intercalate (hblank : sep blank = true) (h : ∀ w ∈ ws, IsWord sep w) :
    words sep ([blank].intercalate ws) = ws := by
  induction ws with
  | nil => rfl
  | cons w ws hi =>
    obtain ⟨⟨hne, hw⟩, hws⟩ := List.forall_mem_cons.mp h
    obtain ⟨a, w, rfl⟩ := List.exists_cons_of_ne_nil hne
    obtain ⟨ha, hw⟩ := List.forall_mem_cons.mp hw
    have hall : ∀ b ∈ w, (!sep b) = true := by simpa using hw
    cases ws with
    | nil =>
      rw [List.intercalate_singleton, words_cons ha, List.takeWhile_eq_self_iff.mpr hall,
        List.dropWhile_eq_nil_iff.mpr hall, words_nil]
    | cons w' ws =>
      rw [List.intercalate_cons_cons, List.append_assoc, List.cons_append, words_cons ha,
        List.takeWhile_append_of_pos hall, List.dropWhile_append_of_pos hall]
      simp [hblank, hi hws]

theorem infix_intercalate (hw : w ∈ ws) : w <:+: [blank].intercalate ws := by
  induction ws with
  | nil => simp at hw
  | cons w' ws hi =>
    cases ws with
    | nil =>
      obtain rfl : w = w' := by simpa using hw
      rw [List.intercalate_singleton]
    | cons w'' ws =>
      rw [List.intercalate_cons_cons]
      rcases List.mem_cons.mp hw with rfl | hw
      · exact (List.prefix_append _ _).isInfix.trans (List.prefix_append _ _).isInfix
      · exact (hi hw).trans (List.suffix_append _ _).isInfix

end Join

section Trim

theorem head_intercalate (hw : IsWord sep w) :
    ∃ a l, [blank].intercalate (w :: ws) = a :: l ∧ sep a = false := by
  obtain ⟨hne, hword⟩ := hw
  obtain ⟨a, w, rfl⟩ := List.exists_cons_of_ne_nil hne
  exact ⟨a, _, List.intercalate_cons_cons_left, hword a (.head _)⟩

theorem getLast_intercalate (h : ∀ w ∈ ws, IsWord sep w) (hne : ws ≠ []) :
    ∃ l a, [blank].intercalate ws = l ++ [a] ∧ sep a = false := by
  induction ws with
  | nil => contradiction
  | cons w ws hi =>
    obtain ⟨⟨hw, hword⟩, hws⟩ := List.forall_mem_cons.mp h
    cases ws with
    | nil =>
      rw [List.intercalate_singleton]
      exact ⟨w.dropLast, w.getLast hw, (List.dropLast_append_getLast hw).symm, hword _ (List.getLast_mem hw)⟩
    | cons w' ws =>
      obtain ⟨l, a, hl, ha⟩ := hi hws (by simp)
      exact ⟨w ++ [blank] ++ l, a, by rw [List.intercalate_cons_cons, hl, ← List.append_assoc], ha⟩

-- With the runs of separators collapsed, the words have blanks between them, one in front of them if a
-- separator is, and one after them if a separator is.
theorem collapse_eq (sep : α → Bool) (blank : α) (l : List α) :
    ∃ last ∈ [[], [blank]], (words sep l = [] → last = []) ∧ collapse sep blank l =
      (if l.head?.any sep then [blank] else []) ++ [blank].intercalate (words sep l) ++ last := by
  induction l with
  | nil => exact ⟨[], by simp, fun _ => rfl, rfl⟩
  | cons a l hi =>
    obtain ⟨last, hlast, hnone, hl⟩ := hi
    cases ha : sep a with
    | true =>
      refine ⟨last, hlast, by rwa [words_cons_sep ha], ?_⟩
      rw [collapse, if_pos ha, words_cons_sep ha, hl]
      split <;> simp [*]
    | false =>
      rw [collapse, if_neg (by simp [ha]), hl]
      cases l with
      | nil => exact ⟨last, hlast, by simp [words_cons ha], by simp [words_cons ha, ha]⟩
      | cons b l =>
        cases hb : sep b with
        | true =>
          rw [words_cons_before ha hb]
          cases hwords : words sep (b :: l) with
          | nil => exact ⟨[blank], by simp, by simp, by simp [ha, hb, hnone hwords]⟩
          | cons w ws => exact ⟨last, hlast, by simp, by simp [ha, hb]⟩
        | false =>
          obtain ⟨w, ws, hwords, hwords'⟩ := words_cons_cons (l := l) ha hb
          refine ⟨last, hlast, by simp [hwords'], ?_⟩
          rw [hwords, hwords']
          simp [ha, hb]

-- What is left, collapsed and trimmed, are the words with blanks between them.
theorem trim_collapse (hblank : sep blank = true) :
    trim sep (collapse sep blank l) = [blank].intercalate (words sep l) := by
  obtain ⟨last, hlast, hnone, hl⟩ := collapse_eq sep blank l
  have hwords : ∀ w ∈ words sep l, IsWord sep w := fun _ => isWord_of_mem
  have hfirst : ∀ b ∈ (if l.head?.any sep then [blank] else []), sep b = true := by
    split <;> simp [hblank]
  rw [trim, hl, List.append_assoc, List.dropWhile_append_of_pos hfirst]
  cases h : words sep l with
  | nil =>
    rw [hnone h]
    rfl
  | cons w ws =>
    rw [h] at hwords
    obtain ⟨b, l₁, hfront, hb⟩ := @head_intercalate _ sep blank w ws (hwords w (.head _))
    obtain ⟨l₂, a, hback, ha⟩ := @getLast_intercalate _ sep blank _ hwords (by simp)
    have hdrop : (([blank].intercalate (w :: ws)) ++ last).dropWhile sep =
        [blank].intercalate (w :: ws) ++ last := by
      rw [hfront, List.cons_append, List.dropWhile_cons_of_neg (by simp [hb])]
    rw [hdrop, hback]
    have hlast' : last = [] ∨ last = [blank] := by simpa using hlast
    rcases hlast' with rfl | rfl
    · rw [List.append_nil, List.rdropWhile_concat_neg _ _ _ (by simp [ha])]
    · rw [List.rdropWhile_concat_pos _ _ _ hblank, List.rdropWhile_concat_neg _ _ _ (by simp [ha])]

end Trim

end Words
