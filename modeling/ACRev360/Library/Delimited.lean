import Mathlib.Data.List.Basic
import Mathlib.Data.Nat.Notation

-- What does not have the separator in it.
abbrev Free (sep : Char) (field : String) : Prop :=
  sep ∉ field.toList

namespace Delimited

variable {α : Type} {sep : Char} {f f' g g' : String} {fs gs : List String}

-- What is before the first separator, and what is after it.
theorem append_cons_inj {a b x y : List α} {c : α} (ha : c ∉ a) (hb : c ∉ b)
    (h : a ++ c :: x = b ++ c :: y) : a = b ∧ x = y := by
  induction a generalizing b with
  | nil =>
    cases b with
    | nil => exact ⟨rfl, (List.cons.inj h).2⟩
    | cons d b =>
      obtain rfl := (List.cons.inj h).1
      exact absurd (.head _) hb
  | cons d a hi =>
    cases b with
    | nil =>
      obtain rfl := (List.cons.inj h).1
      exact absurd (.head _) ha
    | cons e b =>
      obtain ⟨rfl, hrest⟩ : d = e ∧ a ++ c :: x = b ++ c :: y := by simpa using h
      obtain ⟨rfl, hxy⟩ := hi (fun hd => ha <| .tail _ hd) (fun hd => hb <| .tail _ hd) hrest
      exact ⟨rfl, hxy⟩

theorem toList_intercalate_cons : ((String.singleton sep).intercalate (f :: f' :: fs)).toList =
    f.toList ++ sep :: ((String.singleton sep).intercalate (f' :: fs)).toList := by
  simp [String.intercalate_cons_of_ne_nil]

-- A field that is free of the separator can be read off, if it is not the last one.
theorem intercalate_cons_inj (hf : Free sep f) (hg : Free sep g)
    (h : (String.singleton sep).intercalate (f :: f' :: fs) = (String.singleton sep).intercalate (g :: g' :: gs)) :
    f = g ∧ (String.singleton sep).intercalate (f' :: fs) = (String.singleton sep).intercalate (g' :: gs) := by
  have h := congrArg String.toList h
  rw [toList_intercalate_cons, toList_intercalate_cons] at h
  obtain ⟨hfg, hrest⟩ := append_cons_inj hf hg h
  exact ⟨String.toList_inj.mp hfg, String.toList_inj.mp hrest⟩

-- The text of a number has its digits only.
theorem isDigit_of_mem_toString {n : ℕ} {c : Char} (h : c ∈ (toString n).toList) : c.isDigit := by
  rw [show toString n = String.ofList (Nat.toDigits 10 n) from rfl, String.toList_ofList] at h
  exact Nat.isDigit_of_mem_toDigits (by decide) (by decide) h

theorem free_toString {n : ℕ} (h : sep.isDigit = false) : Free sep (toString n) := by
  intro hmem
  simp [isDigit_of_mem_toString hmem] at h

theorem toString_inj {m n : ℕ} : toString m = toString n ↔ m = n := by
  refine ⟨fun h => ?_, congrArg _⟩
  have hdigits : Nat.toDigits 10 m = Nat.toDigits 10 n := String.ofList_injective h
  rw [← Nat.ofDigitChars_ten_toDigits (n := m), hdigits, Nat.ofDigitChars_ten_toDigits]

end Delimited
