import ACRev360.Services.Names
import ACRev360.Theorems.Ledger

namespace ACRev360

open Words

variable {s : String} {p : Payer} {icontains : String → String → Bool}

-- The full name is there as it was given, but for the whitespace, and is found by each of its tokens.
structure RoundTrip (icontains : String → String → Bool) (s : String) (p : Payer) : Prop where
  joined : p.fullName.toList = trim isSpace (collapse isSpace ' ' s.toList)
  again  : splitFullName p.fullName = splitFullName s
  found  : ∀ token ∈ split s, p.hasToken icontains token
  listed : nameSearchQ icontains s p

theorem map_toList_split : (split s).map String.toList = words isSpace s.toList := by
  rw [split, List.map_map]
  exact List.map_id'' (fun w => String.toList_ofList) _

theorem ne_empty_of_mem_split {token : String} (h : token ∈ split s) : token ≠ "" := by
  obtain ⟨w, hw, rfl⟩ := List.mem_map.mp h
  intro he
  refine (isWord_of_mem hw).1 ?_
  rw [← String.toList_ofList (l := w), he]
  rfl

theorem toList_join : (" ".intercalate (split s)).toList = [' '].intercalate (words isSpace s.toList) := by
  rw [String.toList_intercalate, map_toList_split]
  rfl

theorem join_eq_empty {tokens : List String} (h : ∀ token ∈ tokens, token ≠ "") :
    " ".intercalate tokens = "" ↔ tokens = [] := by
  cases tokens with
  | nil => simp
  | cons token tokens =>
    refine iff_of_false (fun he => ?_) (by simp)
    have := congrArg String.toList he
    cases tokens with
    | nil => simp [h token (.head _)] at he
    | cons t ts => simp [String.intercalate_cons_cons] at this

theorem fullName_of_two {token : String} {tokens : List String} (h : tokens ≠ [])
    (hne : ∀ t ∈ token :: tokens, t ≠ "") :
    (p.rename (token, " ".intercalate tokens.dropLast, tokens.getLast h)).fullName =
      " ".intercalate (token :: tokens) := by
  obtain ⟨middle, last, rfl⟩ : ∃ middle last, tokens = middle ++ [last] :=
    ⟨_, _, (List.dropLast_append_getLast h).symm⟩
  obtain ⟨hfirst, hrest⟩ := List.forall_mem_cons.mp hne
  obtain ⟨hmiddle, hlast⟩ := List.forall_mem_append.mp hrest
  have hlast : last ≠ "" := hlast last (.head _)
  rw [List.dropLast_concat, List.getLast_concat, String.intercalate_cons_of_ne_nil h]
  by_cases hnil : middle = []
  case pos => simp [hnil, Payer.rename, Payer.fullName, hfirst, hlast, String.intercalate_cons_cons]
  case neg =>
    rw [String.intercalate_append_of_ne_nil hnil (List.cons_ne_nil _ _), String.intercalate_singleton]
    simp [Payer.rename, Payer.fullName, hfirst, hlast, (join_eq_empty hmiddle).not.mpr hnil,
      String.intercalate_cons_cons, String.append_assoc]

-- What the three names come to are the tokens with spaces between them.
theorem fullName_rename : (p.rename (splitFullName s)).fullName = " ".intercalate (split s) := by
  have hne : ∀ token ∈ split s, token ≠ "" := fun _ => ne_empty_of_mem_split
  rw [splitFullName]
  split
  case h_1 hnone => simp [Payer.rename, Payer.fullName, hnone]
  case h_2 token hone =>
    rw [hone] at hne
    simp [Payer.rename, Payer.fullName, hone, hne]
  case h_3 token t ts htokens =>
    rw [htokens] at hne ⊢
    exact fullName_of_two (List.cons_ne_nil _ _) hne

-- The tokens of the full name are those it was made of.
theorem split_fullName : split (p.rename (splitFullName s)).fullName = split s := by
  rw [fullName_rename, split, toList_join, words_intercalate (by decide) fun _ => isWord_of_mem, split]

-- A token is one of the names, or a part of the middle one.
theorem exists_infix {token : String} (h : token ∈ split s) :
    ∃ name ∈ [(splitFullName s).1, (splitFullName s).2.1, (splitFullName s).2.2], token.toList <:+: name.toList := by
  rw [splitFullName]
  split
  case h_1 hnone => simp [hnone] at h
  case h_2 t hone =>
    obtain rfl : token = t := by simpa [hone] using h
    exact ⟨token, .head _, List.infix_rfl⟩
  case h_3 t t' ts htokens =>
    rw [htokens] at h
    rcases List.mem_cons.mp h with rfl | h
    · exact ⟨token, .head _, List.infix_rfl⟩
    rw [← List.dropLast_append_getLast (List.cons_ne_nil t' ts)] at h
    rcases List.mem_append.mp h with h | h
    · refine ⟨_, .tail _ <| .head _, ?_⟩
      rw [String.toList_intercalate]
      exact infix_intercalate <| List.mem_map_of_mem h
    · exact ⟨_, .tail _ <| .tail _ <| .head _, by rw [List.mem_singleton.mp h]⟩

theorem hasToken_of_mem (hcontains : ∀ {field token : String}, token.toList <:+: field.toList → icontains field token)
    {token : String} (h : token ∈ split s) : (p.rename (splitFullName s)).hasToken icontains token := by
  obtain ⟨name, hname, hinfix⟩ := exists_infix h
  have hfound := hcontains hinfix
  simp only [Payer.hasToken, Payer.rename, Bool.or_eq_true]
  simp only [List.mem_cons, List.not_mem_nil, or_false] at hname
  rcases hname with rfl | rfl | rfl
  · exact .inl <| .inl hfound
  · exact .inl <| .inr hfound
  · exact .inr hfound

theorem splitFullName_roundTrip
    (hcontains : ∀ {field token : String}, token.toList <:+: field.toList → icontains field token) (s : String)
    (p : Payer) : RoundTrip icontains s (p.rename (splitFullName s)) where
  joined := by
    rw [fullName_rename, toList_join, trim_collapse]
    decide
  again  := by rw [splitFullName, split_fullName, ← splitFullName]
  found _ := hasToken_of_mem hcontains
  listed := List.all_eq_true.mpr fun _ => hasToken_of_mem hcontains

namespace Sample

-- A text is found in another one whatever the case of their letters is.
def upperContains (field token : String) : Bool :=
  token.toList.map Char.toUpper <:+: field.toList.map Char.toUpper

end Sample

theorem sample_roundTrip :
    splitFullName " Ada  Ngozi Eze\tObi " = ("Ada", "Ngozi Eze", "Obi") ∧
      RoundTrip Sample.upperContains " Ada  Ngozi Eze\tObi "
        (Sample.payer.row.rename <| splitFullName " Ada  Ngozi Eze\tObi ") :=
  ⟨by decide +kernel, splitFullName_roundTrip (fun h => decide_eq_true <| h.map Char.toUpper) _ _⟩

end ACRev360
