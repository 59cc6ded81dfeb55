import Hecks.Lib.Text

/-! Texts cut at a separating character: where the cut falls, and what the pieces are. -/
namespace Text

variable {sep : Char}

theorem splitOnceChars_single {cs before after : List Char}
    (h : splitOnceChars [sep] cs = some (before, after)) :
    cs = before ++ sep :: after ∧ sep ∉ before := by
  induction cs generalizing before with
  | nil => cases h
  | cons c cs ih =>
    by_cases here : c = sep
    · subst here
      simp [splitOnceChars] at h
      obtain ⟨rfl, rfl⟩ := h
      exact ⟨rfl, List.not_mem_nil⟩
    · have no : [sep].isPrefixOf (c :: cs) = false := by
        simp [List.isPrefixOf, Ne.symm here]
      simp only [splitOnceChars, no, Bool.false_eq_true, if_false, Option.map_eq_some_iff] at h
      obtain ⟨⟨first, rest⟩, found, same⟩ := h
      cases same
      obtain ⟨rfl, absent⟩ := ih found
      refine ⟨rfl, ?_⟩
      rw [List.mem_cons, not_or]
      exact ⟨Ne.symm here, absent⟩

/-- The cut falls at the first occurrence. -/
theorem splitOnceChars_append {before : List Char} (after : List Char) (absent : sep ∉ before) :
    splitOnceChars [sep] (before ++ sep :: after) = some (before, after) := by
  induction before with
  | nil => simp [splitOnceChars]
  | cons c cs ih =>
    rw [List.mem_cons, not_or] at absent
    have no : [sep].isPrefixOf (c :: (cs ++ sep :: after)) = false := by
      simp [List.isPrefixOf, absent.1]
    simp only [List.cons_append, splitOnceChars, no, Bool.false_eq_true, if_false, ih absent.2,
      Option.map_some]

theorem splitOnceChars_none {cs : List Char} (h : splitOnceChars [sep] cs = none) :
    sep ∉ cs := by
  induction cs with
  | nil => exact List.not_mem_nil
  | cons c cs ih =>
    by_cases here : c = sep
    · subst here
      simp [splitOnceChars] at h
    · have no : [sep].isPrefixOf (c :: cs) = false := by
        simp [List.isPrefixOf, Ne.symm here]
      simp only [splitOnceChars, no, Bool.false_eq_true, if_false, Option.map_eq_none_iff] at h
      rw [List.mem_cons, not_or]
      exact ⟨Ne.symm here, ih h⟩

theorem splitOnceChars_of_not_mem {cs : List Char} (h : sep ∉ cs) :
    splitOnceChars [sep] cs = none := by
  cases found : splitOnceChars [sep] cs with
  | none => rfl
  | some parts =>
    obtain ⟨before, after⟩ := parts
    obtain ⟨eq, -⟩ := splitOnceChars_single found
    exact absurd (by rw [eq]; simp) h

theorem stripSuffix_append (front : List Char) :
    stripSuffix sep (String.ofList (front ++ [sep])) = some (String.ofList front) := by
  simp [stripSuffix]

theorem segmentsChars_of_not_mem {cs : List Char} (h : sep ∉ cs) :
    segmentsChars sep cs = [cs] := by
  induction cs with
  | nil => rfl
  | cons c cs ih =>
    rw [List.mem_cons, not_or] at h
    rw [segmentsChars, if_neg (Ne.symm h.1), ih h.2]

theorem segmentsChars_append {before : List Char} (after : List Char) (h : sep ∉ before) :
    segmentsChars sep (before ++ sep :: after) = before :: segmentsChars sep after := by
  induction before with
  | nil => simp [segmentsChars]
  | cons c cs ih =>
    rw [List.mem_cons, not_or] at h
    rw [List.cons_append, segmentsChars, if_neg (Ne.symm h.1), ih h.2]

theorem segmentsChars_ne_nil (cs : List Char) : segmentsChars sep cs ≠ [] := by
  cases cs with
  | nil => exact List.cons_ne_nil _ _
  | cons c cs =>
    rw [segmentsChars]
    split
    · exact List.cons_ne_nil _ _
    · split <;> exact List.cons_ne_nil _ _

/-- The pieces of two texts joined by the separator are those of each. -/
theorem segmentsChars_joined (before after : List Char) :
    segmentsChars sep (before ++ sep :: after) =
      segmentsChars sep before ++ segmentsChars sep after := by
  induction before with
  | nil => simp [segmentsChars]
  | cons c cs ih =>
    rw [List.cons_append, segmentsChars, segmentsChars, ih]
    by_cases here : c = sep
    · rw [if_pos here, if_pos here, List.cons_append]
    · rw [if_neg here, if_neg here]
      cases pieces : segmentsChars sep cs with
      | nil => exact absurd pieces (segmentsChars_ne_nil cs)
      | cons piece pieces => rfl

end Text
