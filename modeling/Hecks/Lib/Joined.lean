import Mathlib

/-! Fields joined by a separator: the joined text keeps the pieces between the separators, not
which of them made up one field. -/
namespace Joined

variable {α : Type} {sep : α}

theorem intercalate_cons_cons (x y : List α) (ys : List (List α)) :
    [sep].intercalate (x :: y :: ys) = x ++ sep :: [sep].intercalate (y :: ys) := by
  simp [List.intercalate]

variable [DecidableEq α]

/-- The pieces of the fields, each field cut at every separator in it. -/
def pieces (sep : α) (fields : List (List α)) : List (List α) := fields.flatMap (List.splitOn sep)

/-- The same pieces, made up into fields differently. -/
def Regrouped (sep : α) (xs ys : List (List α)) : Prop :=
  pieces sep xs = pieces sep ys ∧ xs.map (List.count sep) ≠ ys.map (List.count sep)

instance (xs ys : List (List α)) : Decidable (Regrouped sep xs ys) :=
  inferInstanceAs (Decidable (_ ∧ _))

/-- A separator inside a field cuts the joined text as one between fields does. -/
theorem splitOn_intercalate (xs : List (List α)) (ne : xs ≠ []) :
    ([sep].intercalate xs).splitOn sep = pieces sep xs := by
  induction xs with
  | nil => exact absurd rfl ne
  | cons x xs ih =>
    cases xs with
    | nil => simp [List.intercalate, pieces]
    | cons y ys =>
      rw [intercalate_cons_cons, List.splitOn_append_cons_self, ih (List.cons_ne_nil _ _)]
      rfl

/-- Two joined texts are the same exactly when their pieces are. -/
theorem intercalate_eq_iff {xs ys : List (List α)} (nx : xs ≠ []) (ny : ys ≠ []) :
    [sep].intercalate xs = [sep].intercalate ys ↔ pieces sep xs = pieces sep ys := by
  rw [← splitOn_intercalate xs nx, ← splitOn_intercalate ys ny]
  constructor
  · intro same
    rw [same]
  · intro same
    rw [← @List.intercalate_splitOn _ ([sep].intercalate xs) _ _ sep, same,
      List.intercalate_splitOn]

theorem length_splitOn (x : List α) : (x.splitOn sep).length = x.count sep + 1 := by
  induction x with
  | nil => rfl
  | cons c cs ih =>
    rw [List.splitOn_cons_eq_if_modifyHead, List.count_cons]
    split
    · rw [List.length_cons, ih]
    · rw [List.length_modifyHead, ih]

/-- Pieces grouped alike are the same fields. -/
theorem eq_of_pieces {xs ys : List (List α)} (same : pieces sep xs = pieces sep ys)
    (alike : xs.map (List.count sep) = ys.map (List.count sep)) : xs = ys := by
  induction xs generalizing ys with
  | nil =>
    cases ys with
    | nil => rfl
    | cons y ys => cases alike
  | cons x xs ih =>
    cases ys with
    | nil => cases alike
    | cons y ys =>
      obtain ⟨first, others⟩ := List.cons.inj alike
      have lengths : (x.splitOn sep).length = (y.splitOn sep).length := by
        rw [length_splitOn, length_splitOn, first]
      obtain ⟨head, tail⟩ := List.append_inj same lengths
      rw [ih tail others, ← @List.intercalate_splitOn _ x _ _ sep, head,
        List.intercalate_splitOn]

/-- Different fields are joined to different texts unless one is a regrouping of the other. -/
theorem ne_iff_not_regrouped {xs ys : List (List α)} (nx : xs ≠ []) (ny : ys ≠ []) :
    (xs ≠ ys → [sep].intercalate xs ≠ [sep].intercalate ys) ↔ ¬ Regrouped sep xs ys := by
  rw [Ne, Ne, intercalate_eq_iff nx ny]
  constructor
  · rintro apart ⟨same, differ⟩
    refine apart ?_ same
    rintro rfl
    exact differ rfl
  · intro alone ne same
    refine alone ⟨same, ?_⟩
    intro alike
    exact ne (eq_of_pieces same alike)

/-- Fields with no separator in them are a regrouping of no fields of their number. -/
theorem not_regrouped_of_free {xs ys : List (List α)} (free : ∀ x ∈ xs, sep ∉ x)
    (size : xs.length = ys.length) : ¬ Regrouped sep xs ys := by
  rintro ⟨same, differ⟩
  have none : ∀ zs : List (List α), (pieces sep zs).length =
      (zs.map (List.count sep)).sum + zs.length := by
    intro zs
    simp only [pieces, List.length_flatMap, length_splitOn]
    induction zs with
    | nil => rfl
    | cons z zs ih =>
      simp only [List.map_cons, List.sum_cons, List.length_cons, ih]
      omega
  have zeros : xs.map (List.count sep) = List.replicate xs.length 0 := by
    rw [List.eq_replicate_iff, List.length_map]
    refine ⟨rfl, ?_⟩
    intro n mem
    obtain ⟨x, inside, rfl⟩ := List.mem_map.mp mem
    exact List.count_eq_zero.mpr (free x inside)
  have total := congrArg List.length same
  rw [none, none, zeros, List.sum_replicate, smul_zero, size] at total
  refine differ ?_
  rw [zeros, eq_comm, List.eq_replicate_iff, List.length_map]
  refine ⟨size.symm, ?_⟩
  intro n mem
  exact (List.sum_eq_zero_iff.mp (by omega)) n mem

theorem pieces_cons (x : List α) (xs : List (List α)) :
    pieces sep (x :: xs) = x.splitOn sep ++ pieces sep xs := rfl

theorem pieces_append (xs ys : List (List α)) :
    pieces sep (xs ++ ys) = pieces sep xs ++ pieces sep ys := List.flatMap_append

/-- A field with a separator in it can be cut there, and one part joined to a neighbour. -/
theorem exists_regrouped {xs : List (List α)} {x : List α} (mem : x ∈ xs) (inside : sep ∈ x)
    (several : 2 ≤ xs.length) :
    ∃ ys, ys.length = xs.length ∧ ys ≠ xs ∧ pieces sep ys = pieces sep xs := by
  obtain ⟨front, back, rfl⟩ := List.append_of_mem mem
  obtain ⟨a, b, rfl⟩ := List.append_of_mem inside
  cases back with
  | cons z zs =>
    refine ⟨front ++ a :: (b ++ sep :: z) :: zs, by simp, ?_, ?_⟩
    · intro same
      have cut := (List.cons.inj (List.append_cancel_left same)).1
      simp at cut
    · simp only [pieces_append, pieces_cons, List.splitOn_append_cons_self, List.append_assoc]
  | nil =>
    obtain rfl | ⟨init, w, rfl⟩ := front.eq_nil_or_concat
    · simp at several
    · refine ⟨init ++ (w ++ sep :: a) :: [b], by simp, ?_, ?_⟩
      · intro same
        rw [List.concat_eq_append, List.append_assoc] at same
        have cut := (List.cons.inj (List.append_cancel_left same)).1
        simp at cut
      · simp only [List.concat_eq_append, pieces_append, pieces_cons,
          List.splitOn_append_cons_self, List.append_assoc]
        rfl

end Joined
