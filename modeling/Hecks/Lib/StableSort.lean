import Mathlib

/-! A stable sort by rank, and lists read by which of two members comes first. -/
namespace StableSort

variable {α κ : Type} [LinearOrder κ]

/-- Lower ranks first; what shares a rank stands as `r` has it. -/
def Before (rank : α → κ) (r : α → α → Prop) (a b : α) : Prop :=
  rank a < rank b ∨ rank a = rank b ∧ r a b

variable {rank : α → κ} {r le : α → α → Prop} [DecidableRel le] {xs : List α} {x a b : α}

theorem pairwise_orderedInsert (ranks : ∀ y ∈ xs, (le x y ↔ rank x ≤ rank y))
    (first : ∀ y ∈ xs, r x y) (sorted : xs.Pairwise (Before rank r)) :
    (xs.orderedInsert le x).Pairwise (Before rank r) := by
  induction xs with
  | nil => simp
  | cons y ys ih =>
    rw [List.pairwise_cons] at sorted
    by_cases low : le x y
    · rw [List.orderedInsert_cons_of_le _ _ low]
      have below := (ranks y List.mem_cons_self).mp low
      refine List.pairwise_cons.mpr ⟨?_, List.pairwise_cons.mpr sorted⟩
      intro z hz
      have high : rank y ≤ rank z := by
        obtain rfl | tail := List.mem_cons.mp hz
        · exact le_rfl
        · obtain less | ⟨same, -⟩ := sorted.1 z tail
          · exact less.le
          · exact same.le
      obtain less | same := (below.trans high).lt_or_eq
      · exact .inl less
      · exact .inr ⟨same, first z hz⟩
    · rw [List.orderedInsert_of_not_le _ _ low]
      have above : rank y < rank x := by
        apply lt_of_not_ge
        intro h
        exact low ((ranks y List.mem_cons_self).mpr h)
      refine List.pairwise_cons.mpr ⟨?_, ?_⟩
      · intro z hz
        obtain rfl | tail := (List.mem_orderedInsert le).mp hz
        · exact .inl above
        · exact sorted.1 z tail
      · exact ih (fun z hz => ranks z (List.mem_cons_of_mem _ hz))
          (fun z hz => first z (List.mem_cons_of_mem _ hz)) sorted.2

/-- The sort keeps what shares a rank in the order it was in. -/
theorem pairwise_insertionSort (ranks : ∀ x ∈ xs, ∀ y ∈ xs, (le x y ↔ rank x ≤ rank y))
    (order : xs.Pairwise r) : (xs.insertionSort le).Pairwise (Before rank r) := by
  induction xs with
  | nil => simp
  | cons x xs ih =>
    obtain ⟨first, rest⟩ := List.pairwise_cons.mp order
    rw [List.insertionSort_cons]
    apply pairwise_orderedInsert
    · intro y hy
      exact ranks x List.mem_cons_self y
        (List.mem_cons_of_mem _ ((List.mem_insertionSort le).mp hy))
    · intro y hy
      exact first y ((List.mem_insertionSort le).mp hy)
    · exact ih (fun y hy z hz => ranks y (List.mem_cons_of_mem _ hy) z (List.mem_cons_of_mem _ hz))
        rest

theorem pair_sublist_or (ha : a ∈ xs) (hb : b ∈ xs) (ne : a ≠ b) :
    [a, b].Sublist xs ∨ [b, a].Sublist xs := by
  obtain ⟨front, back, rfl⟩ := List.append_of_mem ha
  obtain before | behind := List.mem_append.mp hb
  · refine .inr ?_
    exact List.Sublist.append (List.singleton_sublist.mpr before) (by simp)
  · obtain rfl | after := List.mem_cons.mp behind
    · exact absurd rfl ne
    · refine .inl (List.Sublist.trans ?_ (List.sublist_append_right _ _))
      exact (List.singleton_sublist.mpr after).cons_cons a

/-- In a list that stands as `r` has it, the first of two members is the one `r` puts first. -/
theorem pair_sublist_iff (order : xs.Pairwise r) (ha : a ∈ xs) (hb : b ∈ xs)
    (asymm : r a b → ¬ r b a) : [a, b].Sublist xs ↔ r a b := by
  constructor
  · exact List.pairwise_iff_forall_sublist.mp order
  · intro before
    have ne : a ≠ b := by
      rintro rfl
      exact asymm before before
    obtain first | second := pair_sublist_or ha hb ne
    · exact first
    · exact absurd (List.pairwise_iff_forall_sublist.mp order second) (asymm before)

end StableSort
