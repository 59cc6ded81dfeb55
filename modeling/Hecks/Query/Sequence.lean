import Mathlib
import Hecks.Query.Cursor
import Hecks.Lib.FloatOrder
import Hecks.Lib.Paging

/-! The declared order is a sequence: the sort, the reversal and the placement of nulls agree
with the comparison a position is tested by. -/
namespace Hecks.Query

open Paging (Sequenced)

abbrev Row := String × Json

/-- The records of a list stand under ids in strictly growing order. -/
def Ascending (rows : Rows) : Prop := rows.Pairwise fun a b => a.1 < b.1

theorem sortById_perm (rows : Rows) : (sortById rows).Perm rows := List.perm_insertionSort _ _

theorem sortById_ascending {rows : Rows} (distinct : (rows.map Prod.fst).Nodup) :
    Ascending (sortById rows) := by
  have sorted : (sortById rows).Pairwise fun a b => a.1 ≤ b.1 :=
    List.pairwise_insertionSort _ _
  have apart : ((sortById rows).map Prod.fst).Nodup :=
    ((sortById_perm rows).map Prod.fst).nodup_iff.mpr distinct
  rw [List.Nodup, List.pairwise_map] at apart
  exact (sorted.and apart).imp fun h => lt_of_le_of_ne h.1 h.2

/-! ### Keys that compare as ranks in a linear order -/

section

variable {κ : Type} [LinearOrder κ]

/-- Keys that are not null compare as their ranks do. -/
def Ranked (rank : Json → κ) (key : Row → Json) (rows : Rows) : Prop :=
  ∀ a ∈ rows, ∀ b ∈ rows, isNull (key a) = false → isNull (key b) = false →
    compareComparable (key a) (key b) = compare (rank (key a)) (rank (key b))

/-- By rank, then by id. -/
def Precedes (rank : Json → κ) (key : Row → Json) (a b : Row) : Prop :=
  rank (key a) < rank (key b) ∨ rank (key a) = rank (key b) ∧ a.1 < b.1

variable {rank : Json → κ} {key : Row → Json} {rows : Rows}

theorem precedes_orderedInsert {r : Row → Row → Prop} [DecidableRel r] {x : Row} {ys : Rows}
    (ranks : ∀ y ∈ ys, (r x y ↔ rank (key x) ≤ rank (key y))) (first : ∀ y ∈ ys, x.1 < y.1)
    (sorted : ys.Pairwise (Precedes rank key)) :
    (ys.orderedInsert r x).Pairwise (Precedes rank key) := by
  induction ys with
  | nil => simp
  | cons y ys ih =>
    rw [List.pairwise_cons] at sorted
    by_cases le : r x y
    · rw [List.orderedInsert_cons_of_le _ _ le]
      have low := (ranks y List.mem_cons_self).mp le
      refine List.pairwise_cons.mpr ⟨?_, List.pairwise_cons.mpr sorted⟩
      intro z hz
      have high : rank (key y) ≤ rank (key z) := by
        rcases List.mem_cons.mp hz with rfl | tail
        · exact le_rfl
        · rcases sorted.1 z tail with less | ⟨same, -⟩
          · exact less.le
          · exact same.le
      rcases (low.trans high).lt_or_eq with less | same
      · exact .inl less
      · exact .inr ⟨same, first z hz⟩
    · rw [List.orderedInsert_of_not_le _ _ le]
      have below : rank (key y) < rank (key x) := by
        apply lt_of_not_ge
        intro h
        exact le ((ranks y List.mem_cons_self).mpr h)
      refine List.pairwise_cons.mpr ⟨?_, ?_⟩
      · intro z hz
        rcases (List.mem_orderedInsert r).mp hz with rfl | tail
        · exact .inl below
        · exact sorted.1 z tail
      · exact ih (fun z hz => ranks z (List.mem_cons_of_mem _ hz))
          (fun z hz => first z (List.mem_cons_of_mem _ hz)) sorted.2

/-- The sort by rank keeps the ids in order among equal ranks. -/
theorem precedes_insertionSort {r : Row → Row → Prop} [DecidableRel r]
    (ranks : ∀ x ∈ rows, ∀ y ∈ rows, (r x y ↔ rank (key x) ≤ rank (key y)))
    (ascending : Ascending rows) : (rows.insertionSort r).Pairwise (Precedes rank key) := by
  induction rows with
  | nil => simp
  | cons x rows ih =>
    obtain ⟨first, rest⟩ := List.pairwise_cons.mp ascending
    rw [List.insertionSort_cons]
    apply precedes_orderedInsert
    · intro y hy
      exact ranks x List.mem_cons_self y
        (List.mem_cons_of_mem _ ((List.mem_insertionSort r).mp hy))
    · intro y hy
      exact first y ((List.mem_insertionSort r).mp hy)
    · exact ih (fun y hy z hz => ranks y (List.mem_cons_of_mem _ hy) z (List.mem_cons_of_mem _ hz))
        rest

end

/-! ### The position of one row against another -/

/-- The value a row is ordered by. -/
def keyOf (order : OrderBy) (row : Row) : Json := orderKey row.2 order.field

def against (order : OrderBy) (a b : Row) : Ordering :=
  sequence (keyOf order a) a.1 (keyOf order b) b.1 order

section

variable {κ : Type} [LinearOrder κ] {rank : Json → κ} {order : OrderBy} {rows : Rows} {a b : Row}

theorem against_null (null : isNull (keyOf order a) = true)
    (valued : isNull (keyOf order b) = false) :
    against order a b = if nullsFirst order then .lt else .gt := by
  unfold against sequence
  cases nullsFirst order <;> simp [null, valued]

theorem against_valued (valued : isNull (keyOf order a) = false)
    (null : isNull (keyOf order b) = true) :
    against order a b = if nullsFirst order then .gt else .lt := by
  unfold against sequence
  cases nullsFirst order <;> simp [null, valued]

theorem against_nulls (na : isNull (keyOf order a) = true) (nb : isNull (keyOf order b) = true) :
    against order a b =
      if order.descending then (compare a.1 b.1).swap else compare a.1 b.1 := by
  unfold against sequence
  simp [na, nb]

theorem against_ranked (ranked : Ranked rank (keyOf order) rows) (ha : a ∈ rows) (hb : b ∈ rows)
    (va : isNull (keyOf order a) = false) (vb : isNull (keyOf order b) = false) :
    against order a b =
      if order.descending then
        ((compare (rank (keyOf order a)) (rank (keyOf order b))).then (compare a.1 b.1)).swap
      else (compare (rank (keyOf order a)) (rank (keyOf order b))).then (compare a.1 b.1) := by
  unfold against sequence
  simp [va, vb, ranked a ha b hb va vb]

theorem against_swap (ranked : Ranked rank (keyOf order) rows) (ha : a ∈ rows) (hb : b ∈ rows) :
    against order b a = (against order a b).swap := by
  have ids : compare b.1 a.1 = (compare a.1 b.1).swap := Std.OrientedCmp.eq_swap
  cases na : isNull (keyOf order a) with
  | true =>
    cases nb : isNull (keyOf order b) with
    | true =>
      rw [against_nulls na nb, against_nulls nb na, ids]
      cases order.descending <;> rfl
    | false =>
      rw [against_null na nb, against_valued nb na]
      cases nullsFirst order <;> rfl
  | false =>
    cases nb : isNull (keyOf order b) with
    | true =>
      rw [against_valued na nb, against_null nb na]
      cases nullsFirst order <;> rfl
    | false =>
      have ranks : compare (rank (keyOf order b)) (rank (keyOf order a)) =
          (compare (rank (keyOf order a)) (rank (keyOf order b))).swap := Std.OrientedCmp.eq_swap
      rw [against_ranked ranked ha hb na nb, against_ranked ranked hb ha nb na, ids, ranks]
      cases order.descending <;> simp [Ordering.swap_then]

theorem against_self (ranked : Ranked rank (keyOf order) rows) (ha : a ∈ rows) :
    against order a a = .eq := by
  have swap := against_swap ranked ha ha
  cases eq : against order a a with
  | eq => rfl
  | lt => rw [eq] at swap; cases swap
  | gt => rw [eq] at swap; cases swap

/-- Rows pairwise in order are a sequence. -/
theorem sequenced_of_pairwise (ranked : Ranked rank (keyOf order) rows)
    (pairwise : rows.Pairwise fun a b => against order b a = .gt) :
    Sequenced (fun a b => decide (against order a b = .gt)) rows where
  later := pairwise.imp fun h => by simpa using h
  earlier := by
    apply pairwise.imp_of_mem
    intro a b ha hb after
    have swap := against_swap ranked hb ha
    rw [after] at swap
    simp [swap]
  self := by
    intro a ha
    simp [against_self ranked ha]

/-! ### The declared order -/

/-- A list in the direction of the order. -/
def directed (order : OrderBy) (rows : Rows) : Rows :=
  if order.descending then rows.reverse else rows

theorem mem_directed : a ∈ directed order rows ↔ a ∈ rows := by
  unfold directed
  split
  · exact List.mem_reverse
  · exact Iff.rfl

/-- A relation that a step forward implies holds along the list, and one that a step backward
implies along its reversal. -/
theorem pairwise_directed {r s : Row → Row → Prop} (pairwise : rows.Pairwise r)
    (forward : order.descending = false → ∀ a ∈ rows, ∀ b ∈ rows, r a b → s a b)
    (backward : order.descending = true → ∀ a ∈ rows, ∀ b ∈ rows, r a b → s b a) :
    (directed order rows).Pairwise s := by
  unfold directed
  cases desc : order.descending with
  | true =>
    apply List.pairwise_reverse.mpr
    exact pairwise.imp_of_mem fun ha hb => backward desc _ ha _ hb
  | false => exact pairwise.imp_of_mem fun ha hb => forward desc _ ha _ hb

theorem pairwise_nulls (ascending : Ascending rows)
    (null : ∀ a ∈ rows, isNull (keyOf order a) = true) :
    (directed order rows).Pairwise fun a b => against order b a = .gt := by
  apply pairwise_directed ascending
  · intro forward a ha b hb less
    rw [against_nulls (null b hb) (null a ha), forward]
    exact compare_gt_iff_gt.mpr less
  · intro backward a ha b hb less
    rw [against_nulls (null a ha) (null b hb), backward, compare_lt_iff_lt.mpr less]
    rfl

theorem precedes_compare (precedes : Precedes rank (keyOf order) a b) :
    (compare (rank (keyOf order a)) (rank (keyOf order b))).then (compare a.1 b.1) = .lt := by
  rcases precedes with less | ⟨same, less⟩
  · rw [compare_lt_iff_lt.mpr less]
    rfl
  · rw [compare_eq_iff_eq.mpr same, compare_lt_iff_lt.mpr less]
    rfl

theorem pairwise_valued (ranked : Ranked rank (keyOf order) rows)
    (precedes : rows.Pairwise (Precedes rank (keyOf order)))
    (valued : ∀ a ∈ rows, isNull (keyOf order a) = false) :
    (directed order rows).Pairwise fun a b => against order b a = .gt := by
  apply pairwise_directed precedes
  · intro forward a ha b hb before
    rw [against_swap ranked ha hb, against_ranked ranked ha hb (valued a ha) (valued b hb),
      forward, precedes_compare before]
    rfl
  · intro backward a ha b hb before
    rw [against_ranked ranked ha hb (valued a ha) (valued b hb), backward,
      precedes_compare before]
    rfl

/-- The nulls on their side of the values, both in the direction of the order. -/
theorem applyDeclaredOrder_eq (rows : Rows) (order : OrderBy) :
    applyDeclaredOrder rows order =
      let nulls := directed order (rows.filter fun r => isNull (keyOf order r))
      let values := directed order
        (sortByKey order.field (rows.filter fun r => !isNull (keyOf order r)))
      if nullsFirst order then nulls ++ values else values ++ nulls := by
  unfold applyDeclaredOrder nullsFirst directed
  cases order.nulls with
  | first => rfl
  | last => rfl
  | native => cases order.descending <;> rfl

theorem sortByKey_perm (field : String) (rows : Rows) : (sortByKey field rows).Perm rows :=
  List.perm_insertionSort _ _

theorem directed_perm (order : OrderBy) (rows : Rows) : (directed order rows).Perm rows := by
  unfold directed
  split
  · exact List.reverse_perm _
  · exact List.Perm.refl _

theorem applyDeclaredOrder_perm (rows : Rows) (order : OrderBy) :
    (applyDeclaredOrder rows order).Perm rows := by
  have parts : ∀ nulls values : Rows, nulls.Perm (rows.filter fun r => isNull (keyOf order r)) →
      values.Perm (rows.filter fun r => !isNull (keyOf order r)) →
        (nulls ++ values).Perm rows := by
    intro nulls values hn hv
    exact (hn.append hv).trans (List.filter_append_perm _ rows)
  rw [applyDeclaredOrder_eq]
  dsimp only
  have nulls := directed_perm order (rows.filter fun r => isNull (keyOf order r))
  have values := (directed_perm order _).trans
    (sortByKey_perm order.field (rows.filter fun r => !isNull (keyOf order r)))
  split
  · exact parts _ _ nulls values
  · exact List.perm_append_comm.trans (parts _ _ nulls values)

/-- The declared order puts rows of distinct ids in sequence. -/
theorem applyDeclaredOrder_pairwise (ranked : Ranked rank (keyOf order) rows)
    (ascending : Ascending rows) :
    (applyDeclaredOrder rows order).Pairwise fun a b => against order b a = .gt := by
  have null : ∀ a ∈ rows.filter fun r => isNull (keyOf order r),
      isNull (keyOf order a) = true := fun a ha => (List.mem_filter.mp ha).2
  have valued : ∀ a ∈ sortByKey order.field (rows.filter fun r => !isNull (keyOf order r)),
      a ∈ rows ∧ isNull (keyOf order a) = false := by
    intro a ha
    have := List.mem_filter.mp ((sortByKey_perm _ _).mem_iff.mp ha)
    simpa using this
  have nulls := pairwise_nulls (List.Pairwise.filter _ ascending) null
  have sorted : (sortByKey order.field (rows.filter fun r => !isNull (keyOf order r))).Pairwise
      (Precedes rank (keyOf order)) := by
    apply precedes_insertionSort
    · intro x hx y hy
      have hx' := valued x ((sortByKey_perm _ _).mem_iff.mpr hx)
      have hy' := valued y ((sortByKey_perm _ _).mem_iff.mpr hy)
      change compareComparable (keyOf order x) (keyOf order y) ≠ .gt ↔ _
      rw [ranked x hx'.1 y hy'.1 hx'.2 hy'.2, compare_le_iff_le]
    · exact List.Pairwise.filter _ ascending
  have values := pairwise_valued
    (fun a ha b hb => ranked a (valued a ha).1 b (valued b hb).1) sorted
    (fun a ha => (valued a ha).2)
  rw [applyDeclaredOrder_eq]
  dsimp only
  split
  next first =>
    refine List.pairwise_append.mpr ⟨nulls, values, ?_⟩
    intro a ha b hb
    rw [against_valued (valued b (mem_directed.mp hb)).2 (null a (mem_directed.mp ha)), if_pos first]
  next last =>
    refine List.pairwise_append.mpr ⟨values, nulls, ?_⟩
    intro a ha b hb
    rw [against_null (null b (mem_directed.mp hb)) (valued a (mem_directed.mp ha)).2, if_neg last]

end

end Hecks.Query
