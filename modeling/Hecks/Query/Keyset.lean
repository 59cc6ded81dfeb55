import Hecks.Lib.Paging
import Hecks.Lib.StableSort

/-! The order of a cursor query, stated three times: as the predicate compiled for a SQL store, as
the comparison of a row with a position, and as the sort of the rows in memory; and the walk of a
reader through the pages of a SQL store. -/
namespace Hecks.Query.Keyset

inductive ScalarType where
  | boolean
  | number
  | text
  deriving DecidableEq

/-- The comparable value of the order field; a number is an integer or a float by what it is. -/
inductive OrderValue where
  | nil
  | boolean (b : Bool)
  | number (x : ℚ)
  | text (s : String)
  deriving DecidableEq

namespace OrderValue

def isNil : OrderValue → Bool
  | nil => true
  | _ => false

def type : OrderValue → Option ScalarType
  | nil => none
  | boolean _ => some .boolean
  | number _ => some .number
  | text _ => some .text

/-- Ruby's `<=>`: of booleans, only equal ones compare. -/
def spaceship : OrderValue → OrderValue → Option Ordering
  | nil, nil => some .eq
  | boolean a, boolean b => if a = b then some .eq else none
  | number x, number y => some (compare x y)
  | text s, text t => some (compare s t)
  | _, _ => none

/-- What SQL makes of a comparison: unknown with a null, and false below true. Values of two
types do not meet in one column. -/
def sqlCompare : OrderValue → OrderValue → Option Ordering
  | boolean a, boolean b => some (compare a b)
  | number x, number y => some (compare x y)
  | text s, text t => some (compare s t)
  | _, _ => none

end OrderValue

structure OrderBy where
  field : String
  direction : String

/-- What a cursor query declares of its order. `nullSemantics` is the mode of its policy. -/
structure Declared where
  orderBy : Option OrderBy
  nullSemantics : Option String

/-- A row by its order value and its identity, as a position is one. Without an order the value
is nil. -/
structure Entry where
  value : OrderValue
  id : String
  deriving DecidableEq

def OrderBy.descending (orderBy : OrderBy) : Bool := orderBy.direction.toLower == "desc"

def directed (descending : Bool) (o : Ordering) : Ordering := if descending then o.swap else o

/-! ### `Cursor` -/

namespace Cursor

def nullsFirst (orderBy : OrderBy) (policy : Option String) : Bool :=
  match policy with
  | some "first" => true
  | some "last" => false
  | _ => !orderBy.descending

/-- A tie in the order value, or two values that do not compare, falls to identity. -/
def tiesById (compared : Option Ordering) (id heldId : String) : Ordering :=
  match compared with
  | none | some .eq => compare id heldId
  | some result => result

def sequence (row position : Entry) (orderBy : OrderBy) (policy : Option String) : Ordering :=
  if row.value.isNil ≠ position.value.isNil then
    if row.value.isNil = nullsFirst orderBy policy then .lt else .gt
  else
    directed orderBy.descending (tiesById
      (if row.value.isNil then some .eq else row.value.spaceship position.value) row.id position.id)

def follows (declared : Declared) (row position : Entry) : Bool :=
  match declared.orderBy with
  | none => compare row.id position.id = .gt
  | some orderBy => sequence row position orderBy declared.nullSemantics = .gt

end Cursor

/-! ### `SqlKeyset` -/

/-- `>`, or `<` for a descending order. -/
inductive Beyond where
  | greater
  | less

/-- A predicate over the order expression and the id; the bound values stand in it. -/
inductive Predicate where
  | idBeyond (beyond : Beyond) (id : String)
  | valueBeyond (beyond : Beyond) (value : OrderValue)
  | valueEquals (value : OrderValue)
  | isNull
  | isNotNull
  | and (p q : Predicate)
  | or (p q : Predicate)

namespace Predicate

def sqlAnd : Option Bool → Option Bool → Option Bool
  | some false, _ | _, some false => some false
  | some true, q => q
  | none, _ => none

def sqlOr : Option Bool → Option Bool → Option Bool
  | some true, _ | _, some true => some true
  | some false, q => q
  | none, _ => none

def Beyond.admits : Beyond → Ordering → Bool
  | .greater, o => o == .gt
  | .less, o => o == .lt

/-- Unknown is none. -/
def eval (row : Entry) : Predicate → Option Bool
  | idBeyond beyond id => some (Beyond.admits beyond (compare row.id id))
  | valueBeyond beyond value => (row.value.sqlCompare value).map (Beyond.admits beyond)
  | valueEquals value => (row.value.sqlCompare value).map (· == .eq)
  | isNull => some row.value.isNil
  | isNotNull => some !row.value.isNil
  | and p q => sqlAnd (p.eval row) (q.eval row)
  | or p q => sqlOr (p.eval row) (q.eval row)

end Predicate

namespace SqlKeyset

open Predicate

/-- Rows that follow a null-keyed row: later nulls by id, and every valued row when nulls
lead. -/
def keysetAfterNull (beyond : Beyond) (nullsFirst : Bool) (position : Entry) : Predicate :=
  let tied := and Predicate.isNull (idBeyond beyond position.id)
  if nullsFirst then or tied isNotNull else tied

/-- Rows that follow a valued row: later values, equal values with a later id, and the nulls when
they trail. -/
def keysetAfterValue (beyond : Beyond) (nullsFirst : Bool) (position : Entry) : Predicate :=
  let later := valueBeyond beyond position.value
  let tied := and (valueEquals position.value) (idBeyond beyond position.id)
  if nullsFirst then or later tied else or (or later tied) Predicate.isNull

def keysetOverField (orderBy : OrderBy) (policy : Option String) (position : Entry) : Predicate :=
  let beyond := if orderBy.descending then .less else .greater
  let first := Cursor.nullsFirst orderBy policy
  if position.value.isNil then keysetAfterNull beyond first position
  else keysetAfterValue beyond first position

def keysetClause (declared : Declared) (position : Entry) : Predicate :=
  match declared.orderBy with
  | none => idBeyond .greater position.id
  | some orderBy => keysetOverField orderBy declared.nullSemantics position

end SqlKeyset

/-! ### `NullPolicy` and `Ordering` -/

namespace NullPolicy

/-- Stable, as the sort goes by key and index. -/
def sortByKey (rows : List Entry) : List Entry :=
  rows.insertionSort fun a b => a.value.spaceship b.value ≠ some .gt

def nullAndSorted (rows : List Entry) (descending : Bool) : List Entry × List Entry :=
  let nullRows := rows.filter (·.value.isNil)
  let sorted := sortByKey (rows.filter (!·.value.isNil))
  if descending then (nullRows.reverse, sorted.reverse) else (nullRows, sorted)

/-- The sort raises where two keys do not compare. -/
def Sortable (rows : List Entry) : Prop :=
  ∀ a ∈ rows, ∀ b ∈ rows, a.value.isNil = false → b.value.isNil = false →
    (a.value.spaceship b.value).isSome = true

instance (rows : List Entry) : Decidable (Sortable rows) :=
  inferInstanceAs (Decidable (∀ a ∈ rows, ∀ b ∈ rows, _ → _ → _))

def order (rows : List Entry) (orderBy : OrderBy) (policy : Option String) :
    Option (List Entry) :=
  if Sortable rows then
    let (nullRows, sorted) := nullAndSorted rows orderBy.descending
    match policy with
    | some "first" => some (nullRows ++ sorted)
    | some "last" => some (sorted ++ nullRows)
    | _ => some (if orderBy.descending then sorted ++ nullRows else nullRows ++ sorted)
  else none

/-- `NULLS FIRST`, where `NULLS LAST` is not written. -/
def sqlNullsFirst (orderBy : OrderBy) (policy : Option String) : Bool :=
  match policy with
  | some "first" => true
  | some "last" => false
  | _ => !orderBy.descending

/-- `sql_order`: whether one row comes before, level with or after another in
`field DIRECTION NULLS FIRST|LAST, id DIRECTION`. -/
def sqlOrder (orderBy : OrderBy) (policy : Option String) (a b : Entry) : Ordering :=
  match a.value.isNil, b.value.isNil with
  | true, false => if sqlNullsFirst orderBy policy then .lt else .gt
  | false, true => if sqlNullsFirst orderBy policy then .gt else .lt
  | true, true => directed orderBy.descending (compare a.id b.id)
  | false, false =>
      (directed orderBy.descending ((a.value.sqlCompare b.value).getD .eq)).then
        (directed orderBy.descending (compare a.id b.id))

end NullPolicy

namespace Declared

/-- `Ordering.apply`: by identity, then by the declared order. -/
def apply (declared : Declared) (rows : List Entry) : Option (List Entry) :=
  let rows := rows.insertionSort fun a b => a.id ≤ b.id
  match declared.orderBy with
  | none => some rows
  | some orderBy => NullPolicy.order rows orderBy declared.nullSemantics

def sqlOrder (declared : Declared) (a b : Entry) : Ordering :=
  match declared.orderBy with
  | none => compare a.id b.id
  | some orderBy => NullPolicy.sqlOrder orderBy declared.nullSemantics a b

end Declared

/-! ### One order -/

/-- The values are null or of one type. -/
def OneType (rows : List Entry) : Prop :=
  ∃ t, ∀ e ∈ rows, e.value = .nil ∨ e.value.type = some t

/-- Both booleans are among the values. -/
def BothBooleans (rows : List Entry) : Prop :=
  (∃ a ∈ rows, a.value = .boolean true) ∧ ∃ b ∈ rows, b.value = .boolean false

namespace OrderValue

theorem sqlCompare_swap (v w : OrderValue) :
    w.sqlCompare v = (v.sqlCompare w).map Ordering.swap := by
  cases v <;> cases w <;> first | rfl | exact congrArg some Std.OrientedCmp.eq_swap

theorem eq_of_sqlCompare {v w : OrderValue} (level : v.sqlCompare w = some .eq) : v = w := by
  cases v <;> cases w <;> simp only [sqlCompare, Option.some.injEq, reduceCtorEq] at level
  all_goals exact congrArg _ (Std.LawfulEqCmp.eq_of_compare level)

theorem sqlCompare_isSome {v w : OrderValue} {t : ScalarType} (hv : v.type = some t)
    (hw : w.type = some t) : ∃ o, v.sqlCompare w = some o := by
  cases v <;> cases w <;> cases hv <;> cases hw <;> exact ⟨_, rfl⟩

def asNumber : OrderValue → ℚ
  | number x => x
  | _ => 0

def asText : OrderValue → String
  | text s => s
  | _ => ""

/-- Values of one type compare alike in Ruby and in SQL, but for the two booleans. -/
theorem spaceship_eq {v w : OrderValue} {t : ScalarType} (hv : v.type = some t)
    (hw : w.type = some t) (apart : ∀ b, v = .boolean b → w ≠ .boolean !b) :
    v.spaceship w = v.sqlCompare w := by
  cases v <;> cases w <;> cases hv <;> cases hw
  case boolean.boolean.refl.refl a b =>
    obtain rfl : a = b := by
      have other := apart a rfl
      cases a <;> cases b <;> simp_all
    simp [spaceship, sqlCompare]
  all_goals rfl

end OrderValue

section

variable {orderBy : OrderBy} {policy : Option String} {row position : Entry}

/-- The predicate holds of the rows that come after the position in the declared order. -/
theorem keysetOverField_iff (same : position.value.isNil = false → row.value.isNil = false →
      ∃ o, row.value.sqlCompare position.value = some o) :
    (SqlKeyset.keysetOverField orderBy policy position).eval row = some true ↔
      NullPolicy.sqlOrder orderBy policy position row = .lt := by
  have ids : compare position.id row.id = (compare row.id position.id).swap :=
    Std.OrientedCmp.eq_swap
  have first : NullPolicy.sqlNullsFirst orderBy policy = Cursor.nullsFirst orderBy policy := rfl
  unfold SqlKeyset.keysetOverField SqlKeyset.keysetAfterNull SqlKeyset.keysetAfterValue
    NullPolicy.sqlOrder
  rw [first, ids]
  generalize Cursor.nullsFirst orderBy policy = leads
  generalize orderBy.descending = desc
  cases hp : position.value.isNil with
  | true =>
    cases hr : row.value.isNil <;> cases desc <;> cases leads <;>
      simp only [Predicate.eval, hr, if_true, Bool.false_eq_true, if_false, directed] <;>
        generalize compare row.id position.id = i <;> cases i <;> decide
  | false =>
    cases hr : row.value.isNil with
    | true =>
      have unknown : row.value.sqlCompare position.value = none := by
        cases value : row.value <;> first | rfl | (rw [value] at hr; cases hr)
      cases desc <;> cases leads <;>
        simp only [Predicate.eval, hr, unknown, if_true, Bool.false_eq_true, if_false,
          Option.map_none] <;>
        generalize compare row.id position.id = i <;> cases i <;> decide
    | false =>
      obtain ⟨o, compared⟩ := same hp hr
      rw [OrderValue.sqlCompare_swap, compared]
      cases desc <;> cases leads <;>
        simp only [Predicate.eval, hr, compared, if_true, Bool.false_eq_true, if_false,
          Option.map_some, Option.getD_some, directed] <;>
        generalize compare row.id position.id = i <;> cases i <;> cases o <;> decide

/-- A row follows the position where it comes after it in the declared order. -/
theorem sequence_iff (same : position.value.isNil = false → row.value.isNil = false →
      ∃ o, row.value.spaceship position.value = some o ∧
        row.value.sqlCompare position.value = some o) :
    Cursor.sequence row position orderBy policy = .gt ↔
      NullPolicy.sqlOrder orderBy policy position row = .lt := by
  have ids : compare position.id row.id = (compare row.id position.id).swap :=
    Std.OrientedCmp.eq_swap
  have first : NullPolicy.sqlNullsFirst orderBy policy = Cursor.nullsFirst orderBy policy := rfl
  unfold Cursor.sequence Cursor.tiesById NullPolicy.sqlOrder
  rw [first, ids]
  generalize Cursor.nullsFirst orderBy policy = leads
  generalize orderBy.descending = desc
  cases hp : position.value.isNil with
  | true =>
    generalize compare row.id position.id = i
    cases row.value.isNil with
    | true =>
      simp only [ne_eq, not_true_eq_false, if_false, if_true, directed]
      cases desc <;> cases i <;> decide
    | false => cases leads <;> simp
  | false =>
    cases hr : row.value.isNil with
    | true => cases leads <;> simp
    | false =>
      obtain ⟨o, compared, compared'⟩ := same hp hr
      rw [OrderValue.sqlCompare_swap, compared, compared']
      generalize compare row.id position.id = i
      cases desc <;> cases leads <;> cases i <;> cases o <;> decide

end

/-! ### The sort in memory -/

section

variable {κ : Type} [LinearOrder κ] {rank : OrderValue → κ} {orderBy : OrderBy}
  {policy : Option String} {rows : List Entry} {a b : Entry}

/-- The values that are not null compare as their ranks do. -/
def Ranked (rank : OrderValue → κ) (rows : List Entry) : Prop :=
  ∀ a ∈ rows, ∀ b ∈ rows, a.value.isNil = false → b.value.isNil = false →
    a.value.spaceship b.value = some (compare (rank a.value) (rank b.value)) ∧
      a.value.sqlCompare b.value = some (compare (rank a.value) (rank b.value))

theorem eq_of_nil (ha : a.value.isNil = true) (hb : b.value.isNil = true) (same : a.id = b.id) :
    a = b := by
  obtain ⟨value, id⟩ := a
  obtain ⟨value', id'⟩ := b
  cases value <;> cases ha
  cases value' <;> cases hb
  cases same
  rfl

/-- Among the null rows the ids stand in the direction of the order. -/
theorem nulls_pairwise (ids : rows.Pairwise fun a b => a.id ≤ b.id) (distinct : rows.Nodup)
    (null : ∀ a ∈ rows, a.value.isNil = true) :
    (if orderBy.descending then rows.reverse else rows).Pairwise
      fun a b => NullPolicy.sqlOrder orderBy policy a b = .lt := by
  have strict : rows.Pairwise fun a b => a.id < b.id := by
    refine (ids.and distinct).imp_of_mem ?_
    rintro a b ha hb ⟨le, ne⟩
    exact lt_of_le_of_ne le fun same => ne (eq_of_nil (null a ha) (null b hb) same)
  cases desc : orderBy.descending with
  | true =>
    rw [if_pos rfl, List.pairwise_reverse]
    refine strict.imp_of_mem fun ha hb less => ?_
    simp only [NullPolicy.sqlOrder, null _ ha, null _ hb, desc, directed, if_true]
    rw [Ordering.swap_eq_lt]
    exact compare_gt_iff_gt.mpr less
  | false =>
    refine strict.imp_of_mem fun ha hb less => ?_
    simp only [NullPolicy.sqlOrder, null _ ha, null _ hb, desc, directed]
    exact compare_lt_iff_lt.mpr less

theorem values_pairwise (ranked : Ranked rank rows)
    (ids : rows.Pairwise fun a b => a.id ≤ b.id) (distinct : rows.Nodup)
    (valued : ∀ a ∈ rows, a.value.isNil = false) :
    (if orderBy.descending then (NullPolicy.sortByKey rows).reverse
      else NullPolicy.sortByKey rows).Pairwise
        fun a b => NullPolicy.sqlOrder orderBy policy a b = .lt := by
  have strict : rows.Pairwise fun a b => a.value = b.value → a.id < b.id := by
    refine (ids.and distinct).imp ?_
    rintro a b ⟨le, ne⟩ level
    refine lt_of_le_of_ne le fun same => ne ?_
    cases a
    cases b
    simp_all
  have sorted : (NullPolicy.sortByKey rows).Pairwise
      (StableSort.Before (fun e => rank e.value) fun a b => a.value = b.value → a.id < b.id) := by
    refine StableSort.pairwise_insertionSort ?_ strict
    intro a ha b hb
    rw [(ranked a ha b hb (valued a ha) (valued b hb)).1]
    simp [compare_gt_iff_gt]
  have mem : ∀ e ∈ NullPolicy.sortByKey rows, e ∈ rows := fun e he =>
    (List.mem_insertionSort _).mp he
  have level : ∀ a ∈ rows, ∀ b ∈ rows, rank a.value = rank b.value → a.value = b.value := by
    intro a ha b hb same
    apply OrderValue.eq_of_sqlCompare
    rw [(ranked a ha b hb (valued a ha) (valued b hb)).2, same, compare_eq_iff_eq.mpr rfl]
  have first : (NullPolicy.sortByKey rows).Pairwise fun a b =>
      (compare (rank a.value) (rank b.value)).then (compare a.id b.id) = .lt := by
    refine sorted.imp_of_mem ?_
    rintro a b ha hb (less | ⟨same, tie⟩)
    · rw [compare_lt_iff_lt.mpr less]
      rfl
    · have later := tie (level a (mem a ha) b (mem b hb) same)
      rw [compare_eq_iff_eq.mpr same, compare_lt_iff_lt.mpr later]
      rfl
  cases desc : orderBy.descending with
  | true =>
    rw [if_pos rfl, List.pairwise_reverse]
    refine first.imp_of_mem ?_
    intro a b ha hb before
    have compared := (ranked b (mem b hb) a (mem a ha) (valued b (mem b hb))
      (valued a (mem a ha))).2
    simp only [NullPolicy.sqlOrder, valued _ (mem a ha), valued _ (mem b hb), desc, compared,
      directed, if_true, Option.getD_some]
    rwa [← Std.OrientedCmp.eq_swap, ← Std.OrientedCmp.eq_swap]
  | false =>
    refine first.imp_of_mem ?_
    intro a b ha hb before
    have compared := (ranked a (mem a ha) b (mem b hb) (valued a (mem a ha))
      (valued b (mem b hb))).2
    simp only [NullPolicy.sqlOrder, valued _ (mem a ha), valued _ (mem b hb), desc, compared,
      directed, Option.getD_some]
    exact before

theorem Ranked.sortable (ranked : Ranked rank rows) : NullPolicy.Sortable rows := by
  intro a ha b hb valuedA valuedB
  rw [(ranked a ha b hb valuedA valuedB).1]
  rfl

theorem order_eq (sortable : NullPolicy.Sortable rows) :
    NullPolicy.order rows orderBy policy =
      let (nullRows, sorted) := NullPolicy.nullAndSorted rows orderBy.descending
      some (if NullPolicy.sqlNullsFirst orderBy policy then nullRows ++ sorted
        else sorted ++ nullRows) := by
  unfold NullPolicy.order NullPolicy.sqlNullsFirst
  rw [if_pos sortable]
  dsimp only
  split
  · rfl
  · rfl
  · cases orderBy.descending <;> rfl

theorem nullAndSorted_eq (descending : Bool) : NullPolicy.nullAndSorted rows descending =
    let nullRows := rows.filter (·.value.isNil)
    let sorted := NullPolicy.sortByKey (rows.filter (!·.value.isNil))
    (if descending then nullRows.reverse else nullRows,
      if descending then sorted.reverse else sorted) := by
  cases descending <;> rfl

theorem mem_turned {xs : List Entry} {descending : Bool} :
    a ∈ (if descending then xs.reverse else xs) ↔ a ∈ xs := by
  cases descending <;> simp

/-- The sort in memory gives the rows in the declared order. -/
theorem order_pairwise (ranked : Ranked rank rows) (ids : rows.Pairwise fun a b => a.id ≤ b.id)
    (distinct : rows.Nodup) : ∃ ordered, NullPolicy.order rows orderBy policy = some ordered ∧
      (∀ e, e ∈ ordered ↔ e ∈ rows) ∧
      ordered.Pairwise fun a b => NullPolicy.sqlOrder orderBy policy a b = .lt := by
  let nullRows := rows.filter (·.value.isNil)
  let valued := rows.filter (!·.value.isNil)
  have null : ∀ a ∈ nullRows, a.value.isNil = true := fun a ha => (List.mem_filter.mp ha).2
  have some_value : ∀ a ∈ valued, a.value.isNil = false := fun a ha => by
    simpa using (List.mem_filter.mp ha).2
  have ranked' : Ranked rank valued := fun a ha b hb =>
    ranked a (List.mem_of_mem_filter ha) b (List.mem_of_mem_filter hb)
  have nulls : (if orderBy.descending then nullRows.reverse else nullRows).Pairwise
      fun a b => NullPolicy.sqlOrder orderBy policy a b = .lt :=
    nulls_pairwise (ids.filter _) (distinct.filter _) null
  have values : (if orderBy.descending then (NullPolicy.sortByKey valued).reverse
      else NullPolicy.sortByKey valued).Pairwise
        fun a b => NullPolicy.sqlOrder orderBy policy a b = .lt :=
    values_pairwise ranked' (ids.filter _) (distinct.filter _) some_value
  have of_sort : ∀ e, e ∈ NullPolicy.sortByKey valued ↔ e ∈ valued := fun e =>
    List.mem_insertionSort _
  have members : ∀ e, e ∈ rows ↔ e ∈ nullRows ∨ e ∈ valued := by
    intro e
    cases isNil : e.value.isNil <;> simp [nullRows, valued, isNil]
  rw [order_eq ranked.sortable, nullAndSorted_eq]
  refine ⟨_, rfl, ?_, ?_⟩
  · intro e
    rw [members]
    split
    · rw [List.mem_append, mem_turned, mem_turned, of_sort]
    · rw [List.mem_append, mem_turned, mem_turned, of_sort, or_comm]
  · change List.Pairwise _ (if _ then (if _ then nullRows.reverse else nullRows) ++ _ else _)
    cases leads : NullPolicy.sqlNullsFirst orderBy policy with
    | true =>
      rw [if_pos rfl]
      refine List.pairwise_append.mpr ⟨nulls, values, ?_⟩
      intro a ha b hb
      have := null a (mem_turned.mp ha)
      have := some_value b ((of_sort b).mp (mem_turned.mp hb))
      simp [NullPolicy.sqlOrder, *]
    | false =>
      rw [if_neg Bool.false_ne_true]
      refine List.pairwise_append.mpr ⟨values, nulls, ?_⟩
      intro a ha b hb
      have := null b (mem_turned.mp hb)
      have := some_value a ((of_sort a).mp (mem_turned.mp ha))
      simp [NullPolicy.sqlOrder, *]

end

section

variable {rows : List Entry} {declared : Declared} {a b row position : Entry}

/-- But for the two booleans, values of one type have a rank. -/
theorem exists_ranked (alike : OneType rows) (apart : ¬ BothBooleans rows) :
    ∃ (κ : Type) (_ : LinearOrder κ) (rank : OrderValue → κ), Ranked rank rows := by
  obtain ⟨t, typed⟩ := alike
  have type_of : ∀ e ∈ rows, e.value.isNil = false → e.value.type = some t := by
    intro e he valued
    obtain isNil | same := typed e he
    · rw [isNil] at valued
      cases valued
    · exact same
  have compared : ∀ a ∈ rows, ∀ b ∈ rows, a.value.isNil = false → b.value.isNil = false →
      a.value.spaceship b.value = a.value.sqlCompare b.value := by
    intro a ha b hb valuedA valuedB
    apply OrderValue.spaceship_eq (type_of a ha valuedA) (type_of b hb valuedB)
    intro x valueA valueB
    cases x with
    | true => exact apart ⟨⟨a, ha, valueA⟩, b, hb, valueB⟩
    | false => exact apart ⟨⟨b, hb, valueB⟩, a, ha, valueA⟩
  have both {κ : Type} [LinearOrder κ] {rank : OrderValue → κ}
      (ranks : ∀ a ∈ rows, ∀ b ∈ rows, a.value.isNil = false → b.value.isNil = false →
        a.value.spaceship b.value = some (compare (rank a.value) (rank b.value))) :
      Ranked rank rows := by
    intro a ha b hb valuedA valuedB
    have ranked := ranks a ha b hb valuedA valuedB
    exact ⟨ranked, (compared a ha b hb valuedA valuedB).symm.trans ranked⟩
  cases t with
  | boolean =>
    refine ⟨Unit, inferInstance, fun _ => (), both ?_⟩
    intro a ha b hb valuedA valuedB
    have same := compared a ha b hb valuedA valuedB
    have typeA := type_of a ha valuedA
    have typeB := type_of b hb valuedB
    cases valueA : a.value <;> rw [valueA] at typeA <;> cases typeA
    cases valueB : b.value <;> rw [valueB] at typeB <;> cases typeB
    rename_i x y
    rw [valueA, valueB] at same
    cases x <;> cases y <;> first | rfl | cases same
  | number =>
    refine ⟨ℚ, inferInstance, OrderValue.asNumber, both ?_⟩
    intro a ha b hb valuedA valuedB
    have typeA := type_of a ha valuedA
    have typeB := type_of b hb valuedB
    cases valueA : a.value <;> rw [valueA] at typeA <;> cases typeA
    cases valueB : b.value <;> rw [valueB] at typeB <;> cases typeB
    rfl
  | text =>
    refine ⟨String, inferInstance, OrderValue.asText, both ?_⟩
    intro a ha b hb valuedA valuedB
    have typeA := type_of a ha valuedA
    have typeB := type_of b hb valuedB
    cases valueA : a.value <;> rw [valueA] at typeA <;> cases typeA
    cases valueB : b.value <;> rw [valueB] at typeB <;> cases typeB
    rfl

theorem sqlOrder_swap (orderBy : OrderBy) (policy : Option String) (a b : Entry) :
    NullPolicy.sqlOrder orderBy policy b a = (NullPolicy.sqlOrder orderBy policy a b).swap := by
  have ids : compare b.id a.id = (compare a.id b.id).swap := Std.OrientedCmp.eq_swap
  unfold NullPolicy.sqlOrder
  rw [ids, OrderValue.sqlCompare_swap]
  generalize compare a.id b.id = i
  generalize NullPolicy.sqlNullsFirst orderBy policy = leads
  generalize orderBy.descending = desc
  cases a.value.isNil <;> cases b.value.isNil
  case false.false =>
    cases a.value.sqlCompare b.value with
    | none => cases desc <;> cases i <;> rfl
    | some o => cases desc <;> cases i <;> cases o <;> rfl
  case true.true => cases desc <;> cases i <;> rfl
  all_goals cases leads <;> rfl

theorem sqlOrder_asymm (before : declared.sqlOrder a b = .lt) :
    ¬ declared.sqlOrder b a = .lt := by
  unfold Declared.sqlOrder at *
  cases order : declared.orderBy with
  | none =>
    rw [order] at before
    exact lt_asymm (compare_lt_iff_lt.mp before) ∘ compare_lt_iff_lt.mp
  | some orderBy =>
    rw [order] at before
    dsimp only at before ⊢
    rw [sqlOrder_swap, before]
    decide

/-- Rows with a rank are sorted into the declared order. -/
theorem apply_pairwise {κ : Type} [LinearOrder κ] {rank : OrderValue → κ}
    (ranked : declared.orderBy ≠ none → Ranked rank rows) (distinct : rows.Nodup)
    (bare : declared.orderBy = none → ∀ e ∈ rows, e.value = .nil) :
    ∃ ordered, declared.apply rows = some ordered ∧ (∀ e, e ∈ ordered ↔ e ∈ rows) ∧
      ordered.Pairwise fun a b => declared.sqlOrder a b = .lt := by
  have perm := rows.perm_insertionSort fun a b : Entry => a.id ≤ b.id
  have distinct' := perm.nodup_iff.mpr distinct
  have sorted : (rows.insertionSort fun a b => a.id ≤ b.id).Pairwise fun a b => a.id ≤ b.id := by
    have : Std.Total fun a b : Entry => a.id ≤ b.id := ⟨fun a b => le_total a.id b.id⟩
    have : IsTrans Entry fun a b => a.id ≤ b.id := ⟨fun a b c => le_trans⟩
    exact List.pairwise_insertionSort _ rows
  unfold Declared.apply Declared.sqlOrder
  cases order : declared.orderBy with
  | none =>
    refine ⟨_, rfl, fun e => perm.mem_iff, ?_⟩
    refine (sorted.and distinct').imp_of_mem ?_
    rintro a b ha hb ⟨le, ne⟩
    have null e (he : e ∈ rows) : e.value.isNil = true := by rw [bare order e he]; rfl
    refine compare_lt_iff_lt.mpr (lt_of_le_of_ne le fun same => ne ?_)
    exact eq_of_nil (null a (perm.mem_iff.mp ha)) (null b (perm.mem_iff.mp hb)) same
  | some orderBy =>
    have ranked' : Ranked rank (rows.insertionSort fun a b => a.id ≤ b.id) := fun a ha b hb =>
      ranked (by rw [order]; simp) a (perm.mem_iff.mp ha) b (perm.mem_iff.mp hb)
    obtain ⟨ordered, found, members, pairwise⟩ :
        ∃ ordered, NullPolicy.order _ orderBy declared.nullSemantics = some ordered ∧ _ ∧ _ :=
      order_pairwise ranked' sorted distinct'
    exact ⟨ordered, found, fun e => (members e).trans perm.mem_iff, pairwise⟩

/-- The sort raises on true and false. -/
theorem apply_eq_none {orderBy : OrderBy} (order : declared.orderBy = some orderBy)
    (both : BothBooleans rows) : declared.apply rows = none := by
  obtain ⟨⟨a, ha, valueA⟩, b, hb, valueB⟩ := both
  unfold Declared.apply
  rw [order]
  refine if_neg fun sortable => ?_
  have compared := sortable a ((List.mem_insertionSort _).mpr ha) b
    ((List.mem_insertionSort _).mpr hb) (by rw [valueA]; rfl) (by rw [valueB]; rfl)
  rw [valueA, valueB] at compared
  cases compared

/-- One order: the compiled predicate, the comparison with the position and the sorted rows, unless
the sort meets true and false. -/
theorem keyset_follows_iff (distinct : rows.Nodup) (alike : OneType rows)
    (bare : declared.orderBy = none → ∀ e ∈ rows, e.value = .nil) (hp : position ∈ rows)
    (hr : row ∈ rows) :
    (((SqlKeyset.keysetClause declared position).eval row = some true ↔
          Cursor.follows declared row position = true) ∧
        (Cursor.follows declared row position = true ↔
          declared.sqlOrder position row = .lt) ∧
        ∃ ordered, declared.apply rows = some ordered ∧
          (Cursor.follows declared row position = true ↔ [position, row].Sublist ordered)) ↔
      declared.orderBy = none ∨ ¬ BothBooleans rows := by
  constructor
  · rintro ⟨-, -, ordered, sorted, -⟩
    rw [or_iff_not_imp_left]
    intro ordering both
    obtain ⟨orderBy, order⟩ := Option.ne_none_iff_exists'.mp ordering
    rw [apply_eq_none order both] at sorted
    cases sorted
  · intro sortable
    have ranks : ∃ (κ : Type) (_ : LinearOrder κ) (rank : OrderValue → κ),
        declared.orderBy ≠ none → Ranked rank rows := by
      obtain none | apart := sortable
      · exact ⟨Unit, inferInstance, fun _ => (), fun some => absurd none some⟩
      · obtain ⟨κ, linear, rank, ranked⟩ := exists_ranked alike apart
        exact ⟨κ, linear, rank, fun _ => ranked⟩
    obtain ⟨κ, linear, rank, ranked⟩ := ranks
    obtain ⟨ordered, found, members, pairwise⟩ := apply_pairwise ranked distinct bare
    have compared := fun ordering => ranked ordering row hr position hp
    have later := StableSort.pair_sublist_iff pairwise ((members position).mpr hp)
      ((members row).mpr hr) sqlOrder_asymm
    have follows : Cursor.follows declared row position = true ↔
        declared.sqlOrder position row = .lt := by
      unfold Cursor.follows Declared.sqlOrder
      cases order : declared.orderBy with
      | none => simp [compare_gt_iff_gt, compare_lt_iff_lt]
      | some orderBy =>
        simp only [decide_eq_true_eq]
        refine sequence_iff fun valuedP valuedR => ⟨_, compared ?_ valuedR valuedP⟩
        rw [order]
        simp
    have keyset : (SqlKeyset.keysetClause declared position).eval row = some true ↔
        declared.sqlOrder position row = .lt := by
      unfold SqlKeyset.keysetClause Declared.sqlOrder
      cases order : declared.orderBy with
      | none => simp [Predicate.eval, Predicate.Beyond.admits, compare_gt_iff_gt,
          compare_lt_iff_lt]
      | some orderBy =>
        refine keysetOverField_iff fun valuedP valuedR => ⟨_, (compared ?_ valuedR valuedP).2⟩
        rw [order]
        simp
    exact ⟨keyset.trans follows.symm, follows, ordered, found, follows.trans later.symm⟩

end

def byTotal : Declared := { orderBy := some ⟨"total", "desc"⟩, nullSemantics := some "last" }

def totals : List Entry := [⟨.number 3, "c"⟩, ⟨.nil, "a"⟩, ⟨.number 3, "b"⟩]

/-- Of two rows of one total the later id leads in a descending order. -/
theorem totals_descend :
    (((SqlKeyset.keysetClause byTotal ⟨.number 3, "c"⟩).eval ⟨.number 3, "b"⟩ = some true ↔
          Cursor.follows byTotal ⟨.number 3, "b"⟩ ⟨.number 3, "c"⟩ = true) ∧
        (Cursor.follows byTotal ⟨.number 3, "b"⟩ ⟨.number 3, "c"⟩ = true ↔
          byTotal.sqlOrder ⟨.number 3, "c"⟩ ⟨.number 3, "b"⟩ = .lt) ∧
        ∃ ordered, byTotal.apply totals = some ordered ∧
          (Cursor.follows byTotal ⟨.number 3, "b"⟩ ⟨.number 3, "c"⟩ = true ↔
            [⟨.number 3, "c"⟩, ⟨.number 3, "b"⟩].Sublist ordered)) ↔
      byTotal.orderBy = none ∨ ¬ BothBooleans totals :=
  keyset_follows_iff (by decide) ⟨.number, by decide⟩ (fun none => by cases none) (by decide)
    (by decide)

def byPaid : Declared := { orderBy := some ⟨"paid", "asc"⟩, nullSemantics := none }

/-- After a paid order the store gives no unpaid one, and the comparison the ones of a later id. -/
theorem unpaid_after_paid :
    ¬ ((SqlKeyset.keysetClause byPaid ⟨.boolean true, "a"⟩).eval ⟨.boolean false, "b"⟩ =
        some true ↔ Cursor.follows byPaid ⟨.boolean false, "b"⟩ ⟨.boolean true, "a"⟩ = true) := by
  decide +kernel

/-! ### A reader of pages -/

/-- `Cursor.split`: rows fetched one past the page, as the page and the position of the next
one. -/
def Cursor.split (rows : List Entry) (size : Nat) : List Entry × Option Entry :=
  let page := rows.take size
  (page, if size < rows.length ∧ page ≠ [] then page.getLast? else none)

/-- The rows left by the keyset of the position the ask carries, as `query` selects them. -/
def SqlKeyset.restricted (declared : Declared) (rows : List Entry) :
    Option Entry → List Entry
  | none => rows
  | some position =>
      rows.filter fun row => (keysetClause declared position).eval row = some true

/-- `page` over a SQL store, which puts the selected rows in the order asked for. -/
def page (arrange : List Entry → List Entry) (declared : Declared) (rows : List Entry)
    (size : Nat) (after : Option Entry) : Except String (List Entry × Option Entry) :=
  let widened := size + 1
  .ok (Cursor.split ((arrange (SqlKeyset.restricted declared rows after)).take widened) size)

/-- What an `ORDER BY` is promised to do with any of the rows. -/
def Arranges (declared : Declared) (rows : List Entry)
    (arrange : List Entry → List Entry) : Prop :=
  ∀ kept ∈ rows.sublists, (arrange kept).Perm kept ∧
    (arrange kept).Pairwise fun a b => declared.sqlOrder a b ≠ .gt

instance (declared : Declared) (rows : List Entry) (arrange : List Entry → List Entry) :
    Decidable (Arranges declared rows arrange) :=
  inferInstanceAs (Decidable (∀ kept ∈ rows.sublists, _))

section

variable {declared : Declared} {rows : List Entry} {arrange : List Entry → List Entry}
  {row position : Entry}

/-- Rows of two identities are never level. -/
theorem sqlOrder_ne_eq (apart : position.id ≠ row.id) : declared.sqlOrder position row ≠ .eq := by
  have ids : compare position.id row.id ≠ .eq := fun level =>
    apart (Std.LawfulEqCmp.eq_of_compare level)
  unfold Declared.sqlOrder NullPolicy.sqlOrder
  generalize compare position.id row.id = i at ids
  cases declared.orderBy with
  | none => exact ids
  | some orderBy =>
    dsimp only
    generalize orderBy.descending = desc
    generalize NullPolicy.sqlNullsFirst orderBy declared.nullSemantics = leads
    generalize (position.value.sqlCompare row.value).getD .eq = o
    cases position.value.isNil <;> cases row.value.isNil <;> cases desc <;> cases leads <;>
      cases i <;> cases o <;> simp_all [directed]

theorem OneType.compares (alike : OneType rows) (hr : row ∈ rows) (hp : position ∈ rows)
    (valuedP : position.value.isNil = false) (valuedR : row.value.isNil = false) :
    ∃ o, row.value.sqlCompare position.value = some o := by
  obtain ⟨t, typed⟩ := alike
  refine OrderValue.sqlCompare_isSome ((typed row hr).resolve_left ?_)
    ((typed position hp).resolve_left ?_)
  · intro null
    rw [null] at valuedR
    cases valuedR
  · intro null
    rw [null] at valuedP
    cases valuedP

/-- The keyset lets through the rows after the position, booleans among them too. -/
theorem keysetClause_iff (alike : OneType rows) (hr : row ∈ rows) (hp : position ∈ rows) :
    (SqlKeyset.keysetClause declared position).eval row = some true ↔
      declared.sqlOrder position row = .lt := by
  unfold SqlKeyset.keysetClause Declared.sqlOrder
  cases declared.orderBy with
  | none => simp [Predicate.eval, Predicate.Beyond.admits, compare_gt_iff_gt, compare_lt_iff_lt]
  | some orderBy => exact keysetOverField_iff (alike.compares hr hp)

theorem sqlOrder_self (declared : Declared) (row : Entry) : ¬ declared.sqlOrder row row = .lt :=
  fun before => sqlOrder_asymm before before

/-- Rows of distinct ids stand strictly in the order. -/
theorem Arranges.strict (arranges : Arranges declared rows arrange)
    (distinct : (rows.map (·.id)).Nodup) {kept : List Entry} (part : kept.Sublist rows) :
    (arrange kept).Pairwise fun a b => declared.sqlOrder a b = .lt := by
  obtain ⟨perm, sorted⟩ := arranges kept (List.mem_sublists.mpr part)
  have apart : (arrange kept).Pairwise fun a b => a.id ≠ b.id := by
    have ids : ((arrange kept).map (·.id)).Nodup :=
      (perm.map _).nodup_iff.mpr (distinct.sublist (part.map _))
    exact List.pairwise_map.mp ids
  refine (sorted.and apart).imp ?_
  rintro a b ⟨le, ne⟩
  have level : declared.sqlOrder a b ≠ .eq := sqlOrder_ne_eq ne
  cases order : declared.sqlOrder a b with
  | lt => rfl
  | eq => exact absurd order level
  | gt => exact absurd order le

/-- What is left of the rows is arranged as they are. -/
theorem Arranges.filter (arranges : Arranges declared rows arrange)
    (distinct : (rows.map (·.id)).Nodup) (p : Entry → Bool) :
    arrange (rows.filter p) = (arrange rows).filter p := by
  have whole := arranges.strict distinct (List.Sublist.refl rows)
  have part := arranges.strict distinct (List.filter_sublist (p := p))
  have perm : (arrange (rows.filter p)).Perm ((arrange rows).filter p) :=
    (arranges _ (List.mem_sublists.mpr List.filter_sublist)).1.trans
      ((arranges _ (List.mem_sublists.mpr (List.Sublist.refl rows))).1.filter p).symm
  refine perm.eq_of_pairwise ?_ part (whole.filter p)
  intro a b _ _ before after
  exact absurd after (sqlOrder_asymm before)

/-- A statement of one row more than the page tells whether there is a next one. -/
theorem split_take (ordered : List Entry) {size : Nat} (positive : 0 < size) :
    Cursor.split (ordered.take (size + 1)) size = Paging.cut id size ordered := by
  have front : (ordered.take (size + 1)).take size = ordered.take size := by
    rw [List.take_take, Nat.min_eq_left (Nat.le_succ size)]
  unfold Cursor.split Paging.cut
  dsimp only
  rw [front, List.length_take]
  by_cases fits : ordered.length ≤ size
  · rw [if_pos fits, List.take_of_length_le fits, if_neg fun more => by omega]
  · have nonempty : ordered.take size ≠ [] := by
      intro none
      have := congrArg List.length none
      rw [List.length_take, List.length_nil] at this
      omega
    rw [if_neg fits, if_pos ⟨by omega, nonempty⟩, Option.map_id_fun, id]

/-- A reader who asks a SQL store for page after page gets every row once, in the declared order,
booleans and nulls included. -/
theorem pages_walk (alike : OneType rows) (distinct : (rows.map (·.id)).Nodup)
    (arranges : Arranges declared rows arrange) {size : Nat} (positive : 0 < size) :
    ∃ pages, Paging.Walk (page arrange declared rows size) none pages ∧
      pages.flatten = arrange rows ∧ pages.flatten.Perm rows := by
  have perm := (arranges rows (List.mem_sublists.mpr (List.Sublist.refl rows))).1
  have strict := arranges.strict distinct (List.Sublist.refl rows)
  let follows := fun row position => decide (declared.sqlOrder position row = .lt)
  have sequenced : Paging.Sequenced follows (arrange rows) := by
    refine ⟨strict.imp fun before => decide_eq_true before, strict.imp fun before => ?_, ?_⟩
    · exact decide_eq_false (sqlOrder_asymm before)
    · exact fun a _ => decide_eq_false (sqlOrder_self declared a)
  have asked : ∀ a ∈ arrange rows, page arrange declared rows size (some (id a)) =
      .ok (Paging.cut id size ((arrange rows).filter (follows · a))) := by
    intro a member
    have selected : SqlKeyset.restricted declared rows (some (id a)) =
        rows.filter (follows · a) := by
      refine List.filter_congr fun row hr => ?_
      exact decide_eq_decide.mpr (keysetClause_iff alike hr (perm.subset member))
    rw [page, split_take _ positive, selected, arranges.filter distinct]
  obtain ⟨pages, walk, joined⟩ := Paging.walk_rows sequenced positive
    (by rw [page, split_take _ positive]; rfl) asked
  exact ⟨pages, walk, joined, joined ▸ perm⟩

end

/-- Of two paid orders, one unpaid and one without an answer, two a page. -/
theorem paid_pages :
    let rows := [⟨.boolean true, "a"⟩, ⟨.boolean false, "b"⟩, ⟨.nil, "c"⟩, ⟨.boolean true, "d"⟩]
    let arrange := List.insertionSort fun a b => byPaid.sqlOrder a b ≠ .gt
    ∃ pages, Paging.Walk (page arrange byPaid rows 2) none pages ∧
      pages.flatten = arrange rows ∧ pages.flatten.Perm rows :=
  pages_walk ⟨.boolean, by decide⟩ (by decide) (by decide +kernel) (by decide)

end Hecks.Query.Keyset
