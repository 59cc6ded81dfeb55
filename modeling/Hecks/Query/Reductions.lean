import Hecks.Lib.ExactFloats
import Hecks.Query.Comparators

/-! The reductions of a read model, which answer a head's rows with one value. A sum is taken in
doubles, from zero, in the order of the rows. -/
namespace Hecks.Query

open Binary64

/-! ### The reductions -/

/-- The rows of the vocabulary a reduction is an instance of. -/
inductive Reducer where
  | count
  | sum
  | avg
  | min
  | max
  | median
  | percentile
  | any
  | all
deriving DecidableEq

/-- The row's declared `identity`. -/
def Reducer.identity : Reducer → String
  | count | sum => "0"
  | avg | min | max | median | percentile => "null"
  | any => "false"
  | all => "true"

/-- One reduction a read model declares over its `many`-side head's rows. -/
inductive Reduction where
  | count
  | median (field : String)
  | sum (field : String)
  | avg (field : String)
  | min (field : String)
  | max (field : String)
  | percentile (field : String) (rank : Float.Model)
  | any (field : String)
  | all (field : String)

namespace Reduction

def reducer : Reduction → Reducer
  | count => .count
  | median _ => .median
  | sum _ => .sum
  | avg _ => .avg
  | min _ => .min
  | max _ => .max
  | percentile _ _ => .percentile
  | any _ => .any
  | all _ => .all

/-- The declared field this reduction reads; none for `count`, which reads no field. -/
def field : Reduction → Option String
  | count => none
  | median field | sum field | avg field | min field | max field | percentile field _ | any field
  | all field => some field

end Reduction

/-- A reducer's answer over no rows: its identity, read as JSON text. -/
def emptyAnswer (reducer : Reducer) : Json :=
  match reducer.identity with
  | "true" => .bool true
  | "false" => .bool false
  | number =>
      match Binary64.parse number with
      | some value => .num value none
      | none => .null

def notNull : Json → Bool
  | .null => false
  | _ => true

/-- What the rows have in a field, reduced to what can be compared. -/
def comparables (rows : Rows) (field : String) : List Json :=
  (rows.filterMap fun row => row.2.get field).map comparable

/-- Whether no row holds a value for the declared field. -/
def holdsNoValue (rows : Rows) (field : String) : Bool := (comparables rows field).all fun value => !notNull value

def held (rows : Rows) (field : String) : List Json :=
  (comparables rows field).filter notNull

/-- The total of the declared integer field, with no source text. -/
def sum (rows : Rows) (field : String) : Json :=
  .num ((held rows field).foldl (fun total value => total + asF64 value) (Float.Model.ofNat 0)) none

section

-- the reductions other than `count` and `sum`
variable (others : Reduction → Rows → Json)

/-- The head's rows reduced as declared; no value for the declared field answers the identity. -/
def reduce (rows : Rows) (reduction : Reduction) : Json :=
  if reduction.field.any (holdsNoValue rows) then emptyAnswer reduction.reducer
  else
    match reduction with
    | .count => .num (Float.Model.ofNat rows.length) none
    | .sum field => sum rows field
    | reduction => others reduction rows

end

/-! ### What the rows hold -/

/-- The integer a value is, by its source text or its double. -/
def integerOf : Json → Int
  | .num n raw => ((Json.exactI64 n raw).map (·.toInt)).getD 0
  | _ => 0

/-- The sum of the integers the rows hold in a field. -/
def exactSum (rows : Rows) (field : String) : Int := ((held rows field).map integerOf).sum

/-- A value as an integer is held: its nearest double, and a text wherever that reads as another. -/
def IsInteger (value : Json) : Prop :=
  ∃ i raw, value = .num (Float.Model.ofInt64 i) raw ∧
    Json.exactI64 (Float.Model.ofInt64 i) raw = some i

/-- The field holds 64-bit integers, in the rows that hold it. -/
def HoldIntegers (rows : Rows) (field : String) : Prop := ∀ value ∈ held rows field, IsInteger value

/-- One row's part of what is held. -/
def heldIn (field : String) (row : String × Json) : Option Json :=
  ((row.2.get field).map comparable).filter notNull

section

variable {others : Reduction → Rows → Json} {rows part order : Rows} {field : String}

theorem held_eq (rows : Rows) (field : String) : held rows field = rows.filterMap (heldIn field) := by
  rw [held, comparables, List.map_filterMap, List.filter_filterMap]
  rfl

theorem held_perm (perm : order.Perm rows) : (held order field).Perm (held rows field) := by
  rw [held_eq, held_eq]
  exact perm.filterMap _

/-- What part of the rows holds is part of what they hold. -/
theorem held_subperm (within : part.Subperm rows) : (held part field).Subperm (held rows field) := by
  obtain ⟨same, perm, sub⟩ := within
  have inside : (held same field).Sublist (held rows field) := by
    rw [held_eq, held_eq]
    exact sub.filterMap _
  exact (held_perm perm).symm.subperm.trans inside.subperm

theorem exactSum_perm (perm : order.Perm rows) : exactSum order field = exactSum rows field :=
  ((held_perm perm).map _).sum_eq

theorem emptyAnswer_sum : emptyAnswer .sum = .num (Float.Model.ofNat 0) none := by
  rfl

/-- No value at all sums to zero as well. -/
theorem reduce_sum : reduce others rows (.sum field) = sum rows field := by
  by_cases none : (Reduction.sum field).field.any (holdsNoValue rows) = true
  · have empty : held rows field = [] := by
      rw [held, List.filter_eq_nil_iff]
      intro value mem
      simpa using List.all_eq_true.mp none value mem
    rw [reduce, if_pos none, sum, empty]
    exact emptyAnswer_sum
  · rw [reduce, if_neg none]

/-! ### Summing in doubles -/

/-- A run of additions none of which rounds. -/
theorem foldl_exact {values : List Json} {total : Float.Model} {z : Int}
    (integers : ∀ value ∈ values, IsInteger value ∧ IsFloat (integerOf value))
    (start : IsExactly total z)
    (running : ∀ before, before <+: values → IsFloat (z + (before.map integerOf).sum)) :
    IsExactly (values.foldl (fun total value => total + asF64 value) total)
      ((z + (values.map integerOf).sum : Int) : ℚ) := by
  induction values generalizing total z with
  | nil => simpa using start
  | cons value values ih =>
    obtain ⟨⟨i, raw, rfl, reads⟩, small⟩ := integers value List.mem_cons_self
    have whole : integerOf (.num (Float.Model.ofInt64 i) raw) = i.toInt := by
      rw [integerOf, reads]
      rfl
    rw [whole] at small
    obtain ⟨next, exactly⟩ := exists_exactly (running [.num (Float.Model.ofInt64 i) raw] (by simp))
    rw [List.map_singleton, List.sum_singleton, whole] at exactly
    have step : IsExactly (total + Float.Model.ofInt64 i) ((z + i.toInt : Int) : ℚ) := by
      push_cast at exactly ⊢
      exact add_exact start (ofInt64_exact small) exactly
    have rest := ih (fun value mem => integers value (List.mem_cons_of_mem _ mem)) step (by
      intro before prefix'
      have longer := running (.num (Float.Model.ofInt64 i) raw :: before)
        (List.cons_prefix_cons.mpr ⟨rfl, prefix'⟩)
      rw [List.map_cons, List.sum_cons, whole] at longer
      rwa [Int.add_assoc])
    rw [List.map_cons, List.sum_cons, whole, ← Int.add_assoc]
    exact rest

/-- What one row holds is the sum of a part of the rows. -/
theorem isFloat_of_mem (parts : ∀ part, part.Subperm rows → IsFloat (exactSum part field))
    {value : Json} (mem : value ∈ held rows field) : IsFloat (integerOf value) := by
  rw [held_eq] at mem
  obtain ⟨row, mem, found⟩ := List.mem_filterMap.mp mem
  have single := parts [row] (List.singleton_sublist.mpr mem).subperm
  have alone : held [row] field = [value] := by rw [held_eq, List.filterMap_cons, found]; rfl
  rwa [exactSum, alone, List.map_singleton, List.sum_singleton] at single

/-- A running total is the sum of the rows so far. -/
theorem isFloat_of_prefix (parts : ∀ part, part.Subperm rows → IsFloat (exactSum part field))
    {before : List Json} (running : before <+: held rows field) :
    IsFloat ((before.map integerOf).sum) := by
  rw [held_eq, List.prefix_filterMap_iff] at running
  obtain ⟨part, first, rfl⟩ := running
  have so_far := parts part first.sublist.subperm
  rwa [exactSum, held_eq] at so_far

/-- Where the sum of every part of the rows is a float, the rows are summed exactly. -/
theorem sum_exact (integers : HoldIntegers rows field)
    (parts : ∀ part, part.Subperm rows → IsFloat (exactSum part field)) :
    ∃ n, sum rows field = .num n none ∧ IsExactly n (exactSum rows field) := by
  have zero : IsExactly (Float.Model.ofNat 0) ((0 : Int) : ℚ) := isExactly_pack trivial rfl
  have total : IsExactly _ ((0 + ((held rows field).map integerOf).sum : Int) : ℚ) :=
    foldl_exact (fun value mem => ⟨integers value mem, isFloat_of_mem parts mem⟩) zero
      fun before running => by
        rw [Int.zero_add]
        exact isFloat_of_prefix parts running
  rw [Int.zero_add] at total
  exact ⟨_, rfl, total⟩

end

section

variable (others : Reduction → Rows → Json)

/-- In every order the rows are reduced to their exact sum. -/
def SumsExactly (rows : Rows) (field : String) : Prop :=
  ∀ order : Rows, order.Perm rows → ∃ n, reduce others order (.sum field) = .num n none ∧
    IsExactly n (exactSum rows field)

variable {rows : Rows} {field : String}

theorem sumsExactly_of_parts (integers : HoldIntegers rows field)
    (parts : ∀ part : Rows, part.Subperm rows → IsFloat (exactSum part field)) :
    SumsExactly others rows field := by
  intro order perm
  rw [reduce_sum, ← exactSum_perm perm]
  apply sum_exact
  · intro value mem
    exact integers value ((held_perm perm).subset mem)
  · intro part inside
    exact parts part (inside.trans perm.subperm)

/-- The rows, and every part of them, are summed exactly in every order, exactly when the sum of
every part is a float. -/
theorem sum_exact_iff (integers : HoldIntegers rows field) :
    (∀ part : Rows, part.Subperm rows → SumsExactly others part field) ↔
      ∀ part : Rows, part.Subperm rows → IsFloat (exactSum part field) := by
  constructor
  · intro exactly part within
    obtain ⟨n, -, value⟩ := exactly part within part (List.Perm.refl part)
    exact isFloat_of_exactly value
  · intro parts part within
    apply sumsExactly_of_parts
    · intro value mem
      exact integers value ((held_subperm within).subset mem)
    · intro smaller inside
      exact parts smaller (inside.trans within)

theorem natAbs_sum_le (values : List Json) :
    ((values.map integerOf).sum).natAbs ≤
      (values.map fun value => (integerOf value).natAbs).sum := by
  induction values with
  | nil => simp
  | cons value values ih =>
    rw [List.map_cons, List.map_cons, List.sum_cons, List.sum_cons]
    omega

/-- Integers whose sizes add up to at most `2 ^ 53` are summed exactly. -/
theorem sum_exact_of_small (integers : HoldIntegers rows field)
    (small : ((held rows field).map fun value => (integerOf value).natAbs).sum ≤ 2 ^ 53) :
    SumsExactly others rows field := by
  apply sumsExactly_of_parts others integers
  intro part within
  have sizes : ((held part field).map fun value => (integerOf value).natAbs).sum ≤
      ((held rows field).map fun value => (integerOf value).natAbs).sum := by
    obtain ⟨same, perm, sub⟩ : (held part field).Subperm (held rows field) := held_subperm within
    rw [← (perm.map _).sum_eq]
    exact (sub.map _).sum_le_sum fun _ _ => Nat.zero_le _
  have size := natAbs_sum_le (held part field)
  exact isFloat_of_le (by rw [exactSum]; omega)

end

/-- A row of an amount. -/
def amount (id : String) (cents : Int64) : String × Json :=
  (id, .object [("amount", Json.int cents)])

theorem exactI64_int (i : Int64) :
    Json.exactI64 (Float.Model.ofInt64 i) (some (toString i.toInt)) = some i := by
  rw [Json.exactI64, Option.bind_some, Decimal.parseI64_toString, Option.some_or]

theorem integerOf_int (i : Int64) : integerOf (Json.int i) = i.toInt := by
  rw [Json.int, integerOf, exactI64_int]
  rfl

theorem held_amounts (a b : Int64) :
    held [amount "a" a, amount "b" b] "amount" = [Json.int a, Json.int b] := rfl

theorem holdIntegers_amounts (a b : Int64) :
    HoldIntegers [amount "a" a, amount "b" b] "amount" := by
  intro value mem
  rw [held_amounts] at mem
  obtain rfl | mem := List.mem_cons.mp mem
  · exact ⟨a, _, rfl, exactI64_int a⟩
  · obtain rfl := List.mem_singleton.mp mem
    exact ⟨b, _, rfl, exactI64_int b⟩

theorem exactSum_amounts (a b : Int64) :
    exactSum [amount "a" a, amount "b" b] "amount" = a.toInt + b.toInt := by
  rw [exactSum, held_amounts, List.map_cons, List.map_singleton, integerOf_int, integerOf_int]
  simp

/-- The amounts of two rows, forty-two in all. -/
theorem small_amounts_exact :
    SumsExactly (fun _ _ => .null) [amount "a" 40, amount "b" 2] "amount" := by
  refine sum_exact_of_small _ (holdIntegers_amounts 40 2) ?_
  rw [held_amounts, List.map_cons, List.map_singleton, integerOf_int, integerOf_int]
  decide

/-- Past `2 ^ 53` a cent is lost. -/
theorem cent_lost :
    HoldIntegers [amount "a" 9007199254740992, amount "b" 1] "amount" ∧
      exactSum [amount "a" 9007199254740992, amount "b" 1] "amount" = 9007199254740993 ∧
      ¬SumsExactly (fun _ _ => .null) [amount "a" 9007199254740992, amount "b" 1] "amount" := by
  have total : exactSum [amount "a" 9007199254740992, amount "b" 1] "amount" =
      9007199254740993 := exactSum_amounts _ _
  refine ⟨holdIntegers_amounts _ _, total, ?_⟩
  intro exactly
  obtain ⟨n, -, value⟩ := exactly _ (List.Perm.refl _)
  obtain ⟨m, j, fits, -, size⟩ := isFloat_of_exactly value
  rw [total] at size
  -- an odd number of 54 bits
  cases j with
  | zero =>
    rw [pow_zero] at size
    omega
  | succ j =>
    have even : m * 2 ^ (j + 1) = 2 * (m * 2 ^ j) := by ring
    omega

/-- Cents of everyday size. -/
theorem cents_summed :
    (∀ part : Rows, part.Subperm [amount "a" 1, amount "b" 2] →
        SumsExactly (fun _ _ => .null) part "amount") ↔
      ∀ part : Rows, part.Subperm [amount "a" 1, amount "b" 2] →
        IsFloat (exactSum part "amount") :=
  sum_exact_iff _ (holdIntegers_amounts 1 2)

end Hecks.Query
