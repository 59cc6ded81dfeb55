import Hecks.Lib.IntegerOrder
import Hecks.Parser.Handover

/-! The comparison operators on integers. Equality is of the integers, but the order is that of
the doubles they convert to, which neighbours beyond fifty-three bits share. -/
namespace Hecks

open Panics Operators Parser

/-- What a comparison's symbol says of two integers. -/
def Parser.Operator.ofIntegers (operator : Operator) (a b : ℤ) : Bool :=
  if operator.symbol = ">=" then decide (a ≥ b)
  else if operator.symbol = "<=" then decide (a ≤ b)
  else if operator.symbol = "<" then decide (a < b)
  else if operator.symbol = ">" then decide (a > b)
  else if operator.symbol = "==" then decide (a = b)
  else decide (a ≠ b)

/-- The algebra on the answers of the two primitive comparisons. -/
def Parser.Operator.combine (operator : Operator) (less equal : Bool) : Bool :=
  let held := operator.comparesLessThan && less || operator.comparesEqual && equal
  if operator.negated then !held else held

section

variable (escapes : Char → Bool) (regex : RegexBuilder) (debugExpr : Expr → String)

/-- The comparison of two integer literals. -/
def compareInts (operator : Operator) (a b : Int64) (ctx : EvalContext) : Eval Value :=
  interpret escapes regex debugExpr (.compare operator.comparison (.int a) (.int b)) ctx

/-- The operator of the symbol holds of the integers. -/
def HoldsOf (symbol : String) (a b : Int64) (ctx : EvalContext) : Prop :=
  ∃ operator ∈ operators, operator.symbol = symbol ∧
    compareInts escapes regex debugExpr operator a b ctx = pure (.bool true)

/-- Every operator answers as the integers stand, and exactly one of `<`, `==` and `>` holds. -/
structure AgreesOnInts (a b : Int64) (ctx : EvalContext) : Prop where
  each : ∀ operator ∈ operators, compareInts escapes regex debugExpr operator a b ctx =
    pure (.bool (operator.ofIntegers a.toInt b.toInt))
  one : ∃! symbol, symbol ∈ ["<", "==", ">"] ∧ HoldsOf escapes regex debugExpr symbol a b ctx

variable {escapes regex debugExpr} {operator : Operator} {a b : Int64} {ctx : EvalContext}

theorem compareInts_eq : compareInts escapes regex debugExpr operator a b ctx =
    pure (.bool (operator.combine (decide (Float.Model.ofInt64 a < Float.Model.ofInt64 b))
      (a == b))) := by
  rw [compareInts, interpret_compare, interpret, interpret]
  obtain ⟨symbol, less, equal, negated⟩ := operator
  cases less <;> cases equal <;> cases negated <;> rfl

/-- The operators of the table, on what the two primitives answer of integers in order. -/
theorem combine_ofIntegers {m n : ℤ} (listed : operator ∈ operators) :
    operator.combine (decide (m < n)) (decide (m = n)) = operator.ofIntegers m n := by
  simp only [operators, List.mem_cons, List.not_mem_nil, or_false] at listed
  rcases lt_trichotomy m n with less | same | more
  · rcases listed with rfl | rfl | rfl | rfl | rfl | rfl <;>
      simp [Operator.combine, Operator.ofIntegers, less, less.le, less.ne, less.not_ge, less.asymm]
  · subst same
    rcases listed with rfl | rfl | rfl | rfl | rfl | rfl <;>
      simp [Operator.combine, Operator.ofIntegers]
  · rcases listed with rfl | rfl | rfl | rfl | rfl | rfl <;>
      simp [Operator.combine, Operator.ofIntegers, more, more.le, more.ne', more.not_ge, more.asymm]

/-- The doubles stand as the integers do, unless two integers in order share one. -/
theorem floats_less (apart : b ≤ a ∨ (Float.Model.ofInt64 a == Float.Model.ofInt64 b) = false) :
    Float.Model.ofInt64 a < Float.Model.ofInt64 b ↔ a.toInt < b.toInt := by
  rw [Decimal.ofInt64_lt_iff]
  constructor
  · intro less
    by_contra order
    exact absurd (Decimal.place_ofInt64_mono (Int64.le_iff_toInt_le.mpr (by omega))) less.not_ge
  · intro less
    rcases apart with order | apart
    · have := Int64.le_iff_toInt_le.mp order
      omega
    · apply lt_of_le_of_ne (Decimal.place_ofInt64_mono (Int64.le_iff_toInt_le.mpr (by omega)))
      intro same
      rw [Decimal.ofInt64_beq_iff.mpr same] at apart
      cases apart

/-- Where the operators answer as the integers stand, one symbol holds as its integers do. -/
theorem holdsOf_iff (each : ∀ operator ∈ operators,
      compareInts escapes regex debugExpr operator a b ctx =
        pure (.bool (operator.ofIntegers a.toInt b.toInt)))
    (operator : Operator) (listed : operator ∈ operators) :
    HoldsOf escapes regex debugExpr operator.symbol a b ctx ↔
      operator.ofIntegers a.toInt b.toInt = true := by
  constructor
  · rintro ⟨other, also, same, held⟩
    have named : ∀ x ∈ operators, ∀ y ∈ operators, x.symbol = y.symbol → x = y := by decide
    rw [each other also, named other also operator listed same] at held
    injection held with held
    injection held
  · intro held
    refine ⟨operator, listed, rfl, ?_⟩
    rw [each operator listed, held]

/-- Answers that are those of the integers are three of which one holds. -/
theorem one_of_each (each : ∀ operator ∈ operators,
      compareInts escapes regex debugExpr operator a b ctx =
        pure (.bool (operator.ofIntegers a.toInt b.toInt))) :
    ∃! symbol, symbol ∈ ["<", "==", ">"] ∧ HoldsOf escapes regex debugExpr symbol a b ctx := by
  have less : HoldsOf escapes regex debugExpr "<" a b ctx ↔ a.toInt < b.toInt :=
    (holdsOf_iff each ⟨"<", true, false, false⟩ (by decide)).trans
      (by simp [Operator.ofIntegers])
  have more : HoldsOf escapes regex debugExpr ">" a b ctx ↔ a.toInt > b.toInt :=
    (holdsOf_iff each ⟨">", true, true, true⟩ (by decide)).trans
      (by simp [Operator.ofIntegers])
  have same : HoldsOf escapes regex debugExpr "==" a b ctx ↔ a.toInt = b.toInt :=
    (holdsOf_iff each ⟨"==", false, true, false⟩ (by decide)).trans
      (by simp [Operator.ofIntegers])
  have only : ∀ symbol, symbol ∈ ["<", "==", ">"] ∧ HoldsOf escapes regex debugExpr symbol a b ctx ↔
      symbol = "<" ∧ a.toInt < b.toInt ∨ symbol = "==" ∧ a.toInt = b.toInt ∨
        symbol = ">" ∧ a.toInt > b.toInt := by
    intro symbol
    simp only [List.mem_cons, List.not_mem_nil, or_false]
    grind
  simp only [only]
  rcases lt_trichotomy a.toInt b.toInt with order | order | order
  · exact ⟨"<", .inl ⟨rfl, order⟩, by grind⟩
  · exact ⟨"==", .inr (.inl ⟨rfl, order⟩), by grind⟩
  · exact ⟨">", .inr (.inr ⟨rfl, order⟩), by grind⟩

/-- The operators are those of the 64-bit integers exactly where the smaller of two integers
does not convert to the double of the larger one behind it. -/
theorem agreesOnInts_iff (a b : Int64) (ctx : EvalContext) :
    AgreesOnInts escapes regex debugExpr a b ctx ↔
      b ≤ a ∨ (Float.Model.ofInt64 a == Float.Model.ofInt64 b) = false := by
  constructor
  · intro agrees
    by_contra shared
    obtain ⟨order, shared⟩ := not_or.mp shared
    rw [Bool.not_eq_false] at shared
    have less : a.toInt < b.toInt := by
      rw [Int64.le_iff_toInt_le] at order
      omega
    have answer := agrees.each ⟨"<", true, false, false⟩ (by decide)
    have level : ¬ Float.Model.ofInt64 a < Float.Model.ofInt64 b := by
      rw [Decimal.ofInt64_lt_iff, Decimal.ofInt64_beq_iff.mp shared]
      exact lt_irrefl _
    rw [compareInts_eq] at answer
    simp [Operator.combine, Operator.ofIntegers, level, less] at answer
    cases answer
  · intro apart
    have each : ∀ operator ∈ operators, compareInts escapes regex debugExpr operator a b ctx =
        pure (.bool (operator.ofIntegers a.toInt b.toInt)) := by
      intro operator listed
      have equal : (a == b) = decide (a.toInt = b.toInt) := by
        rw [Bool.eq_iff_iff, beq_iff_eq, decide_eq_true_iff, Int64.toInt_inj]
      rw [compareInts_eq, decide_eq_decide.mpr (floats_less apart), equal,
        combine_ofIntegers listed]
    exact ⟨each, one_of_each each⟩

end

/-- `9007199254740992 < 9007199254740993` is answered with false. -/
theorem neighbours_disagree :
    ¬ AgreesOnInts (fun _ => false) (fun _ _ _ _ => .error "") (fun _ => "") 9007199254740992
      9007199254740993 ⟨Fielded.noFields, Fielded.noFields⟩ := by
  intro agrees
  have answer := agrees.each ⟨"<", true, false, false⟩ (by decide)
  have level : decide (Float.Model.ofInt64 9007199254740992 <
      Float.Model.ofInt64 9007199254740993) = false := by decide
  rw [compareInts_eq, level] at answer
  injection answer with answer
  injection answer with answer
  exact absurd answer (by decide)

end Hecks
