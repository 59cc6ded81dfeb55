import Hecks.Lib.IntegerOrder
import Hecks.Query.Comparators

/-! The comparators on stored integers: equality reads the integers' texts, the order their
doubles. -/

namespace Hecks.Query

/-- The six comparators answer as the integers stand, and one of `>` and `<=` holds. -/
structure AgreesOnIntegers (held want : Int64) : Prop where
  eq : QueryComparator.eq.matches (Json.int held) (Json.int want) =
    decide (held.toInt = want.toInt)
  ne : QueryComparator.ne.matches (Json.int held) (Json.int want) =
    decide (held.toInt ≠ want.toInt)
  gt : QueryComparator.gt.matches (Json.int held) (Json.int want) =
    decide (held.toInt > want.toInt)
  gte : QueryComparator.gte.matches (Json.int held) (Json.int want) =
    decide (held.toInt ≥ want.toInt)
  lt : QueryComparator.lt.matches (Json.int held) (Json.int want) =
    decide (held.toInt < want.toInt)
  lte : QueryComparator.lte.matches (Json.int held) (Json.int want) =
    decide (held.toInt ≤ want.toInt)
  one : QueryComparator.gt.matches (Json.int held) (Json.int want) =
    !QueryComparator.lte.matches (Json.int held) (Json.int want)

section

variable {a b : Int64}

theorem asF64_int : asF64 (Json.int a) = Float.Model.ofInt64 a := rfl

/-- Two integers in order that share no double stand in that order as doubles too. -/
theorem doubles_lt (apart : a = b ∨ (Float.Model.ofInt64 a == Float.Model.ofInt64 b) = false) :
    Float.Model.ofInt64 a < Float.Model.ofInt64 b ↔ a.toInt < b.toInt := by
  rw [Decimal.ofInt64_lt_iff]
  constructor
  · intro less
    by_contra order
    have back : b ≤ a := Int64.le_iff_toInt_le.mpr (by omega)
    exact absurd (Decimal.place_ofInt64_mono back) less.not_ge
  · intro less
    rcases apart with rfl | apart
    · exact absurd less (lt_irrefl _)
    · have order : a ≤ b := Int64.le_iff_toInt_le.mpr less.le
      apply lt_of_le_of_ne (Decimal.place_ofInt64_mono order)
      intro same
      rw [Decimal.ofInt64_beq_iff.mpr same] at apart
      cases apart

theorem doubles_le_iff : Float.Model.ofInt64 a ≤ Float.Model.ofInt64 b ↔
    ¬ Float.Model.ofInt64 b < Float.Model.ofInt64 a := by
  rw [Decimal.ofInt64_lt_iff, Decimal.ofInt64_le_iff, not_lt]

theorem doubles_apart_symm
    (apart : a = b ∨ (Float.Model.ofInt64 a == Float.Model.ofInt64 b) = false) :
    b = a ∨ (Float.Model.ofInt64 b == Float.Model.ofInt64 a) = false := by
  rcases apart with rfl | apart
  · exact .inl rfl
  · right
    rw [Bool.eq_false_iff] at apart ⊢
    intro same
    exact apart (Decimal.ofInt64_beq_iff.mpr (Decimal.ofInt64_beq_iff.mp same).symm)

theorem eq_int : Json.eq (Json.int a) (Json.int b) = decide (a.toInt = b.toInt) := by
  rw [Bool.eq_iff_iff, decide_eq_true_iff]
  show (toString a.toInt == toString b.toInt) = true ↔ _
  rw [beq_iff_eq]
  constructor
  · intro same
    have read := Decimal.parseI64_toString a
    rw [same, Decimal.parseI64_toString] at read
    rw [Option.some.inj read]
  · intro same
    rw [same]

end

/-- The comparators are those of the 64-bit integers exactly where two different integers do not
convert to one double. -/
theorem agreesOnIntegers_iff (held want : Int64) :
    AgreesOnIntegers held want ↔
      held = want ∨ (Float.Model.ofInt64 held == Float.Model.ofInt64 want) = false := by
  constructor
  · intro agrees
    by_contra shared
    obtain ⟨differ, shared⟩ := not_or.mp shared
    rw [Bool.not_eq_false, Decimal.ofInt64_beq_iff] at shared
    have more : held.toInt > want.toInt ↔ Float.Model.ofInt64 want < Float.Model.ofInt64 held :=
      (decide_eq_decide.mp agrees.gt).symm
    have less : held.toInt < want.toInt ↔ Float.Model.ofInt64 held < Float.Model.ofInt64 want :=
      (decide_eq_decide.mp agrees.lt).symm
    rw [Decimal.ofInt64_lt_iff, shared] at more less
    have same : held.toInt = want.toInt := by
      have notMore := more.not.mpr (lt_irrefl _)
      have notLess := less.not.mpr (lt_irrefl _)
      omega
    exact differ (Int64.toInt_inj.mp same)
  · intro apart
    have up := doubles_lt apart
    have down := doubles_lt (doubles_apart_symm apart)
    constructor
    · exact eq_int
    · show (!Json.eq (Json.int held) (Json.int want)) = _
      rw [eq_int, decide_not]
    · exact decide_eq_decide.mpr down
    · apply decide_eq_decide.mpr
      rw [asF64_int, asF64_int, doubles_le_iff, up]
      exact not_lt
    · exact decide_eq_decide.mpr up
    · apply decide_eq_decide.mpr
      rw [asF64_int, asF64_int, doubles_le_iff, down]
      exact not_lt
    · show decide _ = !decide _
      rw [asF64_int, asF64_int, decide_eq_decide.mpr doubles_le_iff, decide_not, Bool.not_not]

/-- `9007199254740993 > 9007199254740992` is answered with false. -/
theorem stored_neighbours_disagree : ¬ AgreesOnIntegers 9007199254740993 9007199254740992 := by
  intro agrees
  have answer := agrees.gt
  have level : QueryComparator.gt.matches (Json.int 9007199254740993)
      (Json.int 9007199254740992) = false := by decide
  rw [level] at answer
  revert answer
  decide

end Hecks.Query
