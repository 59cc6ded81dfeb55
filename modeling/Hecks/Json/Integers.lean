import Hecks.Json.RoundTrip
import Hecks.Lib.IntegerOrder

/-! Integers by their literals. A literal is held as the nearest `f64`, beside its text where the
`f64` would print another, and equality goes by the texts only where both are held. -/
open Reading Hecks.Json.Parser Hecks.Json.Grammar

namespace Hecks.Json

/-- Digits with or without a sign, as many as one likes and with any zeros in front. -/
structure IntegerLiteral where
  negative : Bool
  digits : List Char
  decimal : ∀ c ∈ digits, c.isDigit
  nonempty : digits ≠ []

namespace IntegerLiteral

def text (l : IntegerLiteral) : String := String.ofList (Decimal.signed l.negative l.digits)

/-- What the digits spell, sign aside. -/
def magnitude (l : IntegerLiteral) : ℕ := Nat.ofDigitChars 10 l.digits 0

/-- The integer the literal denotes. -/
def value (l : IntegerLiteral) : ℤ := if l.negative then -l.magnitude else l.magnitude

/-- The double nearest to the integer. -/
def nearest (l : IntegerLiteral) : Float.Model :=
  (if l.negative then Float.Model.neg else id) (Float.Model.ofScientific l.magnitude 0)

/-- The literal of a 64-bit integer, as it is printed. -/
def ofInt64 (i : Int64) : IntegerLiteral where
  negative := decide (i.toInt < 0)
  digits := Nat.toDigits 10 i.toInt.natAbs
  decimal := fun _ => Nat.isDigit_of_mem_toDigits (by norm_num) (by norm_num)
  nonempty := Nat.toDigits_ne_nil

/-- The reader holds on to the literal's text. -/
def Kept (keepNumberText : Bool) (l : IntegerLiteral) : Prop :=
  keepNumberText = true ∨ canonicalIntegerDigits l.nearest ≠ l.text

instance (keepNumberText : Bool) (l : IntegerLiteral) : Decidable (l.Kept keepNumberText) :=
  inferInstanceAs (Decidable (_ ∨ _))

/-- What the reader makes of the literal. -/
def held (keepNumberText : Bool) (l : IntegerLiteral) : Json :=
  .num l.nearest (if l.Kept keepNumberText then some l.text else none)

/-- The literal as a number of the grammar. -/
def numeral (l : IntegerLiteral) : Numeral := ⟨l.negative, l.digits, none, none⟩

variable {escapes : Char → Bool} {keepNumberText : Bool} {l m : IntegerLiteral}

theorem numeral_text (l : IntegerLiteral) : l.numeral.text = l.text.toList := by
  unfold Numeral.text numeral text Decimal.signed
  cases l.negative <;> simp [Numeral.fractionText, Numeral.exponentText]

theorem numeral_loose (l : IntegerLiteral) : l.numeral.Loose := by
  have digits : ∀ c ∈ l.numeral.whole, isDigit c := by
    intro c mem
    rw [isDigit_eq]
    exact l.decimal c mem
  exact ⟨⟨digits, by simp [numeral], by simp [numeral]⟩, .inr l.nonempty, .inl l.nonempty,
    by simp [numeral]⟩

theorem parse_text (l : IntegerLiteral) : Binary64.parse l.text = some l.nearest := by
  have read := Decimal.parse_numeral l.decimal (fun _ h => absurd h List.not_mem_nil) l.nonempty
    l.negative
  simpa [Decimal.numeral, text, nearest, magnitude] using read

/-- What is not finite prints no digits. -/
theorem finite_of_canonical (same : canonicalIntegerDigits l.nearest = l.text) :
    l.nearest.isFinite = true := by
  by_contra infinite
  have letter := canonical_of_not_finite (Bool.eq_false_of_not_eq_true infinite)
  have wf := l.numeral_loose.toWellFormed
  rw [same, ← numeral_text] at letter
  rcases letter with mem | mem
  · exact not_mem_text wf (by decide) (by decide) mem
  · exact not_mem_text wf (by decide) (by decide) mem

theorem numberValue_text (l : IntegerLiteral) :
    numberValue escapes keepNumberText l.text.toList = .ok (l.held keepNumberText) := by
  have plain := (contains_text l.numeral_loose.toWellFormed).mpr ⟨rfl, rfl⟩
  rw [numeral_text] at plain
  unfold numberValue
  rw [String.ofList_toList, parse_text]
  simp only [plain, Bool.true_and]
  have keeps : (keepNumberText || canonicalIntegerDigits l.nearest != l.text) =
      decide (l.Kept keepNumberText) := by
    rw [Bool.eq_iff_iff, Bool.or_eq_true, bne_iff_ne, decide_eq_true_iff]
    rfl
  rw [keeps]
  cases finite : l.nearest.isFinite with
  | true => simp [held]
  | false =>
    have kept : l.Kept keepNumberText := by
      right
      intro same
      rw [finite_of_canonical same] at finite
      cases finite
    simp [held, kept]

theorem parseWith_text (l : IntegerLiteral) :
    Json.parseWith escapes l.text keepNumberText = .ok (l.held keepNumberText) := by
  obtain ⟨c, body, eq, first⟩ := l.numeral_loose.text_first []
  have stops : l.numeral.Stops [] := by
    intro c head
    cases head
  have text := numberText_text l.numeral_loose stops
  rw [List.append_nil, numeral_text] at eq text
  have skip : skipWs l.text.toList = c :: body := by
    rw [eq]
    simp [skipWs, not_space_of_digit first]
  have read : Reads (parseValue escapes keepNumberText 0 l.text.toList)
      (l.held keepNumberText) [] := by
    refine (reads_value skip).mpr ((starts_number first).mpr (reads_parseNumber.mpr ?_))
    rw [← eq, text]
    exact ⟨l.numberValue_text, rfl⟩
  obtain ⟨r, parsed, value, -⟩ := read
  exact bind_eq_ok.mpr ⟨r, parsed, congrArg Except.ok value⟩

theorem text_injective (same : l.text = m.text) : l = m := by
  have chars := String.ofList_injective same
  obtain ⟨negative, ds, decimal, nonempty⟩ := l
  obtain ⟨negative', es, decimal', nonempty'⟩ := m
  have dash : ∀ {cs : List Char}, (∀ c ∈ cs, c.isDigit = true) → '-' ∉ cs := by
    intro cs digits mem
    exact absurd (digits '-' mem) (by decide)
  cases negative <;> cases negative' <;> simp only [Decimal.signed] at chars
  · cases chars
    rfl
  · have chars : ds = '-' :: es := chars
    exact absurd (chars ▸ List.mem_cons_self) (dash decimal)
  · have chars : '-' :: ds = es := chars
    exact absurd (chars ▸ List.mem_cons_self) (dash decimal')
  · cases chars
    rfl

/-- Literals of one integer have one nearest `f64`, up to the sign of zero. -/
theorem nearest_of_value (same : l.value = m.value) (finite : l.nearest.isFinite = true) :
    (l.nearest == m.nearest) = true := by
  rcases Nat.eq_zero_or_pos l.magnitude with zero | pos
  · have zero' : m.magnitude = 0 := by
      unfold value at same
      split at same <;> split at same <;> omega
    unfold nearest
    rw [zero, zero']
    cases l.negative <;> cases m.negative <;> with_unfolding_all rfl
  · have parts : l.negative = m.negative ∧ l.magnitude = m.magnitude := by
      unfold value at same
      cases hl : l.negative <;> cases hm : m.negative <;> simp [hl, hm] at same <;> grind
    have one : m.nearest = l.nearest := by
      unfold nearest
      rw [parts.1, parts.2]
    rw [one]
    exact beq_self_of_isFinite finite

end IntegerLiteral

open IntegerLiteral

section

variable (escapes : Char → Bool) (keepNumberText : Bool)

/-- The reader takes both literals, to values that are equal. -/
def Told (l m : IntegerLiteral) : Prop :=
  ∃ v w, Json.parseWith escapes l.text keepNumberText = .ok v ∧
    Json.parseWith escapes m.text keepNumberText = .ok w ∧ Json.eq v w = true

/-- The reader takes the literal of the one integer to the value of the other. -/
def ToldInt (n m : Int64) : Prop :=
  ∃ v, Json.parseWith escapes (toString n.toInt) keepNumberText = .ok v ∧
    Json.eq v (Json.int m) = true

/-- Two literals equality is wrong about: both texts are held and spell one integer differently,
or one text at least is not held and two integers have one nearest `f64`. -/
def Confused (l m : IntegerLiteral) : Prop :=
  (l.Kept keepNumberText ∧ m.Kept keepNumberText) ∧ l.text ≠ m.text ∧ l.value = m.value ∨
    ¬ (l.Kept keepNumberText ∧ m.Kept keepNumberText) ∧ (l.nearest == m.nearest) = true ∧
      l.value ≠ m.value

variable {escapes keepNumberText} {l m : IntegerLiteral}

theorem eq_held : Json.eq (l.held keepNumberText) (m.held keepNumberText) = true ↔
    if l.Kept keepNumberText ∧ m.Kept keepNumberText then l.text = m.text
    else (l.nearest == m.nearest) = true := by
  by_cases kept : l.Kept keepNumberText <;> by_cases kept' : m.Kept keepNumberText <;>
    simp [held, Json.eq, eqNum, kept, kept']

theorem told_iff : Told escapes keepNumberText l m ↔
    Json.eq (l.held keepNumberText) (m.held keepNumberText) = true := by
  constructor
  · rintro ⟨v, w, read, read', same⟩
    rw [parseWith_text] at read read'
    cases read
    cases read'
    exact same
  · intro same
    exact ⟨_, _, l.parseWith_text, m.parseWith_text, same⟩

/-- Where one literal's text is not held, literals of one integer are equal. -/
theorem nearest_of_loose (loose : ¬ (l.Kept keepNumberText ∧ m.Kept keepNumberText))
    (same : l.value = m.value) : (l.nearest == m.nearest) = true := by
  have finite : ∀ {k : IntegerLiteral}, ¬ k.Kept keepNumberText → k.nearest.isFinite = true := by
    intro k bare
    exact finite_of_canonical (not_not.mp (not_or.mp bare).2)
  rcases not_and_or.mp loose with bare | bare
  · exact nearest_of_value same (finite bare)
  · exact Decimal.beq_symm (nearest_of_value same.symm (finite bare))

theorem told_agrees_iff (l m : IntegerLiteral) :
    (Told escapes keepNumberText l m ↔ l.value = m.value) ↔ ¬ Confused keepNumberText l m := by
  rw [told_iff, eq_held, Confused]
  by_cases kept : l.Kept keepNumberText ∧ m.Kept keepNumberText
  · have spelled : l.text = m.text → l.value = m.value := fun same => by rw [text_injective same]
    rw [if_pos kept]
    tauto
  · have rounded := nearest_of_loose kept
    rw [if_neg kept]
    tauto

theorem ofInt64_text (n : Int64) : (ofInt64 n).text = toString n.toInt := by
  unfold IntegerLiteral.text ofInt64
  rw [← Decimal.toString_int, String.ofList_toList]

theorem ofInt64_nearest (n : Int64) : (ofInt64 n).nearest = Float.Model.ofInt64 n := by
  have read := (ofInt64 n).parse_text
  rw [ofInt64_text, Decimal.parse_toString_int64, Option.some.injEq] at read
  exact read.symm

theorem toldInt_iff {n m : Int64} : ToldInt escapes keepNumberText n m ↔
    if (ofInt64 n).Kept keepNumberText then n = m
    else (Float.Model.ofInt64 n == Float.Model.ofInt64 m) = true := by
  have equal : Json.eq ((ofInt64 n).held keepNumberText) (Json.int m) = true ↔
      if (ofInt64 n).Kept keepNumberText then n = m
      else (Float.Model.ofInt64 n == Float.Model.ofInt64 m) = true := by
    by_cases kept : (ofInt64 n).Kept keepNumberText
    · simp [held, Json.int, Json.eq, eqNum, kept, ofInt64_text, Int64.toInt_inj]
    · simp [held, Json.int, Json.eq, eqNum, kept, ofInt64_nearest]
  have read : Json.parseWith escapes (toString n.toInt) keepNumberText =
      .ok ((ofInt64 n).held keepNumberText) := by
    rw [← ofInt64_text]
    exact (ofInt64 n).parseWith_text
  rw [← equal]
  constructor
  · rintro ⟨v, found, same⟩
    rw [read] at found
    cases found
    exact same
  · intro same
    exact ⟨_, read, same⟩

/-- Equality of what two literals are read as is equality of their integers exactly where the
literals are not confused; and the literal of a 64-bit integer equals the value of that integer
and of no other exactly where its text is held or no other integer has its `f64`. -/
theorem literals_equal_iff (escapes : Char → Bool) (keepNumberText : Bool) :
    (∀ l m : IntegerLiteral, (Told escapes keepNumberText l m ↔ l.value = m.value) ↔
      ¬ Confused keepNumberText l m) ∧
    ∀ n m : Int64, (ToldInt escapes keepNumberText n m ↔ n = m) ↔
      n = m ∨ (ofInt64 n).Kept keepNumberText ∨
        (Float.Model.ofInt64 n == Float.Model.ofInt64 m) = false := by
  refine ⟨told_agrees_iff, ?_⟩
  intro n m
  rw [toldInt_iff]
  by_cases kept : (ofInt64 n).Kept keepNumberText
  · simp [kept]
  · have finite : (Float.Model.ofInt64 n).isFinite = true := by
      rw [← ofInt64_nearest]
      exact finite_of_canonical (not_not.mp (not_or.mp kept).2)
    rw [if_neg kept]
    by_cases same : n = m
    · subst same
      simp [beq_self_of_isFinite finite]
    · simp [kept, same]

end

/-- The literal `9007199254740992` is held without its text, and equals the value of
`9007199254740993`. -/
theorem neighbours_read_equal :
    ¬ ((∀ l m : IntegerLiteral, Told (fun _ => false) false l m ↔ l.value = m.value) ∧
      ∀ n m : Int64, ToldInt (fun _ => false) false n m ↔ n = m) := by
  rintro ⟨-, agrees⟩
  have apart := (agrees 9007199254740992 9007199254740993).mp (toldInt_iff.mpr (by
    rw [if_neg (by decide)]
    decide))
  exact absurd apart (by decide)

end Hecks.Json
