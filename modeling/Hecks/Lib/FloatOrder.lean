import Mathlib
import Hecks.Lib.Decimal

/-! Floats among the whole numbers and among each other: a whole float of moderate size goes
through a 64-bit integer unchanged, and floats that are numbers compare as their places in
one linear order do. -/
open Float.Model Float.Model.UnpackedFloat

namespace Decimal

open Rounding Packing Binary64

/-! ### Whole floats -/

section

variable {n : Float.Model} {s : Sign} {m : ℕ} {e : ℤ} {hm : 0 < m}

/-- The whole number a whole float stands for. -/
theorem exists_whole (eq : n.unpack = .finite s m e hm) (whole : isWhole n = true) (neg : e < 0) :
    ∃ k, m = k * 2 ^ (-e).toNat := by
  simp only [isWhole, eq, Bool.or_eq_true, decide_eq_true_eq, beq_iff_eq] at whole
  rcases whole with nonneg | divides
  · omega
  · obtain ⟨k, hk⟩ := Nat.dvd_of_mod_eq_zero divides
    exact ⟨k, by rw [hk, Nat.mul_comm]⟩

theorem roundToInt_whole (k : ℕ) (neg : e < 0) (same : m = k * 2 ^ (-e).toNat) :
    roundToInt s m e = s.apply k := by
  have shift : (e - 0).toNat = 0 := by omega
  simp only [roundToInt, decreaseExponent, shiftToExponent, shift]
  have stands := standsFor_shiftRight (standsFor_exact (m <<< 0)) (0 - (e - (0 : ℕ))).toNat
  obtain ⟨f, f0, f1, value, -, -⟩ := stands
  have amount : (0 - (e - (0 : ℕ))).toNat = (-e).toNat := by omega
  have exact' : ((m <<< 0 : ℕ) : ℚ) / 2 ^ (0 - (e - (0 : ℕ))).toNat = k := by
    rw [amount, Nat.shiftLeft_zero, same]
    push_cast
    field_simp
  rw [exact'] at value
  generalize (ExtendedMantissa.ofMantissaAndAccuracy (m <<< 0) .exact >>>
    (0 - (e - (0 : ℕ))).toNat).mantissa = q at value ⊢
  have : (k : ℤ) = q := by
    have low : (q : ℚ) ≤ k := by linarith
    have high : (k : ℚ) < q + 1 := by linarith
    have low' : q ≤ k := by exact_mod_cast low
    have high' : k < q + 1 := by exact_mod_cast high
    omega
  rw [this]

/-- A whole number converts to the float it came from. -/
theorem ofInt_whole (c : Canonical Format.binary64 m e) (k : ℕ) (neg : e < 0)
    (same : m = k * 2 ^ (-e).toNat) :
    Float.Model.ofInt (s.apply k) = Float.Model.pack (.finite s m e c.pos) := by
  have pos : 0 < k := by
    have := c.pos
    by_contra zero
    have : k = 0 := by omega
    rw [this, Nat.zero_mul] at same
    omega
  obtain ⟨M, E, w, round⟩ := round_writes Format.binary64 pos 0
  have value : (k : ℚ) * 2 ^ (0 : ℤ) = m * 2 ^ e := by
    have : (2 : ℚ) ^ e = (2 ^ (-e).toNat)⁻¹ := by
      rw [← zpow_natCast, ← zpow_neg]
      congr 1
      omega
    rw [this, same]
    push_cast
    field_simp
  have close : |(k : ℚ) * 2 ^ (0 : ℤ) - m * 2 ^ e| < 2 ^ e / 4 := by
    rw [value, sub_self, abs_zero]
    positivity
  have unit : (0 : ℚ) < 2 ^ e := by positivity
  have rounds := roundWithAccuracy_of_close w c (by linarith) (fun _ => close)
  cases s with
  | positive =>
    have order : compare (k : ℤ) 0 = .gt := compare_gt_iff_gt.mpr (by exact_mod_cast pos)
    simp only [Sign.apply, Float.Model.ofInt, UnpackedFloat.ofInt, UnpackedFloat.normalize, order,
      Int.toNat_natCast, round, rounds]
  | negative =>
    have order : compare (-k : ℤ) 0 = .lt := compare_lt_iff_lt.mpr (by omega)
    simp only [Sign.apply, Float.Model.ofInt, UnpackedFloat.ofInt, UnpackedFloat.normalize, order, neg_neg,
      Int.toNat_natCast, round, rounds]

theorem unpack_abs (eq : n.unpack = .finite s m e hm) :
    n.abs.unpack = .finite .positive m e hm := by
  have fits := fits_unpack n
  rw [eq] at fits
  have positive : n.abs = Float.Model.pack (.finite .positive m e hm) := by
    rw [Float.Model.abs, eq]
    rfl
  rw [positive]
  exact unpack_pack (show Fits (.finite .positive m e hm) from fits)

/-- Below `10 ^ 15` a float has places after the point, and a whole part that fits 50 bits. -/
theorem small_bounds (eq : n.unpack = .finite s m e hm)
    (small : n.abs < Float.Model.ofScientific 1 15) :
    e ≤ -3 ∧ m < 2 ^ (-e).toNat * 2 ^ 50 := by
  have fits := fits_unpack n
  rw [eq] at fits
  obtain ⟨c, top⟩ := fits
  have bits := c.fits
  rw [mantissaBits_eq] at bits
  have abs := unpack_abs eq
  have bound : (Float.Model.ofScientific 1 15).unpack =
      .finite .positive 8000000000000000 (-3) (by norm_num) := by
    with_unfolding_all rfl
  change UnpackedFloat.lt n.abs.unpack (Float.Model.ofScientific 1 15).unpack = true at small
  rw [abs, bound] at small
  simp only [UnpackedFloat.lt, UnpackedFloat.compare, beq_iff_eq, Option.some.injEq] at small
  rcases Ordering.then_eq_lt.mp small with less | ⟨same, less⟩
  · have : e < -3 := compare_lt_iff_lt.mp less
    refine ⟨by omega, ?_⟩
    have four : 2 ^ 4 ≤ 2 ^ (-e).toNat := Nat.pow_le_pow_right (by norm_num) (by omega)
    calc m < 2 ^ 4 * 2 ^ 50 := by omega
      _ ≤ 2 ^ (-e).toNat * 2 ^ 50 := Nat.mul_le_mul_right _ four
  · have : e = -3 := compare_eq_iff_eq.mp same
    have : m < 8000000000000000 := compare_lt_iff_lt.mp less
    refine ⟨by omega, ?_⟩
    have three : (-e).toNat = 3 := by omega
    rw [three]
    omega

theorem ofInt64_toInt64 (eq : n.unpack = .finite s m e hm) (whole : isWhole n = true)
    (small : n.abs < Float.Model.ofScientific 1 15) :
    Float.Model.ofInt64 n.toInt64 = n := by
  obtain ⟨low, bound⟩ := small_bounds eq small
  obtain ⟨k, same⟩ := exists_whole eq whole (by omega)
  have fits := fits_unpack n
  rw [eq] at fits
  obtain ⟨c, top⟩ := fits
  have kSmall : k < 2 ^ 50 := by
    rw [same, Nat.mul_comm] at bound
    exact Nat.lt_of_mul_lt_mul_left bound
  have int : n.toInt64.toInt = s.apply k := by
    have value : n.unpack.toInt Int64.minValue.toInt Int64.maxValue.toInt = s.apply k := by
      rw [eq]
      exact roundToInt_whole k (by omega) same
    have lowest : Int64.minValue.toInt ≤ s.apply k := by
      have : Int64.minValue.toInt = -9223372036854775808 := by decide
      rw [this]
      cases s <;> simp only [Sign.apply] <;> omega
    have highest : s.apply k ≤ Int64.maxValue.toInt := by
      have : Int64.maxValue.toInt = 9223372036854775807 := by decide
      rw [this]
      cases s <;> simp only [Sign.apply] <;> omega
    rw [Float.Model.toInt64, UnpackedFloat.toInt64, value,
      ← @Int64.ofIntLE_eq_ofIntClamp _ lowest highest, Int64.toInt_ofIntLE]
  have conversion : Float.Model.ofInt64 n.toInt64 = Float.Model.ofInt n.toInt64.toInt := rfl
  rw [conversion, int, ofInt_whole c k (by omega) same]
  apply unpack_injective
  rw [eq]
  exact unpack_pack (show Fits (.finite s m e c.pos) from ⟨c, top⟩)

end

/-! ### The order of floats -/

/-- The place of a float among the floats: below zero, zero, above zero, and within. What is
not a number has a place of its own, and compares with nothing. -/
def place : UnpackedFloat → ℤ ×ₗ ℤ ×ₗ ℤ
  | .notANumber => toLex (3, toLex (0, 0))
  | .infinity .negative => toLex (-2, toLex (0, 0))
  | .finite .negative m e _ => toLex (-1, toLex (-e, -m))
  | .zero _ => toLex (0, toLex (0, 0))
  | .finite .positive m e _ => toLex (1, toLex (e, m))
  | .infinity .positive => toLex (2, toLex (0, 0))

theorem place_nan {u : UnpackedFloat} (h : place u = place .notANumber) : u = .notANumber := by
  have first : (ofLex (place u)).1 = 3 := by rw [h]; rfl
  cases u with
  | notANumber => rfl
  | infinity s => cases s <;> cases first
  | zero s => cases first
  | finite s m e hm => cases s <;> cases first

theorem compare_triple (a b c x y z : ℤ) :
    compare (toLex (a, toLex (b, c)) : ℤ ×ₗ ℤ ×ₗ ℤ) (toLex (x, toLex (y, z))) =
      (compare a x).then ((compare b y).then (compare c z)) := by
  simp only [Prod.Lex.compare_def, compareLex, compareOn]
  rfl

theorem compare_cast (m k : ℕ) : compare (m : ℤ) (k : ℤ) = compare m k := by
  rcases lt_trichotomy m k with less | same | more
  · rw [compare_lt_iff_lt.mpr less, compare_lt_iff_lt.mpr (by exact_mod_cast less)]
  · rw [same, compare_eq_iff_eq.mpr rfl, compare_eq_iff_eq.mpr rfl]
  · rw [compare_gt_iff_gt.mpr more, compare_gt_iff_gt.mpr (by exact_mod_cast more)]

theorem compare_neg (a b : ℤ) : compare (-a) (-b) = (compare a b).swap := by
  rcases lt_trichotomy a b with less | same | more
  · rw [compare_lt_iff_lt.mpr less, compare_gt_iff_gt.mpr (by omega)]
    rfl
  · rw [same, compare_eq_iff_eq.mpr rfl, compare_eq_iff_eq.mpr rfl]
    rfl
  · rw [compare_gt_iff_gt.mpr more, compare_lt_iff_lt.mpr (by omega)]
    rfl

theorem compare_eq_place {u v : UnpackedFloat} (hu : u ≠ .notANumber) (hv : v ≠ .notANumber) :
    UnpackedFloat.compare u v = some (compare (place u) (place v)) := by
  cases u with
  | notANumber => exact absurd rfl hu
  | infinity s =>
    cases v with
    | notANumber => exact absurd rfl hv
    | infinity t => cases s <;> cases t <;> rfl
    | zero t => cases s <;> rfl
    | finite t m e hm => cases s <;> cases t <;> rfl
  | zero s =>
    cases v with
    | notANumber => exact absurd rfl hv
    | infinity t => cases t <;> rfl
    | zero t => rfl
    | finite t m e hm => cases t <;> rfl
  | finite s m e hm =>
    cases v with
    | notANumber => exact absurd rfl hv
    | infinity t => cases s <;> cases t <;> rfl
    | zero t => cases s <;> rfl
    | finite t k f hk =>
      cases s <;> cases t
      · simp only [place, compare_triple, UnpackedFloat.compare, compare_neg, compare_cast,
          Ordering.swap_then]
        rfl
      · rfl
      · rfl
      · simp only [place, compare_triple, UnpackedFloat.compare, compare_cast]
        rfl

/-- Equality of floats does not ask which stands first. -/
theorem beq_symm {n m : Float.Model} (same : (n == m) = true) : (m == n) = true := by
  change UnpackedFloat.beq n.unpack m.unpack = true at same
  show UnpackedFloat.beq m.unpack n.unpack = true
  rw [UnpackedFloat.beq, beq_iff_eq] at same ⊢
  have numbers : n.unpack ≠ .notANumber ∧ m.unpack ≠ .notANumber := by
    constructor
    · intro nan
      rw [nan] at same
      cases other : m.unpack <;> rw [other] at same <;> cases same
    · intro nan
      rw [nan] at same
      cases other : n.unpack <;> rw [other] at same <;> cases same
  rw [compare_eq_place numbers.1 numbers.2, Option.some.injEq, compare_eq_iff_eq] at same
  rw [compare_eq_place numbers.2 numbers.1, Option.some.injEq, compare_eq_iff_eq]
  exact same.symm

/-! ### The text with an exponent -/

/-- The shortest digits and the power of ten of a positive float. -/
theorem lowerExp_spec {n : Float.Model} {m : ℕ} {e : ℤ} {hm : 0 < m}
    (eq : n.unpack = .finite .positive m e hm) :
    ∃ d ds i, lowerExp n = d :: ((if ds = [] then [] else '.' :: ds) ++
        'e' :: (toString (i : ℤ)).toList) ∧
      d.isDigit ∧ (∀ c ∈ ds, c.isDigit) ∧ -2000 ≤ i ∧ i ≤ 2000 := by
  have fits := fits_unpack n
  rw [eq] at fits
  obtain ⟨c, top⟩ := fits
  have abs : n.abs = Float.Model.pack (.finite .positive m e c.pos) := by
    rw [Float.Model.abs, eq]
    rfl
  obtain ⟨d, k, found, -, pos, least, most, short⟩ := shortest_spec c top
  obtain ⟨-, low, high⟩ := magnitude_range c top
  obtain ⟨z, parts, nonempty, -, -⟩ := strip_zeros pos
  have digits : ∀ c ∈ (Nat.toDigits 10 d).rdropWhile (· = '0'), c.isDigit := by
    intro c hc
    have : c ∈ Nat.toDigits 10 d := by
      rw [parts]
      exact List.mem_append_left _ hc
    exact Nat.isDigit_of_mem_toDigits (by norm_num) (by norm_num) this
  obtain ⟨first, rest, kept⟩ := List.exists_cons_of_ne_nil nonempty
  rw [kept] at digits
  refine ⟨first, rest, (Ratio.ofScaled m e).magnitude + (Nat.toDigits 10 d).length - k - 1, ?_,
    digits first List.mem_cons_self, fun c hc => digits c (List.mem_cons_of_mem _ hc),
    by omega, by omega⟩
  unfold lowerExp
  rw [eq]
  dsimp only
  rw [abs, found]
  dsimp only
  rw [kept]
  cases rest <;> simp

/-! ### Texts that place alike -/

/-- Digits with a point and a zero behind them read as the digits alone. -/
theorem parse_point_zero {whole : List Char} (hw : ∀ c ∈ whole, c.isDigit) (nonempty : whole ≠ [])
    (neg : Bool) :
    parse (String.ofList (signed neg (numeral whole ['0']))) =
      parse (String.ofList (signed neg (numeral whole []))) := by
  rw [parse_numeral hw (by simp) nonempty, parse_numeral hw (by simp) nonempty]
  have tenfold : Nat.ofDigitChars 10 (whole ++ ['0']) 0 = 10 * Nat.ofDigitChars 10 whole 0 := by
    rw [Nat.ofDigitChars_append, Nat.ofDigitChars_cons, Nat.ofDigitChars_nil]
    rfl
  rw [tenfold, List.append_nil]
  generalize Nat.ofDigitChars 10 whole 0 = m
  have point : Float.Model.ofScientific (10 * m) (-1) = Float.Model.ofScientific m 0 := by
    rcases Nat.eq_zero_or_pos m with rfl | pos
    · rfl
    have same := @ofScientific_congr Format.binary64 (10 * m) m (by omega) pos (-1) 0
      ⟨by decide, by decide⟩ ⟨by decide, by decide⟩ (by push_cast; ring)
    exact congrArg Float.Model.pack same
  exact congrArg (fun f => some ((if neg then Float.Model.neg else id) f)) point

/-- A finite float's text with a point and a zero behind it, if it has no point of its own,
reads as the float. -/
theorem parse_display_point {n : Float.Model} (finite : n.isFinite = true)
    (plain : '.' ∉ (display n).toList) :
    parse (String.ofList ((display n).toList ++ ['.', '0'])) = some n := by
  obtain ⟨neg, whole, fraction, text, hw, hf, nonempty, parsed⟩ := display_numeral finite
  have none : fraction = [] := by
    cases fraction with
    | nil => rfl
    | cons d fraction =>
      rw [text, String.toList_ofList] at plain
      cases neg <;> simp [signed, numeral] at plain
  subst none
  have pointed : (display n).toList ++ ['.', '0'] = signed neg (numeral whole ['0']) := by
    rw [text, String.toList_ofList]
    cases neg <;> simp [signed, numeral]
  rw [pointed, parse_point_zero hw nonempty, ← text, parsed]

/-- A finite float's text has no exponent. -/
theorem display_no_exponent {n : Float.Model} (finite : n.isFinite = true) :
    'e' ∉ (display n).toList ∧ 'E' ∉ (display n).toList := by
  obtain ⟨neg, whole, fraction, text, hw, hf, -, -⟩ := display_numeral finite
  have digits : ∀ c ∈ (display n).toList, c.isDigit = true ∨ c = '-' ∨ c = '.' := by
    rw [text, String.toList_ofList]
    intro c mem
    cases neg <;> simp [signed, numeral] at mem <;> grind
  constructor
  · intro mem
    have := digits _ mem
    revert this
    decide
  · intro mem
    have := digits _ mem
    revert this
    decide

/-- A whole float's integer converts to a float in the same place. -/
theorem place_toInt64 {n : Float.Model} (whole : isWhole n = true)
    (small : n.abs < Float.Model.ofScientific 1 15) :
    place (Float.Model.ofInt64 n.toInt64).unpack = place n.unpack := by
  cases eq : n.unpack with
  | notANumber => simp [isWhole, eq] at whole
  | infinity s => simp [isWhole, eq] at whole
  | zero s =>
    have none : n.toInt64 = 0 := by
      rw [Float.Model.toInt64, eq]
      rfl
    rw [none]
    with_unfolding_all rfl
  | finite s m e hm => rw [ofInt64_toInt64 eq whole small, eq]

end Decimal
