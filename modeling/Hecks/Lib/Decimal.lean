import Mathlib
import Hecks.Lib.Binary64
import Hecks.Lib.Packing

/-! The decimal text of a float and its reader, one against the other: digits read as the
number they spell, a whole number reads as its conversion, and the text a finite float is
displayed as reads back as that float. -/
open Float.Model Float.Model.UnpackedFloat

namespace Decimal

open Rounding Packing Binary64

/-! ### Runs of digits -/

theorem digit?_isSome {c : Char} : (Text.digit? c).isSome = c.isDigit := by
  have zero : '0'.val = 48 := rfl
  have nine : '9'.val = 57 := rfl
  unfold Text.digit? Char.isDigit
  split
  next h => simp [Char.le_def, zero, nine] at h ⊢; exact h
  next h =>
    simp only [Char.le_def, zero, nine] at h
    simp only [Option.isSome_none]
    by_contra absurd
    apply h
    simpa using Eq.symm (Bool.eq_true_of_not_eq_false (Ne.symm absurd))

theorem digitsValue_eq {cs : List Char} (h : ∀ c ∈ cs, c.isDigit) (acc : ℕ) :
    Text.digitsValue cs acc = some (Nat.ofDigitChars 10 cs acc) := by
  induction cs generalizing acc with
  | nil => simp [Text.digitsValue]
  | cons c cs ih =>
    have digit : (Text.digit? c).isSome := by
      rw [digit?_isSome]
      exact h c List.mem_cons_self
    unfold Text.digit? at digit
    split at digit
    next bounds =>
      simp only [Text.digitsValue, Text.digit?, bounds, and_self, if_true, Option.bind_some]
      rw [ih fun c hc => h c (List.mem_cons_of_mem _ hc), Nat.ofDigitChars_cons]
    next => cases digit

theorem takeWhile_digits {ds : List Char} (rest : List Char) (h : ∀ c ∈ ds, c.isDigit)
    (stop : ∀ c, rest.head? = some c → c.isDigit = false) :
    (ds ++ rest).takeWhile (fun c => (Text.digit? c).isSome) = ds ∧
      (ds ++ rest).dropWhile (fun c => (Text.digit? c).isSome) = rest := by
  induction ds with
  | nil =>
    cases rest with
    | nil => exact ⟨rfl, rfl⟩
    | cons c rest =>
      have no : ((Text.digit? c).isSome) = false := by rw [digit?_isSome]; exact stop c rfl
      simp [no]
  | cons d ds ih =>
    have yes : ((Text.digit? d).isSome) = true := by
      rw [digit?_isSome]
      exact h d List.mem_cons_self
    have := ih fun c hc => h c (List.mem_cons_of_mem _ hc)
    simp [yes, this.1, this.2]

/-- Digits, and more of them behind a point if there are any. -/
def numeral (whole fraction : List Char) : List Char :=
  whole ++ (if fraction.isEmpty then [] else '.' :: fraction)

def signed (neg : Bool) (cs : List Char) : List Char := if neg then '-' :: cs else cs

theorem splitNumber_point {whole fraction : List Char} (hw : ∀ c ∈ whole, c.isDigit)
    (hf : ∀ c ∈ fraction, c.isDigit) (nonempty : fraction ≠ []) :
    splitNumber (whole ++ '.' :: fraction) = some (whole, fraction, 0) := by
  obtain ⟨take, drop⟩ := takeWhile_digits ('.' :: fraction) hw (by simp)
  obtain ⟨take', drop'⟩ := takeWhile_digits [] hf (by simp)
  rw [List.append_nil] at take' drop'
  simp only [splitNumber, take, drop, take', drop']
  simp [nonempty]

theorem splitNumber_numeral {whole fraction : List Char} (hw : ∀ c ∈ whole, c.isDigit)
    (hf : ∀ c ∈ fraction, c.isDigit) (nonempty : whole ≠ []) :
    splitNumber (numeral whole fraction) = some (whole, fraction, 0) := by
  cases fraction with
  | nil =>
    obtain ⟨take, drop⟩ := takeWhile_digits [] hw (by simp)
    simp only [numeral, List.isEmpty_nil, if_true, splitNumber, take, drop]
    simp [nonempty]
  | cons c cs => exact splitNumber_point hw hf (by simp)

theorem toLower_digit {c : Char} (h : c.isDigit) : c.toLower = c := by
  simp only [Char.isDigit, ge_iff_le, Bool.and_eq_true, decide_eq_true_eq] at h
  unfold Char.toLower
  split
  next upper =>
    exact absurd (UInt32.le_trans upper.1 h.2) (by decide)
  next => rfl

/-- Text that starts with a digit is none of the words `parse` knows. -/
theorem word_ne {c : Char} (cs : List Char) (h : c.isDigit) (w : Char) (ws : List Char)
    (hw : w.isDigit = false) :
    String.ofList ((c :: cs).map Char.toLower) ≠ String.ofList (w :: ws) := by
  intro same
  have lists := String.ofList_injective same
  rw [List.map_cons, toLower_digit h] at lists
  have : c = w := (List.cons.inj lists).1
  rw [this, hw] at h
  cases h

/-- The float a numeral reads as. -/
theorem parse_numeral {whole fraction : List Char} (hw : ∀ c ∈ whole, c.isDigit)
    (hf : ∀ c ∈ fraction, c.isDigit) (nonempty : whole ≠ []) (neg : Bool) :
    parse (String.ofList (signed neg (numeral whole fraction))) =
      some ((if neg then Float.Model.neg else id) (Float.Model.ofScientific
        (Nat.ofDigitChars 10 (whole ++ fraction) 0) (-(fraction.length : ℤ)))) := by
  obtain ⟨d, ds, rfl⟩ := List.exists_cons_of_ne_nil nonempty
  have digit := hw d List.mem_cons_self
  have sign : Text.splitSign (signed neg (numeral (d :: ds) fraction)) =
      (neg, numeral (d :: ds) fraction) := by
    cases neg with
    | true => rfl
    | false =>
      simp only [signed, Bool.false_eq_true, if_false, numeral, List.cons_append]
      unfold Text.splitSign
      split
      next => simp_all
      next => simp_all
      next => simp_all
  have digits : ∀ c ∈ d :: ds ++ fraction, c.isDigit := by
    intro c hc
    rcases List.mem_append.mp hc with h | h
    · exact hw c h
    · exact hf c h
  unfold parse
  rw [String.toList_ofList, sign]
  dsimp only
  have notWord : String.ofList ((numeral (d :: ds) fraction).map Char.toLower) ≠ "inf" ∧
      String.ofList ((numeral (d :: ds) fraction).map Char.toLower) ≠ "infinity" ∧
      String.ofList ((numeral (d :: ds) fraction).map Char.toLower) ≠ "nan" :=
    ⟨word_ne _ digit 'i' ['n', 'f'] (by decide),
      word_ne _ digit 'i' ['n', 'f', 'i', 'n', 'i', 't', 'y'] (by decide),
      word_ne _ digit 'n' ['a', 'n'] (by decide)⟩
  rw [if_neg (by simp [notWord.1, notWord.2.1]), if_neg notWord.2.2,
    splitNumber_numeral hw hf nonempty]
  simp only [Option.bind_some, digitsValue_eq digits, Option.map_some, zero_sub]
  cases neg <;> rfl

/-! ### Whole numbers -/

theorem fits_of_writes {M : ℕ} {E : ℤ} {acc : Accuracy} {y : ℚ}
    (w : Writes Format.binary64 M E acc y) (s : Sign) (small : y < 2 ^ (1022 : ℤ)) :
    Fits (roundWithAccuracy Format.binary64 s M E acc) := by
  rcases roundWithAccuracy_canonical w s with zero | ⟨m, e, hm, eq, c, size⟩
  · rw [zero]
    trivial
  · rw [eq]
    refine ⟨c, ?_⟩
    rw [minExponent_eq, mantissaBits_eq] at size
    rcases size with least | low
    · omega
    · have := (zpow_lt_zpow_iff_right₀ (by norm_num)).mp (lt_of_le_of_lt low small)
      push_cast at this
      omega

theorem neg_pack {u : UnpackedFloat} (h : Fits u) :
    (Float.Model.pack u).neg = Float.Model.pack u.neg := by
  have back : (Float.Model.pack u).unpack = u := unpack_pack h
  rw [Float.Model.neg, back]

/-- The digits of a natural number, with or without a sign. -/
theorem parse_toDigits (n : ℕ) (neg : Bool) :
    parse (String.ofList (signed neg (Nat.toDigits 10 n))) =
      some ((if neg then Float.Model.neg else id) (Float.Model.ofScientific n 0)) := by
  have digits : ∀ c ∈ Nat.toDigits 10 n, c.isDigit := by
    intro c hc
    exact Nat.isDigit_of_mem_toDigits (by norm_num) (by norm_num) hc
  have read := parse_numeral digits (fun _ h => absurd h List.not_mem_nil) Nat.toDigits_ne_nil neg
  simpa [numeral, Nat.ofDigitChars_ten_toDigits] using read

/-- Digits read as the conversion of the number they spell. -/
theorem ofScientific_eq_ofInt (n : ℕ) :
    Float.Model.ofScientific n 0 = Float.Model.ofInt (n : ℤ) := by
  rcases Nat.eq_zero_or_pos n with rfl | pos
  · rfl
  · have order : compare (n : ℤ) 0 = .gt := compare_gt_iff_gt.mpr (by exact_mod_cast pos)
    simp only [Float.Model.ofScientific, Float.Model.ofInt, UnpackedFloat.ofInt, UnpackedFloat.normalize, order,
      ofScientific_zero Format.binary64 pos, Int.toNat_natCast]

theorem neg_ofScientific_eq_ofInt {n : ℕ} (pos : 0 < n) (small : n < 2 ^ 64) :
    (Float.Model.ofScientific n 0).neg = Float.Model.ofInt (-n : ℤ) := by
  have order : compare (-n : ℤ) 0 = .lt := compare_lt_iff_lt.mpr (by omega)
  obtain ⟨M, E, w, eq⟩ := round_writes Format.binary64 pos 0
  have y : (n : ℚ) * 2 ^ (0 : ℤ) < 2 ^ (1022 : ℤ) := by
    have cast : (n : ℚ) < 2 ^ (64 : ℤ) := by exact_mod_cast small
    rw [zpow_zero, mul_one]
    exact lt_of_lt_of_le cast (zpow_le_zpow_right₀ (by norm_num) (by norm_num))
  simp only [Float.Model.ofScientific, Float.Model.ofInt, UnpackedFloat.ofInt, UnpackedFloat.normalize, order,
    ofScientific_zero Format.binary64 pos, neg_neg, Int.toNat_natCast, eq]
  rw [neg_pack (fits_of_writes w .positive y), roundWithAccuracy_neg]

theorem toString_int (i : ℤ) :
    (toString i).toList = signed (decide (i < 0)) (Nat.toDigits 10 i.natAbs) := by
  cases i with
  | ofNat n =>
    show (Nat.repr n).toList = _
    simp [signed]
  | negSucc n =>
    show ("-" ++ Nat.repr (n + 1)).toList = _
    simp [signed, String.toList_append]

theorem digitsValue_toDigits (n : ℕ) : Text.digitsValue (Nat.toDigits 10 n) 0 = some n := by
  have digits : ∀ c ∈ Nat.toDigits 10 n, c.isDigit := by
    intro c hc
    exact Nat.isDigit_of_mem_toDigits (by norm_num) (by norm_num) hc
  rw [digitsValue_eq digits 0, Nat.ofDigitChars_ten_toDigits]

/-- The text of an integer splits into its sign and its digits. -/
theorem splitSign_toString (i : ℤ) : ∃ d ds, Nat.toDigits 10 i.natAbs = d :: ds ∧
    Text.splitSign (toString i).toList = (decide (i < 0), d :: ds) := by
  obtain ⟨d, ds, eq⟩ := List.exists_cons_of_ne_nil (@Nat.toDigits_ne_nil i.natAbs 10)
  have mem : d ∈ Nat.toDigits 10 i.natAbs := by
    rw [eq]
    exact List.mem_cons_self
  have digit : d.isDigit := Nat.isDigit_of_mem_toDigits (by norm_num) (by norm_num) mem
  refine ⟨d, ds, eq, ?_⟩
  rw [toString_int, eq]
  by_cases neg : i < 0
  · simp [signed, neg, Text.splitSign]
  · simp only [signed, neg, decide_false, Bool.false_eq_true, if_false]
    unfold Text.splitSign
    split
    next => simp_all
    next => simp_all
    next => rfl

theorem signed_natAbs (i : ℤ) :
    (if decide (i < 0) = true then -(i.natAbs : ℤ) else (i.natAbs : ℤ)) = i := by
  by_cases neg : i < 0
  · simp only [neg, decide_true, if_true]
    omega
  · simp only [neg, decide_false, Bool.false_eq_true, if_false]
    omega

theorem parseI32_toString {i : ℤ} (low : -2147483648 ≤ i) (high : i ≤ 2147483647) :
    Text.parseI32 (toString i) = some i := by
  obtain ⟨d, ds, digits, sign⟩ := splitSign_toString i
  have value := digitsValue_toDigits i.natAbs
  rw [digits] at value
  unfold Text.parseI32
  rw [sign]
  dsimp only
  rw [value, Option.bind_some, signed_natAbs, if_pos ⟨low, high⟩]

theorem parseI64_toString (i : Int64) : Text.parseI64 (toString i.toInt) = some i := by
  have low := i.le_toInt
  have high := i.toInt_le
  obtain ⟨d, ds, digits, sign⟩ := splitSign_toString i.toInt
  have value := digitsValue_toDigits i.toInt.natAbs
  rw [digits] at value
  unfold Text.parseI64
  rw [sign]
  dsimp only
  rw [value, Option.bind_some, signed_natAbs, if_pos ⟨low, high⟩, Int64.ofInt_toInt]

/-- The text of a 64-bit integer reads as the float the integer converts to. -/
theorem parse_toString_int64 (i : Int64) :
    parse (toString i.toInt) = some (Float.Model.ofInt64 i) := by
  have low := i.le_toInt
  have text : toString i.toInt =
      String.ofList (signed (decide (i.toInt < 0)) (Nat.toDigits 10 i.toInt.natAbs)) := by
    rw [← toString_int, String.ofList_toList]
  have conversion : Float.Model.ofInt64 i = Float.Model.ofInt i.toInt := rfl
  rw [text, parse_toDigits, conversion]
  by_cases neg : i.toInt < 0
  · have pos : 0 < i.toInt.natAbs := by omega
    have value : -(i.toInt.natAbs : ℤ) = i.toInt := by omega
    have small : i.toInt.natAbs < 2 ^ 64 := by omega
    simp only [neg, decide_true, if_true]
    rw [neg_ofScientific_eq_ofInt pos small, value]
  · have value : (i.toInt.natAbs : ℤ) = i.toInt := by omega
    simp only [neg, decide_false, Bool.false_eq_true, if_false, id]
    rw [ofScientific_eq_ofInt, value]

/-! ### The shortest digits -/

/-- The number a fraction stands for. -/
def val (r : Ratio) : ℚ := r.num / r.den

theorem val_ofScaled (m : ℕ) (e : ℤ) :
    val (Ratio.ofScaled m e) = m * 2 ^ e ∧ 0 < (Ratio.ofScaled m e).den := by
  unfold Ratio.ofScaled val
  split
  next nonneg =>
    refine ⟨?_, Nat.one_pos⟩
    push_cast
    rw [← zpow_natCast, Int.toNat_of_nonneg nonneg, div_one]
  next neg =>
    refine ⟨?_, by positivity⟩
    push_cast
    rw [← zpow_natCast, Int.toNat_of_nonneg (by omega), zpow_neg]
    field_simp

theorem div_bounds (a b : ℕ) : ((a / b : ℕ) : ℚ) ≤ a / b ∧ (a : ℚ) / b < (a / b : ℕ) + 1 := by
  rw [← Nat.floor_div_eq_div (K := ℚ)]
  exact ⟨Nat.floor_le (by positivity), Nat.lt_floor_add_one _⟩

/-- The scaled quotient is the whole part of the scaled number. -/
theorem scaled_bounds (r : Ratio) (k : ℤ) :
    ((r.scaled k).1 : ℚ) ≤ val r * 10 ^ k ∧ val r * 10 ^ k < (r.scaled k).1 + 1 := by
  have bounds := div_bounds (if 0 ≤ k then r.num * 10 ^ k.toNat else r.num)
    (if 0 ≤ k then r.den else r.den * 10 ^ (-k).toNat)
  have value : val r * 10 ^ k = ((if 0 ≤ k then r.num * 10 ^ k.toNat else r.num : ℕ) : ℚ) /
      (if 0 ≤ k then r.den else r.den * 10 ^ (-k).toNat : ℕ) := by
    unfold val
    split
    next nonneg =>
      push_cast
      rw [← zpow_natCast (10 : ℚ) k.toNat, Int.toNat_of_nonneg nonneg]
      ring
    next neg =>
      have : (10 : ℚ) ^ k = (10 ^ (-k).toNat)⁻¹ := by
        rw [← zpow_natCast, ← zpow_neg]
        congr 1
        omega
      push_cast
      rw [this]
      field_simp
  rw [value]
  exact bounds

theorem lift_spec (r : Ratio) (fuel j : ℕ) (reach : r.den ≤ r.num * 10 ^ (j + fuel))
    (below : j = 0 ∨ r.num * 10 ^ (j - 1) < r.den) :
    r.den ≤ r.num * 10 ^ r.lift fuel j ∧
      (r.lift fuel j = 0 ∨ r.num * 10 ^ (r.lift fuel j - 1) < r.den) := by
  induction fuel generalizing j with
  | zero => exact ⟨reach, below⟩
  | succ fuel ih =>
    unfold Ratio.lift
    split
    next done => exact ⟨done, below⟩
    next more =>
      apply ih
      · rwa [Nat.add_right_comm, ← Nat.add_assoc] at *
      · exact .inr (by rw [Nat.add_sub_cancel]; omega)

/-- `10 ^ (p - 1) ≤ r < 10 ^ p` for the magnitude `p` of a fraction. -/
theorem magnitude_bounds {r : Ratio} (hd : 0 < r.den)
    (reach : r.den ≤ r.num * 10 ^ 400) :
    (10 : ℚ) ^ (r.magnitude - 1) ≤ val r ∧ val r < 10 ^ r.magnitude := by
  have dpos : (0 : ℚ) < r.den := by exact_mod_cast hd
  unfold Ratio.magnitude
  split
  next large =>
    have quotient : 0 < r.num / r.den := Nat.div_pos large hd
    have len := Nat.length_toDigits_pos (b := 10) (n := r.num / r.den)
    generalize hl : (Nat.toDigits 10 (r.num / r.den)).length = l at len
    obtain ⟨low, high⟩ := div_bounds r.num r.den
    constructor
    · have : 10 ^ (l - 1) ≤ r.num / r.den := by
        by_contra small
        by_cases one : l = 1
        · simp [one] at small
          omega
        · have := (Nat.length_toDigits_le_iff (b := 10) (by norm_num)
            (show 0 < l - 1 by omega)).mpr (not_le.mp small)
          omega
      have cast : (10 : ℚ) ^ (l - 1) ≤ (r.num / r.den : ℕ) := by exact_mod_cast this
      have : (10 : ℚ) ^ ((l : ℤ) - 1) = 10 ^ (l - 1) := by
        rw [← zpow_natCast]
        congr 1
        omega
      rw [this]
      exact le_trans cast low
    · have : r.num / r.den < 10 ^ l :=
        (Nat.length_toDigits_le_iff (by norm_num) len).mp hl.le
      have cast : ((r.num / r.den : ℕ) : ℚ) + 1 ≤ 10 ^ l := by exact_mod_cast this
      rw [zpow_natCast]
      exact lt_of_lt_of_le high cast
  next small =>
    obtain ⟨done, before⟩ := lift_spec r 400 0 (by rwa [Nat.zero_add]) (.inl rfl)
    generalize r.lift 400 0 = j at done before
    have positive : j ≠ 0 := by
      intro zero
      simp [zero] at done
      omega
    have last := before.resolve_left positive
    unfold val
    constructor
    · rw [le_div_iff₀ dpos]
      have cast : (r.den : ℚ) ≤ r.num * 10 ^ j := by exact_mod_cast done
      have : (10 : ℚ) ^ (1 - (j : ℤ) - 1) = (10 ^ j)⁻¹ := by
        rw [← zpow_natCast, ← zpow_neg]
        congr 1
        ring
      rw [this, inv_mul_le_iff₀ (by positivity)]
      linarith
    · rw [div_lt_iff₀ dpos]
      have cast : (r.num : ℚ) * 10 ^ (j - 1) < r.den := by exact_mod_cast last
      have : (10 : ℚ) ^ (1 - (j : ℤ)) = (10 ^ (j - 1))⁻¹ := by
        rw [← zpow_natCast, ← zpow_neg]
        congr 1
        omega
      rw [this, inv_mul_eq_div, lt_div_iff₀ (by positivity)]
      exact cast

/-- The first `k` digits of a number, read as that number again. -/
def Reads (n : Float.Model) (r : Ratio) (d k : ℕ) : Prop :=
  (Float.Model.ofScientific d (r.magnitude - k) == n) = true

/-- The search stops at digits that read back, once some length it tries has such digits. -/
theorem shortest_reads (n : Float.Model) (r : Ratio) (fuel k : ℕ)
    (h : ∃ j, k ≤ j ∧ j < k + fuel ∧ (Reads n r (r.scaled (j - r.magnitude)).1 j ∨
      Reads n r ((r.scaled (j - r.magnitude)).1 + 1) j)) :
    Reads n r (shortest n r fuel k).1 (shortest n r fuel k).2 ∧
      k ≤ (shortest n r fuel k).2 ∧ (shortest n r fuel k).2 < k + fuel ∧
      (r.scaled ((shortest n r fuel k).2 - r.magnitude)).1 ≤ (shortest n r fuel k).1 ∧
      (shortest n r fuel k).1 ≤ (r.scaled ((shortest n r fuel k).2 - r.magnitude)).1 + 1 := by
  induction fuel generalizing k with
  | zero =>
    obtain ⟨j, low, high, _⟩ := h
    omega
  | succ fuel ih =>
    unfold shortest
    dsimp only
    split
    next up =>
      rw [Bool.and_eq_true] at up
      exact ⟨up.1, le_refl k, by omega, Nat.le_succ _, le_refl _⟩
    next notUp =>
    split
    next down => exact ⟨down, le_refl k, by omega, le_refl _, Nat.le_succ _⟩
    next notDown =>
      obtain ⟨j, low, high, reads⟩ := h
      have later : k ≠ j := by
        rintro rfl
        rcases reads with here | here
        · exact notDown here
        · apply notUp
          unfold Reads at here
          rw [here]
          simp [Bool.eq_false_of_not_eq_true notDown]
      obtain ⟨found, low', high', first⟩ := ih (k + 1) ⟨j, by omega, by omega, reads⟩
      exact ⟨found, by omega, by omega, first⟩

section

variable {m : ℕ} {e : ℤ}

/-- A finite float is worth between `10 ^ (-1075)` and `10 ^ 1024`. -/
theorem magnitude_range (c : Canonical Format.binary64 m e) (top : e ≤ 971) :
    ((10 : ℚ) ^ ((Ratio.ofScaled m e).magnitude - 1) ≤ m * 2 ^ e ∧
      (m : ℚ) * 2 ^ e < 10 ^ (Ratio.ofScaled m e).magnitude) ∧
    -1075 < (Ratio.ofScaled m e).magnitude ∧ (Ratio.ofScaled m e).magnitude ≤ 1024 := by
  obtain ⟨value, hd⟩ := val_ofScaled m e
  have pos := c.pos
  have least := c.least
  have fits := c.fits
  rw [minExponent_eq] at least
  rw [mantissaBits_eq] at fits
  have reach : (Ratio.ofScaled m e).den ≤ (Ratio.ofScaled m e).num * 10 ^ 400 := by
    have big : ∀ j k : ℕ, k ≤ 3 * j → 2 ^ k ≤ 10 ^ j := by
      intro j k hk
      have step : 2 ^ k ≤ 2 ^ (3 * j) := Nat.pow_le_pow_right (by norm_num) hk
      rw [pow_mul] at step
      exact le_trans step (Nat.pow_le_pow_left (by norm_num) j)
    unfold Ratio.ofScaled
    split
    · exact le_trans (big 400 0 (by norm_num)) (Nat.le_mul_of_pos_left _ (by positivity))
    · exact le_trans (big 400 _ (by omega)) (Nat.le_mul_of_pos_left _ pos)
  have bounds := magnitude_bounds hd reach
  rw [value] at bounds
  refine ⟨bounds, ?_, ?_⟩
  · have small : (10 : ℚ) ^ (-1075 : ℤ) < 10 ^ (Ratio.ofScaled m e).magnitude := by
      refine lt_of_lt_of_le ?_ bounds.2.le
      have one : (1 : ℚ) ≤ m := by exact_mod_cast pos
      calc (10 : ℚ) ^ (-1075 : ℤ) < 2 ^ (-1075 : ℤ) := by
            rw [zpow_neg, zpow_neg]
            apply inv_strictAnti₀ (by positivity)
            exact pow_lt_pow_left₀ (by norm_num) (by norm_num) (by norm_num)
        _ ≤ 2 ^ e := zpow_le_zpow_right₀ (by norm_num) (by omega)
        _ = 1 * 2 ^ e := (one_mul _).symm
        _ ≤ m * 2 ^ e := mul_le_mul_of_nonneg_right one (by positivity)
    exact (zpow_lt_zpow_iff_right₀ (by norm_num)).mp small
  · have large : (10 : ℚ) ^ ((Ratio.ofScaled m e).magnitude - 1) < 10 ^ (1024 : ℤ) := by
      refine lt_of_le_of_lt bounds.1 ?_
      have cast : (m : ℚ) < 2 ^ (53 : ℤ) := by exact_mod_cast fits
      calc (m : ℚ) * 2 ^ e < 2 ^ (53 : ℤ) * 2 ^ e := mul_lt_mul_of_pos_right cast (by positivity)
        _ = 2 ^ (53 + e) := (zpow_add₀ (by norm_num) _ _).symm
        _ ≤ 2 ^ (1024 : ℤ) := zpow_le_zpow_right₀ (by norm_num) (by omega)
        _ ≤ 10 ^ (1024 : ℤ) := pow_le_pow_left₀ (by norm_num) (by norm_num) 1024
    have := (zpow_lt_zpow_iff_right₀ (by norm_num)).mp large
    omega

theorem beq_self_finite {s : Sign} {hm : 0 < m} (h : Fits (.finite s m e hm)) :
    (Float.Model.pack (.finite s m e hm) == Float.Model.pack (.finite s m e hm)) = true := by
  have back : (Float.Model.pack (.finite s m e hm)).unpack = .finite s m e hm := unpack_pack h
  show UnpackedFloat.beq _ _ = true
  rw [back]
  cases s <;> simp [UnpackedFloat.beq, UnpackedFloat.compare]

/-- Digits within half a unit of the seventeenth place read as the float. -/
theorem reads_of_near (c : Canonical Format.binary64 m e) (top : e ≤ 971) {d : ℕ} (hd : 0 < d)
    (near : |(d : ℚ) - m * 2 ^ e * 10 ^ ((17 : ℕ) - (Ratio.ofScaled m e).magnitude)| ≤ 1 / 2) :
    Reads (Float.Model.pack (.finite .positive m e c.pos)) (Ratio.ofScaled m e) d 17 := by
  obtain ⟨⟨low, _⟩, lowP, highP⟩ := magnitude_range c top
  unfold Reads
  generalize (Ratio.ofScaled m e).magnitude = p at *
  have ten : (10 : ℚ) ≠ 0 := by norm_num
  have fits := c.fits
  rw [mantissaBits_eq] at fits
  have mBound : (m : ℚ) < 2 ^ 53 := by exact_mod_cast fits
  have unit : (0 : ℚ) < 2 ^ e := by positivity
  have place : (0 : ℚ) < 10 ^ (p - 17) := by positivity
  -- the seventeenth place is narrower than the float's own unit
  have narrow : (10 : ℚ) ^ 16 * 10 ^ (p - 17) ≤ m * 2 ^ e := by
    refine le_trans (le_of_eq ?_) low
    rw [← zpow_natCast, ← zpow_add₀ ten]
    congr 1
    push_cast
    ring
  have dist : |(d : ℚ) * 10 ^ (p - 17) - m * 2 ^ e| ≤ 10 ^ (p - 17) / 2 := by
    have scale : (d : ℚ) * 10 ^ (p - 17) - m * 2 ^ e =
        ((d : ℚ) - m * 2 ^ e * 10 ^ (((17 : ℕ) : ℤ) - p)) * 10 ^ (p - 17) := by
      have cancel : (10 : ℚ) ^ (((17 : ℕ) : ℤ) - p) * 10 ^ (p - 17) = 1 := by
        rw [← zpow_add₀ ten]
        norm_num
      linear_combination (m : ℚ) * 2 ^ e * cancel
    rw [scale, abs_mul, abs_of_pos place]
    nlinarith
  obtain ⟨M, E, acc, w, read⟩ := ofScientific_writes Format.binary64 hd (e := p - 17)
    (by norm_num; omega) (by norm_num; omega)
  have rounds := roundWithAccuracy_of_close w c
    (by norm_num at narrow ⊢; nlinarith)
    (by
      intro edge
      rw [mantissaBits_eq] at edge
      have : (m : ℚ) = 2 ^ 52 := by exact_mod_cast edge
      rw [this] at narrow dist ⊢
      norm_num at narrow dist ⊢
      nlinarith) .positive
  have model : Float.Model.ofScientific d (p - ((17 : ℕ) : ℤ)) =
      Float.Model.pack (.finite .positive m e c.pos) := by
    rw [Float.Model.ofScientific, ← rounds, ← read]
    rfl
  rw [model]
  exact beq_self_finite ⟨c, top⟩

/-- Seventeen digits are enough. -/
theorem seventeen_digits (c : Canonical Format.binary64 m e) (top : e ≤ 971) :
    Reads (Float.Model.pack (.finite .positive m e c.pos)) (Ratio.ofScaled m e)
      ((Ratio.ofScaled m e).scaled ((17 : ℕ) - (Ratio.ofScaled m e).magnitude)).1 17 ∨
    Reads (Float.Model.pack (.finite .positive m e c.pos)) (Ratio.ofScaled m e)
      (((Ratio.ofScaled m e).scaled ((17 : ℕ) - (Ratio.ofScaled m e).magnitude)).1 + 1) 17 := by
  obtain ⟨low, high⟩ := scaled_bounds (Ratio.ofScaled m e)
    ((17 : ℕ) - (Ratio.ofScaled m e).magnitude)
  rw [(val_ofScaled m e).1] at low high
  have near := @reads_of_near m e c top
  obtain ⟨⟨atLeast, _⟩, _, _⟩ := magnitude_range c top
  generalize ((Ratio.ofScaled m e).scaled ((17 : ℕ) - (Ratio.ofScaled m e).magnitude)).1 = q at *
  have big : (1 : ℚ) < m * 2 ^ e * 10 ^ ((17 : ℕ) - (Ratio.ofScaled m e).magnitude) := by
    generalize (Ratio.ofScaled m e).magnitude = p at *
    have ten : (10 : ℚ) ≠ 0 := by norm_num
    have place : (0 : ℚ) < 10 ^ (((17 : ℕ) : ℤ) - p) := by positivity
    calc (1 : ℚ) < 10 ^ (16 : ℤ) := by norm_num
      _ = 10 ^ (p - 1) * 10 ^ (((17 : ℕ) : ℤ) - p) := by
        rw [← zpow_add₀ ten]
        congr 1
        push_cast
        ring
      _ ≤ _ := mul_le_mul_of_nonneg_right atLeast place.le
  generalize (m : ℚ) * 2 ^ e * 10 ^ (((17 : ℕ) : ℤ) - (Ratio.ofScaled m e).magnitude) = x at *
  have positive : 0 < q := by
    by_contra zero
    have : q = 0 := by omega
    rw [this, Nat.cast_zero] at high
    linarith
  by_cases half : x - q ≤ 1 / 2
  · left
    apply near positive
    rw [abs_sub_comm, abs_of_nonneg (by linarith)]
    exact half
  · right
    apply near (Nat.succ_pos q)
    have cast : ((q + 1 : ℕ) : ℚ) = q + 1 := by push_cast; ring
    rw [cast, abs_of_nonneg (by linarith)]
    linarith

end

/-! ### The text of a float -/

section

variable {S : List Char}

/-- The digits on both sides of the point of a positional text, and what they are worth. -/
theorem positional_numeral (digits : ∀ c ∈ S, c.isDigit) (nonempty : S ≠ []) (p : ℤ) :
    ∃ whole fraction, positional S p = numeral whole fraction ∧ (∀ c ∈ whole, c.isDigit) ∧
      (∀ c ∈ fraction, c.isDigit) ∧ whole ≠ [] ∧ fraction.length ≤ (-p).toNat + S.length ∧
      Nat.ofDigitChars 10 S 0 ≤ Nat.ofDigitChars 10 (whole ++ fraction) 0 ∧
      (Nat.ofDigitChars 10 (whole ++ fraction) 0 : ℚ) * 10 ^ (-(fraction.length : ℤ)) =
        Nat.ofDigitChars 10 S 0 * 10 ^ (p - S.length) := by
  have some : S.length ≠ 0 := by simpa using nonempty
  have zeros : ∀ k, ∀ c ∈ List.replicate k '0', c.isDigit := by
    intro k c hc
    rw [List.eq_of_mem_replicate hc]
    rfl
  unfold positional
  split
  next small =>
    have worth : Nat.ofDigitChars 10 (['0'] ++ (List.replicate (-p).toNat '0' ++ S)) 0 =
        Nat.ofDigitChars 10 S 0 := by
      rw [Nat.ofDigitChars_append, Nat.ofDigitChars_append, Nat.ofDigitChars_replicate_zero]
      rfl
    refine ⟨['0'], List.replicate (-p).toNat '0' ++ S, ?_, by simp, ?_, by simp, by simp,
      worth.symm.le, ?_⟩
    · simp [numeral, nonempty]
    · intro c hc
      rcases List.mem_append.mp hc with h | h
      · exact zeros _ c h
      · exact digits c h
    · have exponent : -(((List.replicate (-p).toNat '0' ++ S).length : ℕ) : ℤ) = p - S.length := by
        rw [List.length_append, List.length_replicate]
        push_cast
        omega
      rw [exponent, worth]
  next large =>
  split
  next long =>
    refine ⟨S ++ List.replicate (p.toNat - S.length) '0', [], by simp [numeral], ?_, by simp,
      by simp [nonempty], by simp, ?_, ?_⟩
    · intro c hc
      rcases List.mem_append.mp hc with h | h
      · exact digits c h
      · exact zeros _ c h
    · rw [List.append_nil, Nat.ofDigitChars_append, Nat.ofDigitChars_replicate_zero]
      exact Nat.le_mul_of_pos_left _ (by positivity)
    · have exponent : p - S.length = ((p.toNat - S.length : ℕ) : ℤ) := by omega
      rw [List.append_nil, Nat.ofDigitChars_append, Nat.ofDigitChars_replicate_zero, exponent,
        zpow_natCast]
      push_cast
      simp [mul_comm]
  next short =>
    refine ⟨S.take p.toNat, S.drop p.toNat, ?_, ?_, ?_, ?_, ?_, ?_, ?_⟩
    · have : ¬ S.length ≤ p.toNat := short
      simp [numeral, this]
    · intro c hc
      exact digits c (List.mem_of_mem_take hc)
    · intro c hc
      exact digits c (List.mem_of_mem_drop hc)
    · intro nil
      rw [List.take_eq_nil_iff] at nil
      rcases nil with h | h
      · omega
      · exact nonempty h
    · rw [List.length_drop]
      omega
    · rw [List.take_append_drop]
    · rw [List.take_append_drop, List.length_drop]
      congr 2
      omega

end

/-- Trailing zeros taken off: what is left is worth the number over a power of ten. -/
theorem strip_zeros {d : ℕ} (pos : 0 < d) :
    ∃ z, Nat.toDigits 10 d = (Nat.toDigits 10 d).rdropWhile (· = '0') ++ List.replicate z '0' ∧
      (Nat.toDigits 10 d).rdropWhile (· = '0') ≠ [] ∧
      0 < Nat.ofDigitChars 10 ((Nat.toDigits 10 d).rdropWhile (· = '0')) 0 ∧
      d = Nat.ofDigitChars 10 ((Nat.toDigits 10 d).rdropWhile (· = '0')) 0 * 10 ^ z := by
  have zeros := List.eq_replicate_of_mem (a := '0')
    (l := (Nat.toDigits 10 d).rtakeWhile (· = '0')) fun c hc => by
      simpa using List.mem_rtakeWhile_imp hc
  have parts := List.rdropWhile_append_rtakeWhile (p := (· = '0')) (l := Nat.toDigits 10 d)
  rw [zeros] at parts
  generalize ((Nat.toDigits 10 d).rtakeWhile (· = '0')).length = z at parts
  generalize (Nat.toDigits 10 d).rdropWhile (· = '0') = S at *
  have worth : d = Nat.ofDigitChars 10 S 0 * 10 ^ z := by
    conv_lhs => rw [← Nat.ofDigitChars_ten_toDigits (n := d), ← parts, Nat.ofDigitChars_append,
      Nat.ofDigitChars_replicate_zero, mul_comm]
  have left : 0 < Nat.ofDigitChars 10 S 0 := by
    by_contra zero
    have : Nat.ofDigitChars 10 S 0 = 0 := by omega
    rw [this, zero_mul] at worth
    omega
  refine ⟨z, parts.symm, ?_, left, worth⟩
  rintro rfl
  simp at left

/-- Equal by the comparison of floats, where one side is finite and not zero. -/
theorem eq_of_beq {f : Float.Model} {s : Sign} {m : ℕ} {e : ℤ} {hm : 0 < m}
    (fits : Fits (.finite s m e hm)) (same : (f == Float.Model.pack (.finite s m e hm)) = true) :
    f = Float.Model.pack (.finite s m e hm) := by
  have back : (Float.Model.pack (.finite s m e hm)).unpack = .finite s m e hm := unpack_pack fits
  change UnpackedFloat.beq f.unpack _ = true at same
  apply unpack_injective
  rw [back] at same ⊢
  unfold UnpackedFloat.beq UnpackedFloat.compare at same
  split at same <;> simp_all [Ordering.then_eq_eq]

section

variable {m : ℕ} {e : ℤ}

/-- The digits a float is displayed with: they read as the float, and there are few of them. -/
theorem shortest_spec (c : Canonical Format.binary64 m e) (top : e ≤ 971) :
    ∃ d k : ℕ, shortest (Float.Model.pack (.finite .positive m e c.pos)) (Ratio.ofScaled m e) 17 1 =
        (d, k) ∧
      Float.Model.ofScientific d ((Ratio.ofScaled m e).magnitude - k) =
        Float.Model.pack (.finite .positive m e c.pos) ∧
      0 < d ∧ 1 ≤ k ∧ k ≤ 17 ∧ (Nat.toDigits 10 d).length ≤ 18 := by
  obtain ⟨⟨atLeast, below⟩, _, _⟩ := magnitude_range c top
  obtain ⟨reads, least, most, first, last⟩ := shortest_reads
    (Float.Model.pack (.finite .positive m e c.pos)) (Ratio.ofScaled m e) 17 1
    ⟨17, by norm_num, by norm_num, seventeen_digits c top⟩
  generalize shortest (Float.Model.pack (.finite .positive m e c.pos)) (Ratio.ofScaled m e) 17 1 =
    found at *
  obtain ⟨d, k⟩ := found
  dsimp only at *
  obtain ⟨low, high⟩ := scaled_bounds (Ratio.ofScaled m e) (k - (Ratio.ofScaled m e).magnitude)
  rw [(val_ofScaled m e).1] at low high
  generalize ((Ratio.ofScaled m e).scaled (k - (Ratio.ofScaled m e).magnitude)).1 = q at *
  have ten : (10 : ℚ) ≠ 0 := by norm_num
  unfold Reads at reads
  generalize (Ratio.ofScaled m e).magnitude = p at *
  have place : (0 : ℚ) < 10 ^ ((k : ℤ) - p) := by positivity
  have one : (1 : ℚ) ≤ m * 2 ^ e * 10 ^ ((k : ℤ) - p) := by
    calc (1 : ℚ) ≤ 10 ^ ((k : ℤ) - 1) := one_le_zpow₀ (by norm_num) (by omega)
      _ = 10 ^ (p - 1) * 10 ^ ((k : ℤ) - p) := by
        rw [← zpow_add₀ ten]
        congr 1
        ring
      _ ≤ _ := mul_le_mul_of_nonneg_right atLeast place.le
  have bound : (m : ℚ) * 2 ^ e * 10 ^ ((k : ℤ) - p) < 10 ^ k := by
    calc (m : ℚ) * 2 ^ e * 10 ^ ((k : ℤ) - p) < 10 ^ p * 10 ^ ((k : ℤ) - p) :=
          mul_lt_mul_of_pos_right below place
      _ = 10 ^ k := by
        rw [← zpow_add₀ ten, ← zpow_natCast]
        congr 1
        ring
  have positive : 0 < q := by
    by_contra zero
    have : q = 0 := by omega
    rw [this, Nat.cast_zero] at high
    linarith
  have small : q < 10 ^ k := by
    have : (q : ℚ) < 10 ^ k := lt_of_le_of_lt low bound
    exact_mod_cast this
  refine ⟨d, k, rfl, eq_of_beq ⟨c, top⟩ reads, by omega, least, by omega, ?_⟩
  have limit : 10 ^ k ≤ 10 ^ 17 := Nat.pow_le_pow_right (by norm_num) (by omega)
  exact (Nat.length_toDigits_le_iff (by norm_num) (by norm_num)).mpr (by omega)

/-- The digits of a positive float's text read as the float. -/
theorem text_of_positive (c : Canonical Format.binary64 m e) (top : e ≤ 971) {d k : ℕ}
    (value : Float.Model.ofScientific d ((Ratio.ofScaled m e).magnitude - k) =
      Float.Model.pack (.finite .positive m e c.pos))
    (pos : 0 < d) (least : 1 ≤ k) (most : k ≤ 17) (short : (Nat.toDigits 10 d).length ≤ 18) :
    ∃ whole fraction,
      positional ((Nat.toDigits 10 d).rdropWhile (· = '0'))
          ((Ratio.ofScaled m e).magnitude + (Nat.toDigits 10 d).length - k) =
        numeral whole fraction ∧
      (∀ c ∈ whole, c.isDigit) ∧ (∀ c ∈ fraction, c.isDigit) ∧ whole ≠ [] ∧
      Float.Model.ofScientific (Nat.ofDigitChars 10 (whole ++ fraction) 0)
        (-(fraction.length : ℤ)) = Float.Model.pack (.finite .positive m e c.pos) := by
  obtain ⟨_, lowP, highP⟩ := magnitude_range c top
  generalize (Ratio.ofScaled m e).magnitude = p at *
  obtain ⟨z, parts, nonempty, left, worth⟩ := strip_zeros pos
  have digits : ∀ c ∈ (Nat.toDigits 10 d).rdropWhile (· = '0'), c.isDigit := by
    intro c hc
    have : c ∈ Nat.toDigits 10 d := by
      rw [parts]
      exact List.mem_append_left _ hc
    exact Nat.isDigit_of_mem_toDigits (by norm_num) (by norm_num) this
  have length := congrArg List.length parts
  rw [List.length_append, List.length_replicate] at length
  obtain ⟨whole, fraction, text, hw, hf, some, few, more, same⟩ :=
    positional_numeral digits nonempty (p + (Nat.toDigits 10 d).length - k)
  refine ⟨whole, fraction, text, hw, hf, some, ?_⟩
  rw [← value]
  unfold Float.Model.ofScientific
  congr 1
  have ten : (10 : ℚ) ≠ 0 := by norm_num
  have bits : Format.binary64.exponentBits = 11 := rfl
  generalize (Nat.toDigits 10 d).rdropWhile (· = '0') = S at *
  apply ofScientific_congr Format.binary64 (by omega) pos (by rw [bits]; omega)
    (by rw [bits]; omega)
  rw [same]
  conv_rhs => rw [worth]
  push_cast
  rw [mul_assoc, ← zpow_natCast (10 : ℚ) z, ← zpow_add₀ ten]
  congr 2
  omega

/-- A finite float's text is a sign, digits and maybe more of them behind a point, and it
reads back as the float. -/
theorem display_numeral {n : Float.Model} (finite : n.isFinite = true) :
    ∃ neg whole fraction, display n = String.ofList (signed neg (numeral whole fraction)) ∧
      (∀ c ∈ whole, c.isDigit) ∧ (∀ c ∈ fraction, c.isDigit) ∧ whole ≠ [] ∧
      parse (display n) = some n := by
  have fits := fits_unpack n
  have packed : Float.Model.pack n.unpack = n := by
    apply unpack_injective
    exact unpack_pack fits
  unfold display
  split
  next nan => simp [Float.Model.isFinite, nan, UnpackedFloat.isFinite] at finite
  next inf => simp [Float.Model.isFinite, inf, UnpackedFloat.isFinite] at finite
  next inf => simp [Float.Model.isFinite, inf, UnpackedFloat.isFinite] at finite
  next zero =>
    refine ⟨false, ['0'], [], rfl, by simp, by simp, by simp, ?_⟩
    rw [← packed, zero]
    decide
  next zero =>
    refine ⟨true, ['0'], [], rfl, by simp, by simp, by simp, ?_⟩
    rw [← packed, zero]
    decide
  next s m e hm eq =>
    rw [eq] at fits
    obtain ⟨c, top⟩ := fits
    have abs : n.abs = Float.Model.pack (.finite .positive m e c.pos) := by
      rw [Float.Model.abs, eq]
      rfl
    obtain ⟨d, k, found, value, pos, least, most, short⟩ := shortest_spec c top
    obtain ⟨whole, fraction, text, hw, hf, some, read⟩ :=
      text_of_positive c top value pos least most short
    dsimp only
    rw [abs, found]
    dsimp only
    rw [text]
    rw [eq] at packed
    cases s with
    | positive =>
      have parsed := parse_numeral hw hf some false
      rw [read] at parsed
      exact ⟨false, whole, fraction, rfl, hw, hf, some,
        parsed.trans (congrArg Option.some packed)⟩
    | negative =>
      have parsed := parse_numeral hw hf some true
      rw [read] at parsed
      have negated : (Float.Model.pack (.finite .positive m e c.pos)).neg = n := by
        rw [neg_pack (show Fits (.finite .positive m e c.pos) from ⟨c, top⟩), ← packed]
        rfl
      exact ⟨true, whole, fraction, rfl, hw, hf, some,
        parsed.trans (congrArg Option.some negated)⟩

end

end Decimal
