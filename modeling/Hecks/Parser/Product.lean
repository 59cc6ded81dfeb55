import Hecks.Parser.Durations

/-! The number a duration folds to: its digits times the seconds of the unit, spelled as any other
number is. -/

namespace Hecks.Parser.Canonical

open Nat (ofDigitChars toDigits)

/-! ### Digits that start with no zero -/

theorem ofDigitChars_snoc (ds : List Char) (d : Char) :
    ofDigitChars 10 (ds ++ [d]) 0 = 10 * ofDigitChars 10 ds 0 + (d.toNat - '0'.toNat) := by
  rw [Nat.ofDigitChars_append, Nat.ofDigitChars_cons, Nat.ofDigitChars_nil]

theorem digitChar_value {n : ℕ} (small : n < 10) : (digitChar n).toNat - '0'.toNat = n := by
  revert n
  decide

theorem toDigits_digit {d : Char} (digit : d.isDigit) : toDigits 10 (d.toNat - '0'.toNat) = [d] := by
  have small := digit_value digit
  rw [Nat.toDigits_of_lt_base (by omega)]
  have bounds : '0'.toNat ≤ d.toNat := by
    simp only [Char.isDigit, ge_iff_le, Bool.and_eq_true, decide_eq_true_eq] at digit
    exact digit.1
  have char : ∀ n < 10, Nat.digitChar n = Char.ofNat ('0'.toNat + n) := by decide
  rw [char _ (by omega), Nat.add_sub_cancel' bounds, Char.ofNat_toNat]

/-- A number is spelled by its digits, the first of them no zero unless it stands alone. -/
theorem toDigits_ofDigitChars {ds : List Char} (all : ∀ d ∈ ds, d.isDigit) (nonempty : ds ≠ [])
    (first : ds.head? = some '0' → ds.length = 1) : toDigits 10 (ofDigitChars 10 ds 0) = ds := by
  induction ds using List.reverseRecOn with
  | nil => exact absurd rfl nonempty
  | append_singleton ds d ih =>
    have digit : d.isDigit := all d (by simp)
    rw [ofDigitChars_snoc]
    by_cases alone : ds = []
    · rw [alone, Nat.ofDigitChars_nil, Nat.mul_zero, Nat.zero_add, toDigits_digit digit]
      rfl
    · have lead : ds.head? ≠ some '0' := by
        intro zero
        have length := first (by rw [List.head?_append_of_ne_nil _ alone]; exact zero)
        rw [List.length_append, List.length_singleton] at length
        exact alone (List.length_eq_zero_iff.mp (by omega))
      have front := ih (fun e mem => all e (List.mem_append_left _ mem)) alone
        fun zero => absurd zero lead
      have positive : 0 < ofDigitChars 10 ds 0 := by
        apply Nat.pos_of_ne_zero
        intro zero
        rw [zero, Nat.toDigits_zero] at front
        rw [← front] at lead
        exact lead rfl
      have small := digit_value digit
      rw [← Nat.toDigits_append_toDigits (by decide) positive (by omega), front,
        toDigits_digit digit]

/-! ### The digits of a product -/

theorem carried_value (carry : ℕ) : ofDigitChars 10 (carried carry).reverse 0 = carry := by
  fun_induction carried carry with
  | case1 => rfl
  | case2 carry positive ih =>
    have small : carry % 10 < 10 := Nat.mod_lt _ (by decide)
    rw [List.reverse_cons, ofDigitChars_snoc, ih, digitChar_value small]
    omega

/-- What is written and what is carried add up to the product, place by place. -/
theorem multiplyFrom_value (factor : ℕ) (ds : List Char) : ∀ carry : ℕ,
    ofDigitChars 10 (multiplyFrom factor ds carry).reverse 0 =
      ofDigitChars 10 ds.reverse 0 * factor + carry := by
  induction ds with
  | nil =>
    intro carry
    rw [multiplyFrom, carried_value, List.reverse_nil, Nat.ofDigitChars_nil]
    omega
  | cons d ds ih =>
    intro carry
    have small : ((d.toNat - '0'.toNat) * factor + carry) % 10 < 10 := Nat.mod_lt _ (by decide)
    rw [multiplyFrom, List.reverse_cons, List.reverse_cons, ofDigitChars_snoc, ofDigitChars_snoc,
      ih, digitChar_value small, Nat.add_mul]
    have whole := Nat.div_add_mod ((d.toNat - '0'.toNat) * factor + carry) 10
    rw [Nat.mul_assoc]
    omega

theorem stripZeros_value (ds : List Char) :
    ofDigitChars 10 (stripZeros ds) 0 = ofDigitChars 10 ds 0 := by
  fun_induction stripZeros ds with
  | case1 c cs ih => exact ih.trans Nat.ofDigitChars_cons.symm
  | case2 cs => rfl

theorem stripZeros_first (ds : List Char) :
    (stripZeros ds).head? = some '0' → (stripZeros ds).length = 1 := by
  fun_induction stripZeros ds with
  | case1 c cs ih => exact ih
  | case2 cs other =>
    intro zero
    cases cs with
    | nil => cases zero
    | cons c cs =>
      cases cs with
      | nil => rfl
      | cons e es =>
        cases Option.some.inj zero
        exact absurd rfl (other e es)

/-! ### The `u32` of a place -/

/-- What each place comes to before its digit is written, the least first. -/
def places (factor : ℕ) : List Char → ℕ → List ℕ
  | [], _ => []
  | d :: ds, carry =>
      let v := (d.toNat - '0'.toNat) * factor + carry
      v :: places factor ds (v / 10)

/-- No carry exceeds the factor, and no place ten times the factor. -/
theorem places_le {factor : ℕ} {ds : List Char} (all : ∀ d ∈ ds, d.isDigit) :
    ∀ carry ≤ factor, ∀ v ∈ places factor ds carry, v ≤ 10 * factor := by
  induction ds with
  | nil => exact fun _ _ _ none => absurd none List.not_mem_nil
  | cons d ds ih =>
    intro carry small v mem
    have value := Nat.mul_le_mul_right factor (digit_value (all d List.mem_cons_self))
    cases List.mem_cons.mp mem with
    | inl here => omega
    | inr later =>
      exact ih (fun e mem => all e (List.mem_cons_of_mem _ mem)) _ (by omega) v later

/-- With the factors of the unit table a product is spelled as the number it is, and every place
fits the `u32` it is worked out in. -/
theorem multiply_spells {unit : String} {factor : ℕ} {digits : List Char}
    (listed : (unit, factor) ∈ scaleCalls) (all : ∀ d ∈ digits, d.isDigit)
    (nonempty : digits ≠ []) :
    multiply digits factor = (toString (ofDigitChars 10 digits 0 * factor)).toList ∧
      ∀ v ∈ places factor digits.reverse 0, v < 2 ^ 32 := by
  constructor
  · have worth : ofDigitChars 10 (multiply digits factor) 0 = ofDigitChars 10 digits 0 * factor := by
      rw [multiply, stripZeros_value, multiplyFrom_value, List.reverse_reverse, Nat.add_zero]
    rw [← worth, Nat.toString_eq_ofList_toDigits, String.toList_ofList]
    exact (toDigits_ofDigitChars (multiply_digits factor digits) (multiply_ne_nil nonempty)
      (stripZeros_first _)).symm
  · intro v mem
    have reversed : ∀ d ∈ digits.reverse, d.isDigit := fun d inside =>
      all d (List.mem_reverse.mp inside)
    have place := places_le reversed 0 (Nat.zero_le _) v mem
    have bounded : factor ≤ 86400 := by
      have units : ∀ row ∈ scaleCalls, row.2 ≤ 86400 := by simp [scaleCalls]
      exact units _ listed
    omega

/-- Ten minutes, written with a zero in front. -/
theorem ten_minutes :
    multiply ['0', '1', '0'] 60 = (toString (ofDigitChars 10 ['0', '1', '0'] 0 * 60)).toList ∧
      ∀ v ∈ places 60 ['0', '1', '0'].reverse 0, v < 2 ^ 32 :=
  @multiply_spells "minutes" 60 _ (by simp [scaleCalls]) (by simp) (by simp)

end Hecks.Parser.Canonical
