import Mathlib

/-! The rounding of the core library's binary floating-point model, read as arithmetic on
rationals: an extended mantissa stands for a number, shifting it halves the number, and
rounding picks the nearest whole one. What a number rounds to then depends on its value
alone, however it was written down. -/
open Float.Model Float.Model.UnpackedFloat

namespace Rounding

/-! ### Extended mantissas as numbers -/

/-- `em` stands for `v`: its mantissa is the whole part, and the two bits place the
fraction against one half. -/
def StandsFor (em : ExtendedMantissa) (v : ℚ) : Prop :=
  ∃ f : ℚ, 0 ≤ f ∧ f < 1 ∧ v = em.mantissa + f ∧ (em.roundBit = true ↔ 1 / 2 ≤ f) ∧
    (em.stickyBit = true ↔ f ≠ 0 ∧ f ≠ 1 / 2)

theorem standsFor_shiftRightOne {em : ExtendedMantissa} {v : ℚ} (h : StandsFor em v) :
    StandsFor em.shiftRightOne (v / 2) := by
  obtain ⟨f, f0, f1, rfl, round, sticky⟩ := h
  have split : (em.mantissa : ℚ) = 2 * (em.mantissa / 2 : ℕ) + (em.mantissa % 2 : ℕ) := by
    exact_mod_cast (Nat.div_add_mod em.mantissa 2).symm
  have rest : (em.roundBit || em.stickyBit) = true ↔ f ≠ 0 := by
    rw [Bool.or_eq_true, round, sticky]
    constructor
    · rintro (h | h)
      · intro zero
        rw [zero] at h
        norm_num at h
      · exact h.1
    · intro h
      by_cases half : 1 / 2 ≤ f
      · exact .inl half
      · exact .inr ⟨h, fun e => half (e ▸ le_refl _)⟩
  rcases Nat.mod_two_eq_zero_or_one em.mantissa with even | odd
  · refine ⟨f / 2, by linarith, by linarith, ?_, ?_, ?_⟩
    · rw [ExtendedMantissa.shiftRightOne, split, even]
      push_cast
      ring
    · simp only [ExtendedMantissa.shiftRightOne, even]
      constructor
      · intro h
        cases h
      · intro h
        linarith
    · simp only [ExtendedMantissa.shiftRightOne]
      rw [rest]
      constructor
      · intro h
        exact ⟨by simpa using h, by linarith⟩
      · rintro ⟨h, _⟩ zero
        simp [zero] at h
  · refine ⟨(1 + f) / 2, by linarith, by linarith, ?_, ?_, ?_⟩
    · rw [ExtendedMantissa.shiftRightOne, split, odd]
      push_cast
      ring
    · simp only [ExtendedMantissa.shiftRightOne, odd]
      constructor
      · intro _
        linarith
      · intro _
        rfl
    · simp only [ExtendedMantissa.shiftRightOne]
      rw [rest]
      constructor
      · intro h
        refine ⟨by linarith, ?_⟩
        intro e
        apply h
        linarith
      · rintro ⟨_, h⟩ zero
        apply h
        rw [zero]
        norm_num

theorem standsFor_shiftRight {em : ExtendedMantissa} {v : ℚ} (h : StandsFor em v) (k : ℕ) :
    StandsFor (em >>> k) (v / 2 ^ k) := by
  induction k with
  | zero => simpa [HShiftRight.hShiftRight, Nat.repeat] using h
  | succ k ih =>
    have next := standsFor_shiftRightOne ih
    rw [div_div, ← pow_succ] at next
    exact next

theorem standsFor_exact (m : ℕ) :
    StandsFor (ExtendedMantissa.ofMantissaAndAccuracy m .exact) m := by
  refine ⟨0, le_refl 0, by norm_num, ?_, ?_, ?_⟩ <;>
    simp [ExtendedMantissa.ofMantissaAndAccuracy]

/-- A quotient with the place of its remainder stands for the fraction. -/
theorem standsFor_fraction (n d : ℕ) (hd : 0 < d) :
    StandsFor (ExtendedMantissa.ofMantissaAndAccuracy (n / d) (accuracyOfFraction (n % d) d))
      ((n : ℚ) / d) := by
  have dpos : (0 : ℚ) < d := by exact_mod_cast hd
  have value : (n : ℚ) / d = (n / d : ℕ) + ((n % d : ℕ) : ℚ) / d := by
    rw [eq_comm, ← sub_eq_zero]
    field_simp
    have := Nat.div_add_mod n d
    have cast : (d : ℚ) * (n / d : ℕ) + (n % d : ℕ) = n := by exact_mod_cast this
    linarith
  have below : ((n % d : ℕ) : ℚ) < d := by exact_mod_cast Nat.mod_lt n hd
  have low : (0 : ℚ) ≤ ((n % d : ℕ) : ℚ) / d := by positivity
  have high : ((n % d : ℕ) : ℚ) / d < 1 := by rw [div_lt_one dpos]; exact below
  unfold accuracyOfFraction
  split
  next zero =>
    refine ⟨0, le_refl 0, by norm_num, ?_, ?_, ?_⟩
    · rw [value, zero]
      simp [ExtendedMantissa.ofMantissaAndAccuracy]
    · simp [ExtendedMantissa.ofMantissaAndAccuracy]
    · simp [ExtendedMantissa.ofMantissaAndAccuracy]
  next nonzero =>
    have pos : (0 : ℚ) < ((n % d : ℕ) : ℚ) / d := by
      apply div_pos _ dpos
      exact_mod_cast Nat.pos_of_ne_zero nonzero
    refine ⟨((n % d : ℕ) : ℚ) / d, low, high, ?_, ?_, ?_⟩
    · rw [value]
      cases compare (2 * (n % d)) d <;> simp [ExtendedMantissa.ofMantissaAndAccuracy]
    · have half : (1 / 2 : ℚ) ≤ ((n % d : ℕ) : ℚ) / d ↔ d ≤ 2 * (n % d) := by
        rw [div_le_div_iff₀ (by norm_num) dpos]
        constructor
        · intro h
          have : (d : ℚ) ≤ 2 * (n % d : ℕ) := by linarith
          exact_mod_cast this
        · intro h
          have : (d : ℚ) ≤ 2 * (n % d : ℕ) := by exact_mod_cast h
          linarith
      rw [half]
      rcases lt_trichotomy (2 * (n % d)) d with h | h | h
      · rw [compare_lt_iff_lt.mpr h]
        simp [ExtendedMantissa.ofMantissaAndAccuracy, h]
      · rw [compare_eq_iff_eq.mpr h]
        simp [ExtendedMantissa.ofMantissaAndAccuracy, h]
      · rw [compare_gt_iff_gt.mpr h]
        simp [ExtendedMantissa.ofMantissaAndAccuracy, h.le]
    · have half : ((n % d : ℕ) : ℚ) / d = 1 / 2 ↔ 2 * (n % d) = d := by
        rw [div_eq_div_iff dpos.ne' (by norm_num)]
        constructor
        · intro h
          have : (2 : ℚ) * (n % d : ℕ) = d := by linarith
          exact_mod_cast this
        · intro h
          have : (2 : ℚ) * (n % d : ℕ) = d := by exact_mod_cast h
          linarith
      rw [Ne, Ne, half]
      simp only [pos.ne', not_false_eq_true, true_and]
      rcases lt_trichotomy (2 * (n % d)) d with h | h | h
      · rw [compare_lt_iff_lt.mpr h]
        simp [ExtendedMantissa.ofMantissaAndAccuracy, h.ne]
      · rw [compare_eq_iff_eq.mpr h]
        simp [ExtendedMantissa.ofMantissaAndAccuracy, h]
      · rw [compare_gt_iff_gt.mpr h]
        simp [ExtendedMantissa.ofMantissaAndAccuracy, h.ne']

/-! ### The nearest whole number -/

/-- `r` is the whole number nearest to `v`, the even one of two. -/
def Nearest (v : ℚ) (r : ℕ) : Prop := |v - r| < 1 / 2 ∨ (|v - r| = 1 / 2 ∧ r % 2 = 0)

theorem Nearest.dist_le {v : ℚ} {r : ℕ} (h : Nearest v r) : |v - r| ≤ 1 / 2 := by
  rcases h with h | h <;> linarith

theorem Nearest.unique {v : ℚ} {r s : ℕ} (hr : Nearest v r) (hs : Nearest v s) : r = s := by
  -- two nearest numbers are neighbours, each half away, and cannot both be even
  have close : |(r : ℚ) - s| ≤ |v - r| + |v - s| := by
    have := abs_sub_le (r : ℚ) v s
    rw [abs_sub_comm (r : ℚ) v] at this
    exact this
  have hr' := hr.dist_le
  have hs' := hs.dist_le
  by_contra ne
  have apart : (1 : ℚ) ≤ |(r : ℚ) - s| := by
    have : (1 : ℤ) ≤ |(r : ℤ) - s| := Int.one_le_abs (by omega)
    exact_mod_cast this
  rcases hr with h | ⟨_, er⟩
  · linarith
  rcases hs with h | ⟨_, es⟩
  · linarith
  have one : |(r : ℚ) - s| = 1 := by linarith
  have neighbours : |(r : ℤ) - s| = 1 := by exact_mod_cast one
  rcases (abs_eq (by norm_num)).mp neighbours with h | h <;> omega

theorem Nearest.le_of_lt {v : ℚ} {r b : ℕ} (h : Nearest v r) (lt : v < b) : r ≤ b := by
  have := abs_le.mp h.dist_le
  have : (r : ℚ) < b + 1 := by linarith
  have : r < b + 1 := by exact_mod_cast this
  omega

theorem Nearest.le_of_le {v : ℚ} {r b : ℕ} (h : Nearest v r) (le : b ≤ v) : b ≤ r := by
  have := abs_le.mp h.dist_le
  have : (b : ℚ) < r + 1 := by linarith
  have : b < r + 1 := by exact_mod_cast this
  omega

theorem nearest_roundedMantissa {em : ExtendedMantissa} {v : ℚ} (h : StandsFor em v) :
    Nearest v em.roundedMantissa := by
  obtain ⟨m, r, s⟩ := em
  obtain ⟨f, f0, f1, rfl, round, sticky⟩ := h
  simp only at round sticky
  cases r <;> cases s <;>
    simp only [ExtendedMantissa.roundedMantissa, ExtendedMantissa.accuracy,
      Accuracy.roundToNearestEven, Bool.false_eq_true, false_iff, true_iff, not_le] at *
  · left
    rw [abs_lt]
    constructor <;> linarith
  · left
    rw [abs_lt]
    constructor <;> linarith
  · have half : f = 1 / 2 := by
      by_contra ne
      exact sticky ⟨by linarith, ne⟩
    right
    rcases Nat.mod_two_eq_zero_or_one m with even | odd
    · rw [even]
      refine ⟨?_, by omega⟩
      rw [half]
      norm_num
    · rw [odd]
      refine ⟨?_, by omega⟩
      rw [half]
      push_cast
      rw [abs_of_neg] <;> linarith
  · left
    have gt : 1 / 2 < f := lt_of_le_of_ne round (Ne.symm sticky.2)
    rw [abs_lt]
    push_cast
    constructor <;> linarith

/-! ### Rounding a number to a format -/

section

variable {spec : Format} {M M' : ℕ} {E E' : ℤ} {acc acc' : Accuracy} {y : ℚ}

/-- The mantissa, exponent and accuracy write down `y`, with no fewer bits than the format
keeps. -/
structure Writes (spec : Format) (M : ℕ) (E : ℤ) (acc : Accuracy) (y : ℚ) : Prop where
  value : ∃ v, StandsFor (ExtendedMantissa.ofMantissaAndAccuracy M acc) v ∧ y = v * 2 ^ E
  fine : E ≤ spec.targetExponent (totalExponent M E)
  leads : 0 < M ∨ E = spec.minExponent

/-- `2 ^ t` is the unit the size of `y` calls for: the least unit of the format, or the one
that leaves as many bits as the mantissa has. -/
def UnitOf (spec : Format) (y : ℚ) (t : ℤ) : Prop :=
  spec.minExponent ≤ t ∧ y < 2 ^ (spec.mantissaBits + t) ∧
    (t = spec.minExponent ∨ 2 ^ (spec.mantissaBits - 1 + t) ≤ y)

theorem UnitOf.unique {t u : ℤ} (ht : UnitOf spec y t) (hu : UnitOf spec y u) : t = u := by
  have le : ∀ {a b : ℤ}, UnitOf spec y a → UnitOf spec y b → b ≤ a := by
    rintro a b ⟨minA, high, _⟩ ⟨_, _, rfl | low⟩
    · exact minA
    · have := (zpow_lt_zpow_iff_right₀ (by norm_num)).mp (lt_of_le_of_lt low high)
      omega
  exact le_antisymm (le hu ht) (le ht hu)

theorem mantissa_ofMantissaAndAccuracy (M : ℕ) (acc : Accuracy) :
    (ExtendedMantissa.ofMantissaAndAccuracy M acc).mantissa = M := by
  cases acc with
  | exact => rfl
  | inexact o => cases o <;> rfl

/-- The leading bit of the mantissa is the leading bit of the number. -/
theorem Writes.bounds (w : Writes spec M E acc y) (pos : 0 < M) :
    (2 : ℚ) ^ (totalExponent M E - 1) ≤ y ∧ y < 2 ^ totalExponent M E := by
  obtain ⟨v, ⟨f, f0, f1, hv, _, _⟩, rfl⟩ := w.value
  rw [mantissa_ofMantissaAndAccuracy] at hv
  have scale : (0 : ℚ) < 2 ^ E := by positivity
  have low : (2 : ℚ) ^ M.log2 ≤ v := by
    have : (2 ^ M.log2 : ℕ) ≤ M := Nat.log2_self_le pos.ne'
    have : ((2 ^ M.log2 : ℕ) : ℚ) ≤ M := by exact_mod_cast this
    push_cast at this
    linarith
  have high : v < (2 : ℚ) ^ (M.log2 + 1) := by
    have : M + 1 ≤ 2 ^ (M.log2 + 1) := Nat.lt_log2_self
    have : ((M + 1 : ℕ) : ℚ) ≤ ((2 ^ (M.log2 + 1) : ℕ) : ℚ) := by exact_mod_cast this
    push_cast at this
    linarith
  have lead : totalExponent M E - 1 = M.log2 + E := by unfold totalExponent; ring
  have lead' : totalExponent M E = ((M.log2 + 1 : ℕ) : ℤ) + E := by
    unfold totalExponent
    push_cast
    ring
  constructor
  · rw [lead, zpow_add₀ (by norm_num), zpow_natCast]
    exact mul_le_mul_of_nonneg_right low scale.le
  · rw [lead', zpow_add₀ (by norm_num), zpow_natCast]
    exact mul_lt_mul_of_pos_right high scale

theorem two_le_mantissaBits (spec : Format) : 2 ≤ spec.mantissaBits := by
  have := spec.hm
  unfold Format.mantissaBits
  omega

theorem Writes.unitOf (w : Writes spec M E acc y) :
    UnitOf spec y (spec.targetExponent (totalExponent M E)) := by
  have bits := two_le_mantissaBits spec
  rcases Nat.eq_zero_or_pos M with zero | pos
  · -- nothing is left above the least unit
    have least : E = spec.minExponent := w.leads.resolve_left (by omega)
    have target : spec.targetExponent (totalExponent M E) = spec.minExponent := by
      simp only [Format.targetExponent, totalExponent, zero, Nat.log2_zero]
      omega
    obtain ⟨v, ⟨f, f0, f1, hv, _, _⟩, hy⟩ := w.value
    rw [mantissa_ofMantissaAndAccuracy, zero] at hv
    refine ⟨target.ge, ?_, .inl target⟩
    have small : y < 2 ^ E := by
      have scale : (0 : ℚ) < 2 ^ E := by positivity
      rw [hy, hv]
      push_cast
      nlinarith
    apply lt_of_lt_of_le small
    apply zpow_le_zpow_right₀ (by norm_num)
    omega
  · obtain ⟨low, high⟩ := w.bounds pos
    simp only [UnitOf, Format.targetExponent]
    refine ⟨le_max_right _ _, lt_of_lt_of_le high ?_, ?_⟩
    · apply zpow_le_zpow_right₀ (by norm_num)
      omega
    · by_cases least : totalExponent M E - spec.mantissaBits ≤ spec.minExponent
      · exact .inl (max_eq_right least)
      · right
        rw [max_eq_left (by omega)]
        convert low using 2
        ring

/-- What is left after the mantissa is rounded: shift once more if it carried. -/
def settle (spec : Format) (s : Sign) (r : ℕ) (t : ℤ) : UnpackedFloat :=
  let shifted := shiftToTargetExponent spec r t .exact
  if h : shifted.1.mantissa = 0 then .zero s
  else .finite s shifted.1.mantissa shifted.2 (Nat.pos_of_ne_zero h)

/-- Shifted to the exponent its size calls for, the mantissa counts units of that size. -/
theorem Writes.shifted (w : Writes spec M E acc y) {t : ℤ}
    (ht : t = spec.targetExponent (totalExponent M E)) :
    StandsFor (ExtendedMantissa.ofMantissaAndAccuracy M acc >>> (t - E).toNat) (y / 2 ^ t) := by
  obtain ⟨v, stands, hv⟩ := w.value
  have fine : E ≤ t := ht ▸ w.fine
  have value : v / 2 ^ (t - E).toNat = y / 2 ^ t := by
    have two : (2 : ℚ) ≠ 0 := by norm_num
    have split : t = ((t - E).toNat : ℤ) + E := by omega
    rw [hv, ← zpow_natCast]
    nth_rewrite 2 [split]
    rw [zpow_add₀ two, div_mul_eq_div_div_swap, mul_div_assoc, div_self (zpow_ne_zero E two),
      mul_one]
  exact value ▸ standsFor_shiftRight stands (t - E).toNat

/-- Rounding finds the nearest multiple of the unit the number's size calls for. -/
theorem roundWithAccuracy_eq (w : Writes spec M E acc y) {t : ℤ}
    (ht : t = spec.targetExponent (totalExponent M E)) (s : Sign) {r : ℕ}
    (hr : Nearest (y / 2 ^ t) r) : roundWithAccuracy spec s M E acc = settle spec s r t := by
  have fine : E ≤ t := ht ▸ w.fine
  have exponent : E + ((t - E).toNat : ℤ) = t := by omega
  have rounded := (nearest_roundedMantissa (w.shifted ht)).unique hr
  have first : shiftToTargetExponent spec M E acc =
      (ExtendedMantissa.ofMantissaAndAccuracy M acc >>> (t - E).toNat, t) := by
    simp only [shiftToTargetExponent, shiftToExponent, ← ht, exponent]
  simp only [roundWithAccuracy, settle]
  rw [first, rounded]

/-- Two ways to write one number round alike. -/
theorem roundWithAccuracy_congr (w : Writes spec M E acc y) (w' : Writes spec M' E' acc' y)
    (s : Sign) : roundWithAccuracy spec s M E acc = roundWithAccuracy spec s M' E' acc' := by
  have near := nearest_roundedMantissa (w.shifted rfl)
  rw [roundWithAccuracy_eq w rfl s near]
  exact (roundWithAccuracy_eq w' (w.unitOf.unique w'.unitOf) s near).symm

/-! ### Numbers next to a float round to it -/

/-- A mantissa within the format's bits, at the exponent its size calls for. -/
structure Canonical (spec : Format) (m : ℕ) (e : ℤ) : Prop where
  pos : 0 < m
  fits : m < 2 ^ spec.mantissaBits
  least : spec.minExponent ≤ e
  normal : 2 ^ (spec.mantissaBits - 1) ≤ m ∨ e = spec.minExponent

theorem settle_of_fits {m : ℕ} {e : ℤ} (hm : 0 < m) (fits : m < 2 ^ spec.mantissaBits)
    (least : spec.minExponent ≤ e) (s : Sign) : settle spec s m e = .finite s m e hm := by
  have log : m.log2 < spec.mantissaBits := (Nat.log2_lt hm.ne').mpr fits
  have stay : (spec.targetExponent (totalExponent m e) - e).toNat = 0 := by
    simp only [Format.targetExponent, totalExponent]
    omega
  have shifted : shiftToTargetExponent spec m e .exact = (⟨m, false, false⟩, e) := by
    simp only [shiftToTargetExponent, shiftToExponent, stay]
    simp [HShiftRight.hShiftRight, Nat.repeat, ExtendedMantissa.ofMantissaAndAccuracy]
  simp only [settle, shifted, hm.ne', dite_false]

theorem settle_of_carry {e : ℤ} (least : spec.minExponent ≤ e) (s : Sign) :
    settle spec s (2 ^ spec.mantissaBits) e =
      .finite s (2 ^ (spec.mantissaBits - 1)) (e + 1) (by positivity) := by
  have bits : spec.mantissaBits = spec.mantissaBits - 1 + 1 := by
    unfold Format.mantissaBits
    omega
  have one : (spec.targetExponent (totalExponent (2 ^ spec.mantissaBits) e) - e).toNat = 1 := by
    simp only [Format.targetExponent, totalExponent, Nat.log2_two_pow]
    omega
  have half : 2 ^ spec.mantissaBits / 2 = 2 ^ (spec.mantissaBits - 1) := by
    nth_rewrite 1 [bits]
    rw [pow_succ, Nat.mul_div_cancel _ (by norm_num)]
  have shifted : (shiftToTargetExponent spec (2 ^ spec.mantissaBits) e .exact).1.mantissa =
      2 ^ (spec.mantissaBits - 1) ∧
      (shiftToTargetExponent spec (2 ^ spec.mantissaBits) e .exact).2 = e + 1 := by
    simp only [shiftToTargetExponent, shiftToExponent, one]
    simp [HShiftRight.hShiftRight, Nat.repeat, ExtendedMantissa.ofMantissaAndAccuracy,
      ExtendedMantissa.shiftRightOne, half]
  have pos : 2 ^ (spec.mantissaBits - 1) ≠ 0 := by positivity
  simp only [settle, shifted.1, shifted.2, pos, dite_false]

theorem settle_zero (s : Sign) (t : ℤ) : settle spec s 0 t = .zero s := by
  have shifted : (shiftToTargetExponent spec 0 t .exact).1.mantissa = 0 := by
    obtain ⟨f, f0, -, value, -, -⟩ := standsFor_shiftRight (standsFor_exact 0)
      (spec.targetExponent (totalExponent 0 t) - t).toNat
    rw [Nat.cast_zero, zero_div] at value
    have low : ((shiftToTargetExponent spec 0 t .exact).1.mantissa : ℚ) ≤ 0 := by
      simp only [shiftToTargetExponent, shiftToExponent]
      linarith
    exact_mod_cast le_antisymm low (by positivity)
  simp only [settle, shifted, dite_true]

/-- A number less than half a unit from a float rounds to it; below a power of two the units
are half as wide, and the number has to be twice as near. -/
theorem roundWithAccuracy_of_close (w : Writes spec M E acc y) {m : ℕ} {e : ℤ}
    (c : Canonical spec m e) (close : |y - m * 2 ^ e| < 2 ^ e / 2)
    (edge : m = 2 ^ (spec.mantissaBits - 1) → |y - m * 2 ^ e| < 2 ^ e / 4) (s : Sign) :
    roundWithAccuracy spec s M E acc = .finite s m e c.pos := by
  have unit : (0 : ℚ) < 2 ^ e := by positivity
  have two : (2 : ℚ) ≠ 0 := by norm_num
  have bits := two_le_mantissaBits spec
  have near : Nearest (y / 2 ^ e) m := by
    left
    have : y / 2 ^ e - m = (y - m * 2 ^ e) / 2 ^ e := by field_simp
    rw [this, abs_div, abs_of_pos unit, div_lt_iff₀ unit]
    linarith
  have atE : UnitOf spec y e → roundWithAccuracy spec s M E acc = .finite s m e c.pos := by
    intro hu
    rw [roundWithAccuracy_eq w (hu.unique w.unitOf) s near, settle_of_fits c.pos c.fits c.least]
  rw [abs_lt] at close
  have fits : (m : ℚ) + 1 ≤ 2 ^ (spec.mantissaBits : ℤ) := by
    have := c.fits
    rw [zpow_natCast]
    exact_mod_cast this
  have above : y < 2 ^ ((spec.mantissaBits : ℤ) + e) := by
    rw [zpow_add₀ two]
    nlinarith
  by_cases least : e = spec.minExponent
  · exact atE ⟨c.least, above, .inl least⟩
  have normal : 2 ^ (spec.mantissaBits - 1) ≤ m := c.normal.resolve_right least
  have minLt : spec.minExponent < e := lt_of_le_of_ne c.least (Ne.symm least)
  have power : ((spec.mantissaBits - 1 : ℕ) : ℤ) = spec.mantissaBits - 1 := by omega
  by_cases up : (2 : ℚ) ^ ((spec.mantissaBits : ℤ) - 1 + e) ≤ y
  · exact atE ⟨c.least, above, .inr up⟩
  -- only a power of two has a number this near below it that takes one bit less
  have isEdge : m = 2 ^ (spec.mantissaBits - 1) := by
    by_contra ne
    have more : (2 : ℚ) ^ (spec.mantissaBits - 1 : ℕ) + 1 ≤ m := by
      exact_mod_cast Nat.lt_of_le_of_ne normal (Ne.symm ne)
    rw [zpow_add₀ two, ← power, zpow_natCast] at up
    nlinarith
  have nearer := edge isEdge
  have mq : (m : ℚ) = 2 ^ (spec.mantissaBits - 1 : ℕ) := by
    rw [isEdge]
    push_cast
    rfl
  have lower : (2 : ℚ) ^ ((spec.mantissaBits : ℤ) - 1 + (e - 1)) ≤ y := by
    have small : (2 : ℚ) ^ ((spec.mantissaBits : ℤ) - 1 + (e - 1)) = m / 2 * 2 ^ e := by
      rw [mq, ← power, zpow_add₀ two, zpow_natCast, zpow_sub_one₀ two]
      ring
    have big : (2 : ℚ) ≤ m := by
      rw [mq]
      calc (2 : ℚ) = 2 ^ 1 := by norm_num
        _ ≤ 2 ^ (spec.mantissaBits - 1) := pow_le_pow_right₀ (by norm_num) (by omega)
    have := abs_lt.mp nearer
    rw [small]
    nlinarith
  have unitBelow : UnitOf spec y (e - 1) := by
    refine ⟨by omega, ?_, .inr lower⟩
    have shift : (spec.mantissaBits : ℤ) + (e - 1) = spec.mantissaBits - 1 + e := by ring
    rw [shift]
    exact not_le.mp up
  have carry : Nearest (y / 2 ^ (e - 1)) (2 ^ spec.mantissaBits) := by
    left
    have double : ((2 ^ spec.mantissaBits : ℕ) : ℚ) = 2 * m := by
      rw [mq]
      push_cast
      rw [← pow_succ']
      congr 1
      omega
    have : y / 2 ^ (e - 1) - 2 * m = 2 * ((y - m * 2 ^ e) / 2 ^ e) := by
      rw [zpow_sub_one₀ two]
      field_simp
    rw [double, this, abs_mul, abs_div, abs_of_pos unit, abs_of_pos (by norm_num : (0 : ℚ) < 2)]
    have := (div_lt_iff₀ unit).mpr (show |y - m * 2 ^ e| < 1 / 4 * 2 ^ e by linarith)
    linarith
  rw [roundWithAccuracy_eq w (unitBelow.unique w.unitOf) s carry, settle_of_carry (by omega)]
  congr 1
  · exact isEdge.symm
  · ring

end

/-! ### Decimal numbers -/

theorem minExponent_nonpos (spec : Format) : spec.minExponent ≤ 0 := by
  have bits := two_le_mantissaBits spec
  have : (1 : ℤ) ≤ 2 ^ (spec.exponentBits - 1) := by
    exact_mod_cast Nat.one_le_pow _ 2 (by norm_num)
  unfold Format.minExponent
  omega

/-- A quotient has at least the bits its operands differ by. -/
theorem pow_le_div_of_log2 {m n k b : ℕ} (hm : 0 < m) (hn : 0 < n)
    (h : n.log2 + 1 + b ≤ m.log2 + k) : 2 ^ b ≤ (m <<< k) / n := by
  rw [Nat.le_div_iff_mul_le hn, Nat.shiftLeft_eq]
  calc 2 ^ b * n ≤ 2 ^ b * 2 ^ (n.log2 + 1) := Nat.mul_le_mul_left _ Nat.lt_log2_self.le
    _ = 2 ^ (n.log2 + 1 + b) := by rw [← pow_add, Nat.add_comm]
    _ ≤ 2 ^ (m.log2 + k) := Nat.pow_le_pow_right (by norm_num) h
    _ = 2 ^ m.log2 * 2 ^ k := pow_add _ _ _
    _ ≤ m * 2 ^ k := Nat.mul_le_mul_right _ (Nat.log2_self_le hm.ne')

/-- A decimal number within the range the reader looks at is written down and rounded. -/
theorem ofScientific_writes (spec : Format) {m : ℕ} (hm : 0 < m) {e : ℤ}
    (high : e ≤ 2 ^ spec.exponentBits) (low : -(2 ^ spec.exponentBits) ≤ e) :
    ∃ M E acc, Writes spec M E acc ((m : ℚ) * 10 ^ e) ∧
      UnpackedFloat.ofScientific spec m e = roundWithAccuracy spec .positive M E acc := by
  have bits := two_le_mantissaBits spec
  have two : (2 : ℚ) ≠ 0 := by norm_num
  unfold UnpackedFloat.ofScientific
  rw [dif_neg hm.ne', if_neg (by omega), if_neg (by omega)]
  split
  next nonneg =>
    refine ⟨(m <<< spec.mantissaBits) * 10 ^ e.toNat, -spec.mantissaBits + 0, .exact, ?_, ?_⟩
    · refine ⟨⟨_, standsFor_exact _, ?_⟩, ?_, ?_⟩
      · rw [Nat.shiftLeft_eq]
        push_cast
        rw [add_zero, zpow_neg, zpow_natCast]
        have : (10 : ℚ) ^ e = 10 ^ e.toNat := by
          rw [← zpow_natCast, Int.toNat_of_nonneg nonneg]
        rw [this]
        field_simp
      · have big : 2 ^ spec.mantissaBits ≤ (m <<< spec.mantissaBits) * 10 ^ e.toNat := by
          rw [Nat.shiftLeft_eq]
          calc 2 ^ spec.mantissaBits = 1 * 2 ^ spec.mantissaBits * 1 := by ring
            _ ≤ m * 2 ^ spec.mantissaBits * 10 ^ e.toNat := by
              apply Nat.mul_le_mul (Nat.mul_le_mul_right _ hm)
              exact Nat.one_le_pow _ _ (by norm_num)
        have nonzero : (m <<< spec.mantissaBits) * 10 ^ e.toNat ≠ 0 := by
          rw [Nat.shiftLeft_eq]
          positivity
        have := (Nat.le_log2 nonzero).mpr big
        simp only [Format.targetExponent, totalExponent]
        omega
      · left
        rw [Nat.shiftLeft_eq]
        positivity
    · rfl
  next neg =>
    -- the quotient is taken to as many bits as the mantissa has, or down to the least unit
    have ten : 0 < 10 ^ (-e).toNat := by positivity
    have target : spec.targetExponent (totalExponent m 0 - totalExponent (10 ^ (-e).toNat) 0) =
        max ((m.log2 : ℤ) - (10 ^ (-e).toNat).log2 - spec.mantissaBits) spec.minExponent := by
      simp only [Format.targetExponent, totalExponent]
      congr 1
      ring
    generalize hE : min (0 - 0) (spec.targetExponent
      (totalExponent m 0 - totalExponent (10 ^ (-e).toNat) 0)) = E
    have hE' : E = min 0 (max ((m.log2 : ℤ) - (10 ^ (-e).toNat).log2 - spec.mantissaBits)
        spec.minExponent) := by
      rw [← hE, target]
      rfl
    generalize hk : (0 - 0 - E).toNat = k
    have hEk : E = -(k : ℤ) := by omega
    refine ⟨(m <<< k) / 10 ^ (-e).toNat, E, accuracyOfFraction ((m <<< k) % 10 ^ (-e).toNat)
      (10 ^ (-e).toNat), ⟨⟨_, standsFor_fraction _ _ ten, ?_⟩, ?_, ?_⟩, ?_⟩
    · have : (10 : ℚ) ^ e = (10 ^ (-e).toNat)⁻¹ := by
        rw [← zpow_natCast, ← zpow_neg]
        congr 1
        omega
      rw [this, Nat.shiftLeft_eq, hEk, zpow_neg, zpow_natCast]
      push_cast
      field_simp
    · by_cases least : E ≤ spec.minExponent
      · exact le_trans least (le_max_right _ _)
      · have big := pow_le_div_of_log2 (b := m.log2 + k - (10 ^ (-e).toNat).log2 - 1) (k := k) hm
          ten (by omega)
        have nonzero := (lt_of_lt_of_le (by positivity) big).ne'
        have := (Nat.le_log2 nonzero).mpr big
        simp only [Format.targetExponent, totalExponent]
        omega
    · have nonpos := minExponent_nonpos spec
      by_cases least : E ≤ spec.minExponent
      · right
        omega
      · left
        have big := pow_le_div_of_log2 (b := 0) (k := k) hm ten (by omega)
        omega
    · simp only [UnpackedFloat.div, divCore, hE, hk]
      rfl

/-- A decimal number reads as one float, wherever its point is written. -/
theorem ofScientific_congr (spec : Format) {m m' : ℕ} (hm : 0 < m) (hm' : 0 < m') {e e' : ℤ}
    (range : e ≤ 2 ^ spec.exponentBits ∧ -(2 ^ spec.exponentBits) ≤ e)
    (range' : e' ≤ 2 ^ spec.exponentBits ∧ -(2 ^ spec.exponentBits) ≤ e')
    (same : (m : ℚ) * 10 ^ e = m' * 10 ^ e') :
    UnpackedFloat.ofScientific spec m e = UnpackedFloat.ofScientific spec m' e' := by
  obtain ⟨M, E, acc, w, eq⟩ := ofScientific_writes spec hm range.1 range.2
  obtain ⟨M', E', acc', w', eq'⟩ := ofScientific_writes spec hm' range'.1 range'.2
  rw [eq, eq']
  exact roundWithAccuracy_congr (same ▸ w) w' .positive

/-! ### Whole numbers -/

theorem log2_shiftLeft {m : ℕ} (hm : 0 < m) (k : ℕ) : (m <<< k).log2 = m.log2 + k := by
  have nonzero : m <<< k ≠ 0 := by
    rw [Nat.shiftLeft_eq]
    positivity
  rw [Nat.log2_eq_iff nonzero, Nat.shiftLeft_eq]
  have low := Nat.log2_self_le hm.ne'
  have high := Nat.lt_log2_self (n := m)
  constructor
  · calc 2 ^ (m.log2 + k) = 2 ^ m.log2 * 2 ^ k := pow_add _ _ _
      _ ≤ m * 2 ^ k := Nat.mul_le_mul_right _ low
  · calc m * 2 ^ k < 2 ^ (m.log2 + 1) * 2 ^ k :=
        Nat.mul_lt_mul_of_pos_right high (by positivity)
      _ = 2 ^ (m.log2 + k + 1) := by rw [← pow_add]; congr 1; ring

/-- `round` brings a mantissa up to the bits the format keeps before it rounds. -/
theorem round_writes (spec : Format) {m : ℕ} (hm : 0 < m) (e : ℤ) :
    ∃ M E, Writes spec M E .exact ((m : ℚ) * 2 ^ e) ∧
      ∀ s, UnpackedFloat.round spec s m e = roundWithAccuracy spec s M E .exact := by
  generalize hk : (e - spec.targetExponent (totalExponent m e)).toNat = k
  have total : totalExponent (m <<< k) (e - k) = totalExponent m e := by
    simp only [totalExponent, log2_shiftLeft hm]
    push_cast
    ring
  refine ⟨m <<< k, e - k, ⟨⟨_, standsFor_exact _, ?_⟩, ?_, ?_⟩, ?_⟩
  · rw [Nat.shiftLeft_eq, zpow_sub₀ (by norm_num), zpow_natCast]
    push_cast
    field_simp
  · rw [total]
    omega
  · left
    rw [Nat.shiftLeft_eq]
    positivity
  · intro s
    simp only [UnpackedFloat.round, decreaseExponent, hk]

/-- The digits of a whole number read as the float the number converts to. -/
theorem ofScientific_zero (spec : Format) {m : ℕ} (hm : 0 < m) :
    UnpackedFloat.ofScientific spec m 0 = UnpackedFloat.round spec .positive m 0 := by
  obtain ⟨M, E, acc, w, eq⟩ := ofScientific_writes spec hm (e := 0) (by positivity)
    (by have : (0 : ℤ) < 2 ^ spec.exponentBits := by positivity
        omega)
  obtain ⟨M', E', w', eq'⟩ := round_writes spec hm 0
  rw [eq, eq']
  refine roundWithAccuracy_congr w ?_ .positive
  simpa using w'

theorem roundWithAccuracy_neg (spec : Format) (M : ℕ) (E : ℤ) (acc : Accuracy) :
    (roundWithAccuracy spec .positive M E acc).neg = roundWithAccuracy spec .negative M E acc := by
  simp only [roundWithAccuracy]
  split
  · rfl
  · rfl

/-- What a rounded number looks like: nothing, or a mantissa of the format. -/
theorem roundWithAccuracy_canonical {spec : Format} {M : ℕ} {E : ℤ} {acc : Accuracy} {y : ℚ}
    (w : Writes spec M E acc y) (s : Sign) :
    roundWithAccuracy spec s M E acc = .zero s ∨
      ∃ m e hm, roundWithAccuracy spec s M E acc = .finite s m e hm ∧ Canonical spec m e ∧
        (e = spec.minExponent ∨ (2 : ℚ) ^ (spec.mantissaBits - 2 + e) ≤ y) := by
  have two : (2 : ℚ) ≠ 0 := by norm_num
  have bits := two_le_mantissaBits spec
  generalize ht : spec.targetExponent (totalExponent M E) = t
  have near := nearest_roundedMantissa (w.shifted ht.symm)
  obtain ⟨least, high, low⟩ := ht ▸ w.unitOf
  generalize (ExtendedMantissa.ofMantissaAndAccuracy M acc >>> (t - E).toNat).roundedMantissa = r
    at near
  rw [roundWithAccuracy_eq w ht.symm s near]
  have unit : (0 : ℚ) < 2 ^ t := by positivity
  have power : ((spec.mantissaBits - 1 : ℕ) : ℤ) = spec.mantissaBits - 1 := by omega
  have below : y / 2 ^ t < ((2 ^ spec.mantissaBits : ℕ) : ℚ) := by
    rw [div_lt_iff₀ unit]
    push_cast
    rw [← zpow_natCast, ← zpow_add₀ two]
    exact high
  have above : 2 ^ (spec.mantissaBits - 1 + t) ≤ y →
      ((2 ^ (spec.mantissaBits - 1) : ℕ) : ℚ) ≤ y / 2 ^ t := by
    intro h
    rw [le_div_iff₀ unit]
    push_cast
    rw [← zpow_natCast, power, ← zpow_add₀ two]
    exact h
  rcases Nat.eq_zero_or_pos r with zero | pos
  · left
    subst zero
    exact settle_zero s t
  · right
    have upper := near.le_of_lt below
    rcases Nat.lt_or_eq_of_le upper with fits | carry
    · refine ⟨r, t, pos, settle_of_fits pos fits least s, ⟨pos, fits, least, ?_⟩, ?_⟩
      · rcases low with h | h
        · exact .inr h
        · exact .inl (near.le_of_le (above h))
      · rcases low with h | h
        · exact .inl h
        · right
          refine le_trans (zpow_le_zpow_right₀ (by norm_num) (by omega)) h
    · subst carry
      refine ⟨2 ^ (spec.mantissaBits - 1), t + 1, by positivity, settle_of_carry least s,
        ⟨by positivity, Nat.pow_lt_pow_right (by norm_num) (by omega), by omega, .inl le_rfl⟩, ?_⟩
      right
      have := abs_le.mp near.dist_le
      push_cast at this
      have half : (2 : ℚ) ^ spec.mantissaBits = 2 * 2 ^ (spec.mantissaBits - 1) := by
        rw [← pow_succ']
        congr 1
        omega
      have one : (1 : ℚ) ≤ 2 ^ (spec.mantissaBits - 1) := one_le_pow₀ (by norm_num)
      have reach : (2 : ℚ) ^ (spec.mantissaBits - 1) ≤ y / 2 ^ t := by linarith
      rw [le_div_iff₀ unit] at reach
      calc (2 : ℚ) ^ ((spec.mantissaBits : ℤ) - 2 + (t + 1))
          = 2 ^ (spec.mantissaBits - 1) * 2 ^ t := by
            rw [← zpow_natCast, power, ← zpow_add₀ two]
            congr 1
            ring
        _ ≤ y := reach

end Rounding
