import Hecks.Lib.IntegerOrder

/-! The numbers that floats stand for. A sum of two floats whose exact sum is a float is that sum:
nothing is rounded away. -/
open Float.Model Float.Model.UnpackedFloat

namespace Binary64

open Rounding Packing Decimal

/-- The number a float stands for, where it stands for one. -/
def valueOf : UnpackedFloat → Option ℚ
  | .zero _ => some 0
  | .finite s m e _ => some ((s.apply m : ℤ) * 2 ^ e)
  | _ => none

def IsExactly (n : Float.Model) (v : ℚ) : Prop := valueOf n.unpack = some v

/-- The integers among the floats: 53 bits, and at most 971 zeros after them. -/
def IsFloat (z : ℤ) : Prop := ∃ m j : ℕ, m < 2 ^ 53 ∧ j ≤ 971 ∧ z.natAbs = m * 2 ^ j

section

variable {n : Float.Model} {v : ℚ} {z E : ℤ}

theorem IsExactly.unique {w : ℚ} (h : IsExactly n v) (h' : IsExactly n w) : v = w :=
  Option.some.inj (h.symm.trans h')

/-- A float that stands for a number is a zero, or has a sign, a mantissa and an exponent. -/
theorem IsExactly.cases (h : IsExactly n v) :
    ((∃ s, n.unpack = .zero s) ∧ v = 0) ∨
      ∃ s m e hm, n.unpack = .finite s m e hm ∧ v = (s.apply m : ℤ) * 2 ^ e ∧
        Canonical Format.binary64 m e ∧ e ≤ 971 := by
  have fits := fits_unpack n
  unfold IsExactly at h
  cases eq : n.unpack with
  | notANumber =>
    rw [eq] at h
    cases h
  | infinity s =>
    rw [eq] at h
    cases h
  | zero s =>
    rw [eq] at h
    exact .inl ⟨⟨s, rfl⟩, (Option.some.inj h).symm⟩
  | finite s m e hm =>
    rw [eq] at h fits
    exact .inr ⟨s, m, e, hm, rfl, (Option.some.inj h).symm, fits⟩

theorem isExactly_pack {u : UnpackedFloat} (fits : Fits u) (value : valueOf u = some v) :
    IsExactly (Float.Model.pack u) v := by
  have same : (Float.Model.pack u).unpack = u := unpack_pack fits
  rw [IsExactly, same, value]

/-- A number that is a float already is rounded to that float. -/
theorem round_of_canonical {M m : ℕ} {e : ℤ} (c : Canonical Format.binary64 m e) (pos : 0 < M)
    (same : (M : ℚ) * 2 ^ E = m * 2 ^ e) (s : Sign) :
    UnpackedFloat.round Format.binary64 s M E = .finite s m e c.pos := by
  obtain ⟨M', E', w, rounds⟩ := round_writes Format.binary64 pos E
  have unit : (0 : ℚ) < 2 ^ e := by positivity
  have none : |(M : ℚ) * 2 ^ E - m * 2 ^ e| = 0 := by rw [same, sub_self, abs_zero]
  rw [rounds]
  apply roundWithAccuracy_of_close w c
  · rw [none]
    positivity
  · intro _
    rw [none]
    positivity

/-- An integer at an exponent that is a float stands for itself when it is rounded. -/
theorem normalize_exact (h : IsExactly n ((z : ℚ) * 2 ^ E)) (s : Sign) :
    Fits (UnpackedFloat.normalize Format.binary64 z E s) ∧
      valueOf (UnpackedFloat.normalize Format.binary64 z E s) = some ((z : ℚ) * 2 ^ E) := by
  have unit : (0 : ℚ) < 2 ^ E := by positivity
  obtain ⟨-, zero⟩ | ⟨sign, m, e, hm, -, value, c, top⟩ := h.cases
  · have none : z = 0 := by
      have := (mul_eq_zero.mp zero).resolve_right unit.ne'
      exact_mod_cast this
    subst none
    rw [zero]
    exact ⟨trivial, rfl⟩
  · have unit' : (0 : ℚ) < 2 ^ e := by positivity
    have size : (0 : ℚ) < m * 2 ^ e := by positivity
    cases sign with
    | positive =>
      have value : (z : ℚ) * 2 ^ E = m * 2 ^ e := value
      have pos : 0 < z := by
        have : (0 : ℚ) < z := pos_of_mul_pos_left (value ▸ size) unit.le
        exact_mod_cast this
      have cast : ((z.toNat : ℕ) : ℚ) = z := by exact_mod_cast Int.toNat_of_nonneg pos.le
      have rounds := round_of_canonical c (M := z.toNat) (E := E) (by omega)
        (by rw [cast, value]) .positive
      simp only [UnpackedFloat.normalize, compare_gt_iff_gt.mpr pos, rounds]
      exact ⟨⟨c, top⟩, by rw [valueOf, value]; rfl⟩
    | negative =>
      have value : (z : ℚ) * 2 ^ E = -(m * 2 ^ e) := by
        rw [value, Sign.apply]
        push_cast
        ring
      have neg : z < 0 := by
        have : (z : ℚ) < 0 := by
          by_contra h
          have : (0 : ℚ) ≤ z * 2 ^ E := mul_nonneg (not_lt.mp h) unit.le
          linarith
        exact_mod_cast this
      have cast : (((-z).toNat : ℕ) : ℚ) = -z := by
        exact_mod_cast Int.toNat_of_nonneg (show 0 ≤ -z by omega)
      have rounds := round_of_canonical c (M := (-z).toNat) (E := E) (by omega)
        (by rw [cast]; linarith) .negative
      simp only [UnpackedFloat.normalize, compare_lt_iff_lt.mpr neg, rounds]
      refine ⟨⟨c, top⟩, ?_⟩
      rw [valueOf, value, Sign.apply]
      push_cast
      congr 1
      ring

/-! ### The integers -/

theorem canonical_of_bits {m j : ℕ} (pos : 0 < m) (fits : m < 2 ^ 53) (high : j ≤ 971) :
    ∃ (k : ℕ) (e : ℤ), Canonical Format.binary64 (m * 2 ^ k) e ∧ e ≤ 971 ∧
      ((m * 2 ^ k : ℕ) : ℚ) * 2 ^ e = m * 2 ^ j := by
  have log : m.log2 ≤ 52 := by
    have := (Nat.log2_lt pos.ne').mpr fits
    omega
  have total : m.log2 + (52 - m.log2) = 52 := by omega
  refine ⟨52 - m.log2, j - (52 - m.log2 : ℕ), ⟨by positivity, ?_, ?_, .inl ?_⟩, by omega, ?_⟩
  · rw [mantissaBits_eq]
    calc m * 2 ^ (52 - m.log2) < 2 ^ (m.log2 + 1) * 2 ^ (52 - m.log2) :=
          Nat.mul_lt_mul_of_pos_right Nat.lt_log2_self (by positivity)
      _ = 2 ^ 53 := by
        rw [← pow_add]
        congr 1
        omega
  · rw [minExponent_eq]
    omega
  · rw [mantissaBits_eq]
    calc 2 ^ (53 - 1) = 2 ^ m.log2 * 2 ^ (52 - m.log2) := by rw [← pow_add, total]
      _ ≤ m * 2 ^ (52 - m.log2) := Nat.mul_le_mul_right _ (Nat.log2_self_le pos.ne')
  · rw [zpow_sub₀ (by norm_num), zpow_natCast, zpow_natCast]
    push_cast
    field_simp

theorem exists_exactly (h : IsFloat z) : ∃ n, IsExactly n z := by
  obtain ⟨m, j, fits, high, size⟩ := h
  obtain rfl | pos := Nat.eq_zero_or_pos m
  · have none : z = 0 := by omega
    subst none
    exact ⟨Float.Model.pack (.zero .positive), isExactly_pack trivial rfl⟩
  · obtain ⟨k, e, c, top, value⟩ := canonical_of_bits pos fits high
    have signed : ∃ s : Sign, z = s.apply (m * 2 ^ j : ℕ) := by
      obtain nonneg | neg := le_or_gt 0 z
      · exact ⟨.positive, by rw [Sign.apply]; omega⟩
      · exact ⟨.negative, by rw [Sign.apply]; omega⟩
    obtain ⟨s, rfl⟩ := signed
    refine ⟨Float.Model.pack (.finite s (m * 2 ^ k) e c.pos), isExactly_pack ⟨c, top⟩ ?_⟩
    rw [valueOf]
    congr 1
    cases s with
    | positive =>
      simp only [Sign.apply]
      exact_mod_cast value
    | negative =>
      simp only [Sign.apply]
      have negated := congrArg Neg.neg value
      push_cast at negated ⊢
      rw [← negated]
      ring

theorem isFloat_of_exactly (h : IsExactly n z) : IsFloat z := by
  obtain ⟨-, zero⟩ | ⟨s, m, e, hm, -, value, c, top⟩ := h.cases
  · have none : z = 0 := by exact_mod_cast zero
    exact ⟨0, 0, by norm_num, by norm_num, by omega⟩
  · have fits := c.fits
    rw [mantissaBits_eq] at fits
    have size : ((z.natAbs : ℕ) : ℚ) = m * 2 ^ e := by
      have nonneg : (0 : ℚ) ≤ m * 2 ^ e := by positivity
      have cast : ((z.natAbs : ℕ) : ℚ) = |(z : ℚ)| := by rw [Nat.cast_natAbs, Int.cast_abs]
      rw [cast, value]
      cases s with
      | positive => exact abs_of_nonneg nonneg
      | negative =>
        simp only [Sign.apply]
        push_cast
        rw [neg_mul, abs_neg]
        exact abs_of_nonneg nonneg
    obtain nonneg | neg := le_or_gt 0 e
    · refine ⟨m, e.toNat, fits, by omega, ?_⟩
      have power : (2 : ℚ) ^ e = ((2 ^ e.toNat : ℕ) : ℚ) := by
        push_cast
        rw [← zpow_natCast, Int.toNat_of_nonneg nonneg]
      rw [power] at size
      exact_mod_cast size
    · -- what lies after the point is nothing
      refine ⟨z.natAbs, 0, ?_, by norm_num, by omega⟩
      have small : (2 : ℚ) ^ e ≤ 1 := zpow_le_one_of_nonpos₀ (by norm_num) neg.le
      have : ((z.natAbs : ℕ) : ℚ) ≤ m := by
        rw [size]
        exact mul_le_of_le_one_right (by positivity) small
      have : z.natAbs ≤ m := by exact_mod_cast this
      omega

theorem isFloat_of_le (small : z.natAbs ≤ 2 ^ 53) : IsFloat z := by
  obtain less | same := small.lt_or_eq
  · exact ⟨z.natAbs, 0, less, by norm_num, by omega⟩
  · exact ⟨1, 53, by norm_num, by norm_num, by omega⟩

/-- An integer that is a float converts to itself. -/
theorem ofInt64_exact {i : Int64} (h : IsFloat i.toInt) :
    IsExactly (Float.Model.ofInt64 i) i.toInt := by
  obtain ⟨n, h⟩ := exists_exactly h
  have whole : ((i.toInt : ℤ) : ℚ) * 2 ^ (0 : ℤ) = i.toInt := by rw [zpow_zero, mul_one]
  have exact' := (normalize_exact (whole ▸ h) .positive).2
  rw [whole] at exact'
  rw [IsExactly, unpack_ofInt64]
  exact exact'

/-! ### Sums -/

theorem decreaseExponent_value (m : ℕ) (e t : ℤ) (le : t ≤ e) :
    (((decreaseExponent m e t).1 : ℕ) : ℚ) * 2 ^ t = m * 2 ^ e := by
  have split : e = ((e - t).toNat : ℤ) + t := by omega
  simp only [decreaseExponent]
  rw [Nat.shiftLeft_eq]
  push_cast
  nth_rewrite 2 [split]
  rw [zpow_add₀ (by norm_num), zpow_natCast]
  ring

theorem apply_value (s : Sign) {m k : ℕ} {e t : ℤ} (same : (m : ℚ) * 2 ^ e = k * 2 ^ t) :
    ((s.apply m : ℤ) : ℚ) * 2 ^ e = (s.apply k : ℤ) * 2 ^ t := by
  cases s with
  | positive => exact same
  | negative =>
    simp only [Sign.apply]
    push_cast
    linarith

/-- A sum that is a float is not rounded. -/
theorem add_exact {x y : Float.Model} {a b : ℚ} (hx : IsExactly x a) (hy : IsExactly y b)
    (h : IsExactly n (a + b)) : IsExactly (x + y) (a + b) := by
  show IsExactly (Float.Model.pack (UnpackedFloat.add Format.binary64 x.unpack y.unpack)) (a + b)
  obtain ⟨⟨s, zero⟩, rfl⟩ | ⟨s, m, e, hm, finite, value, c, top⟩ := hx.cases
  · obtain ⟨⟨s', zero'⟩, rfl⟩ | ⟨s', m', e', hm', finite', value', c', top'⟩ := hy.cases
    · rw [zero, zero', add_zero]
      refine isExactly_pack ?_ ?_ <;> cases s <;> cases s' <;> first | trivial | rfl
    · rw [zero, finite', zero_add, value']
      exact isExactly_pack ⟨c', top'⟩ rfl
  · obtain ⟨⟨s', zero'⟩, rfl⟩ | ⟨s', m', e', hm', finite', value', c', top'⟩ := hy.cases
    · rw [finite, zero', add_zero, value]
      exact isExactly_pack ⟨c, top⟩ rfl
    · rw [finite, finite']
      have first := apply_value s (decreaseExponent_value m e (min e e') (min_le_left _ _))
      have second := apply_value s' (decreaseExponent_value m' e' (min e e') (min_le_right _ _))
      have total : a + b = ((s.apply (decreaseExponent m e (min e e')).1 +
          s'.apply (decreaseExponent m' e' (min e e')).1 : ℤ) : ℚ) * 2 ^ min e e' := by
        rw [value, value', ← first, ← second]
        push_cast
        ring
      rw [total] at h ⊢
      obtain ⟨fits, exact'⟩ := normalize_exact h .positive
      exact isExactly_pack fits exact'

end

end Binary64
