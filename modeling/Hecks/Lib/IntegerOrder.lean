import Hecks.Lib.FloatOrder

/-! Integers among the floats: converting keeps the order of the integers, though two of them
may come to one float. -/
open Float.Model Float.Model.UnpackedFloat

/-! ### Units and counts in order -/
namespace Rounding

section

variable {spec : Format} {y y' : ℚ} {r r' : ℕ} {t t' : ℤ}

theorem UnitOf.le_mantissa (unit : UnitOf spec y t) (near : Nearest (y / 2 ^ t) r) :
    r ≤ 2 ^ spec.mantissaBits := by
  apply near.le_of_lt
  rw [div_lt_iff₀ (by positivity)]
  push_cast
  rw [← zpow_natCast, ← zpow_add₀ (by norm_num)]
  exact unit.2.1

theorem UnitOf.normal (unit : UnitOf spec y t) (near : Nearest (y / 2 ^ t) r)
    (above : spec.minExponent < t) : 2 ^ (spec.mantissaBits - 1) ≤ r := by
  have bits := two_le_mantissaBits spec
  have power : ((spec.mantissaBits - 1 : ℕ) : ℤ) = spec.mantissaBits - 1 := by omega
  apply near.le_of_le
  rw [le_div_iff₀ (by positivity)]
  push_cast
  rw [← zpow_natCast, power, ← zpow_add₀ (by norm_num)]
  exact unit.2.2.resolve_left (by omega)

theorem Nearest.mono {v v' : ℚ} (le : v ≤ v') (near : Nearest v r) (near' : Nearest v' r') :
    r ≤ r' := by
  rcases le.eq_or_lt with same | less
  · subst same
    exact (near.unique near').le
  · have low := abs_le.mp near.dist_le
    have high := abs_le.mp near'.dist_le
    by_contra above
    have apart : (r' : ℚ) + 1 ≤ r := by
      have : r' + 1 ≤ r := by omega
      exact_mod_cast this
    linarith

theorem UnitOf.mono (le : y ≤ y') (unit : UnitOf spec y t) (unit' : UnitOf spec y' t') :
    t ≤ t' := by
  obtain ⟨-, -, least | low⟩ := unit
  · rw [least]
    exact unit'.1
  · have less : (2 : ℚ) ^ (spec.mantissaBits - 1 + t) < 2 ^ (spec.mantissaBits + t') :=
      (low.trans le).trans_lt unit'.2.1
    have := (zpow_lt_zpow_iff_right₀ (by norm_num)).mp less
    omega

end

end Rounding

/-! ### Places in order -/
namespace Decimal

open Rounding Packing

section

variable {spec : Format} {y y' : ℚ} {r r' : ℕ} {t t' : ℤ}

/-- The place the rounded mantissa ends in: zero, its own, or the next power of two's. -/
theorem place_settle (least : spec.minExponent ≤ t) (bound : r ≤ 2 ^ spec.mantissaBits) :
    place (settle spec .positive r t) =
      if r = 0 then toLex (0, toLex (0, 0))
      else if r < 2 ^ spec.mantissaBits then toLex (1, toLex (t, (r : ℤ)))
      else toLex (1, toLex (t + 1, ((2 ^ (spec.mantissaBits - 1) : ℕ) : ℤ))) := by
  by_cases zero : r = 0
  · subst zero
    rw [if_pos rfl, settle_zero]
    rfl
  rw [if_neg zero]
  by_cases fits : r < 2 ^ spec.mantissaBits
  · rw [if_pos fits, settle_of_fits (Nat.pos_of_ne_zero zero) fits least]
    rfl
  · rw [if_neg fits]
    have carry : r = 2 ^ spec.mantissaBits := by omega
    subst carry
    rw [settle_of_carry least]
    rfl

theorem lex_le {a b c x y z : ℤ} (h : a < x ∨ a = x ∧ (b < y ∨ b = y ∧ c ≤ z)) :
    (toLex (a, toLex (b, c)) : ℤ ×ₗ ℤ ×ₗ ℤ) ≤ toLex (x, toLex (y, z)) := by
  rw [Prod.Lex.toLex_le_toLex, Prod.Lex.toLex_le_toLex]
  exact h

/-- A number no larger ends in a place no higher. -/
theorem place_settle_mono (le : y ≤ y') (unit : UnitOf spec y t) (unit' : UnitOf spec y' t')
    (near : Nearest (y / 2 ^ t) r) (near' : Nearest (y' / 2 ^ t') r') :
    place (settle spec .positive r t) ≤ place (settle spec .positive r' t') := by
  have bound := unit.le_mantissa near
  have bound' := unit'.le_mantissa near'
  have full : 2 ^ (spec.mantissaBits - 1) < 2 ^ spec.mantissaBits :=
    Nat.pow_lt_pow_right (by norm_num) (by have := two_le_mantissaBits spec; omega)
  have some : 0 < 2 ^ (spec.mantissaBits - 1) := by positivity
  rw [place_settle unit.1 bound, place_settle unit'.1 bound']
  generalize 2 ^ spec.mantissaBits = top at *
  generalize hhalf : 2 ^ (spec.mantissaBits - 1) = half at *
  rcases (unit.mono le unit').eq_or_lt with same | less
  · -- one unit: the counts of it are in order
    subst same
    have : r ≤ r' := near.mono (by gcongr) near'
    split_ifs <;> first | omega | (apply lex_le; omega)
  · -- the second number is counted in a larger unit, and fills it
    have : half ≤ r' := hhalf ▸ unit'.normal near' (unit.1.trans_lt less)
    split_ifs <;> first | omega | (apply lex_le; omega)

/-- Rounding keeps the order. -/
theorem place_round_mono {M M' : ℕ} {E E' : ℤ} {acc acc' : Accuracy}
    (w : Writes spec M E acc y) (w' : Writes spec M' E' acc' y') (le : y ≤ y') :
    place (roundWithAccuracy spec .positive M E acc) ≤
      place (roundWithAccuracy spec .positive M' E' acc') := by
  have near := nearest_roundedMantissa (w.shifted rfl)
  have near' := nearest_roundedMantissa (w'.shifted rfl)
  rw [roundWithAccuracy_eq w rfl _ near, roundWithAccuracy_eq w' rfl _ near']
  exact place_settle_mono le w.unitOf w'.unitOf near near'

/-- Below zero the order is turned round. -/
theorem place_neg {u : UnpackedFloat} (number : u ≠ .notANumber) : place u.neg = -place u := by
  cases u with
  | notANumber => exact absurd rfl number
  | infinity s => cases s <;> rfl
  | zero s => rfl
  | finite s m e hm =>
    cases s with
    | positive => rfl
    | negative =>
      show toLex (1, toLex (e, (m : ℤ))) = toLex (- -1, toLex (- -e, - -(m : ℤ)))
      rw [neg_neg, neg_neg, neg_neg]

/-! ### Whole numbers -/

theorem round_negative (spec : Format) {m : ℕ} (hm : 0 < m) :
    UnpackedFloat.round spec .negative m 0 = (UnpackedFloat.round spec .positive m 0).neg := by
  obtain ⟨M, E, -, rounds⟩ := round_writes spec hm 0
  rw [rounds, rounds, roundWithAccuracy_neg]

theorem round_positive (spec : Format) {m : ℕ} (hm : 0 < m) :
    UnpackedFloat.round spec .positive m 0 ≠ .notANumber ∧
      place (.zero .positive) ≤ place (UnpackedFloat.round spec .positive m 0) := by
  obtain ⟨M, E, w, rounds⟩ := round_writes spec hm 0
  rw [rounds]
  rcases roundWithAccuracy_canonical w .positive with zero | ⟨m, e, hm, finite, -⟩
  · rw [zero]
    exact ⟨UnpackedFloat.noConfusion, le_rfl⟩
  · rw [finite]
    refine ⟨UnpackedFloat.noConfusion, lex_le ?_⟩
    omega

theorem place_round_nat {m k : ℕ} (hm : 0 < m) (le : m ≤ k) :
    place (UnpackedFloat.round spec .positive m 0) ≤
      place (UnpackedFloat.round spec .positive k 0) := by
  obtain ⟨M, E, w, rounds⟩ := round_writes spec hm 0
  obtain ⟨M', E', w', rounds'⟩ := round_writes spec (hm.trans_le le) 0
  rw [rounds, rounds']
  apply place_round_mono w w'
  have : (m : ℚ) ≤ k := by exact_mod_cast le
  linarith

theorem ofInt_positive {n : ℤ} (pos : 0 < n) :
    UnpackedFloat.ofInt spec n = UnpackedFloat.round spec .positive n.toNat 0 := by
  simp only [UnpackedFloat.ofInt, UnpackedFloat.normalize, compare_gt_iff_gt.mpr pos]

theorem ofInt_negative {n : ℤ} (neg : n < 0) :
    UnpackedFloat.ofInt spec n = (UnpackedFloat.round spec .positive (-n).toNat 0).neg := by
  rw [← round_negative spec (by omega)]
  simp only [UnpackedFloat.ofInt, UnpackedFloat.normalize, compare_lt_iff_lt.mpr neg]

theorem ofInt_number (n : ℤ) : UnpackedFloat.ofInt spec n ≠ .notANumber := by
  rcases lt_trichotomy n 0 with neg | rfl | pos
  · rw [ofInt_negative neg]
    have number := (round_positive spec (m := (-n).toNat) (by omega)).1
    intro nan
    have back := congrArg UnpackedFloat.neg nan
    cases rounded : UnpackedFloat.round spec .positive (-n).toNat 0 with
    | notANumber => exact number rounded
    | infinity s => rw [rounded] at nan; cases nan
    | zero s => rw [rounded] at nan; cases nan
    | finite s m e hm => rw [rounded] at nan; cases nan
  · exact UnpackedFloat.noConfusion
  · rw [ofInt_positive pos]
    exact (round_positive spec (by omega)).1

/-- Converting whole numbers keeps their order. -/
theorem place_ofInt_mono {a b : ℤ} (le : a ≤ b) :
    place (UnpackedFloat.ofInt spec a) ≤ place (UnpackedFloat.ofInt spec b) := by
  have below : ∀ {n : ℤ}, n < 0 → place (UnpackedFloat.ofInt spec n) ≤ place (.zero .positive) := by
    intro n neg
    obtain ⟨number, above⟩ := round_positive spec (m := (-n).toNat) (by omega)
    rw [ofInt_negative neg, place_neg number]
    exact neg_nonpos.mpr above
  have above : ∀ {n : ℤ}, 0 < n → place (.zero .positive) ≤ place (UnpackedFloat.ofInt spec n) := by
    intro n pos
    rw [ofInt_positive pos]
    exact (round_positive spec (by omega)).2
  rcases lt_trichotomy a 0 with nega | rfl | posa
  · rcases lt_trichotomy b 0 with negb | rfl | posb
    · rw [ofInt_negative nega, ofInt_negative negb,
        place_neg (round_positive spec (by omega)).1, place_neg (round_positive spec (by omega)).1]
      exact neg_le_neg (place_round_nat (by omega) (by omega))
    · exact below nega
    · exact (below nega).trans (above posb)
  · rcases le.eq_or_lt with rfl | posb
    · exact le_rfl
    · exact above posb
  · rw [ofInt_positive posa, ofInt_positive (by omega)]
    exact place_round_nat (by omega) (by omega)

end

/-- A number of at most 64 bits is in the doubles' range. -/
theorem fits_round {m : ℕ} (hm : 0 < m) (small : m < 2 ^ 64) (s : Sign) :
    Fits (UnpackedFloat.round Format.binary64 s m 0) := by
  obtain ⟨M, E, w, rounds⟩ := round_writes Format.binary64 hm 0
  rw [rounds]
  apply fits_of_writes w
  have small' : (m : ℚ) < 2 ^ 64 := by exact_mod_cast small
  calc (m : ℚ) * 2 ^ (0 : ℤ) = m := by rw [zpow_zero, mul_one]
    _ < 2 ^ (64 : ℤ) := small'
    _ ≤ 2 ^ (1022 : ℤ) := zpow_le_zpow_right₀ (by norm_num) (by norm_num)

/-- No 64-bit integer is out of the doubles' range. -/
theorem unpack_ofInt64 (n : Int64) :
    (Float.Model.ofInt64 n).unpack = UnpackedFloat.ofInt Format.binary64 n.toInt := by
  apply unpack_pack
  show Fits (UnpackedFloat.ofInt Format.binary64 n.toInt)
  have low : -2 ^ 63 ≤ n.toInt := n.minValue_le_toInt
  have high : n.toInt < 2 ^ 63 := n.toInt_lt
  have small : n.toInt.natAbs < 2 ^ 64 := by omega
  rcases lt_trichotomy n.toInt 0 with neg | zero | pos
  · rw [ofInt_negative neg, ← round_negative _ (by omega)]
    apply fits_round
    · omega
    · omega
  · rw [zero]
    exact trivial
  · rw [ofInt_positive pos]
    apply fits_round
    · omega
    · omega

/-- As floats, 64-bit integers never stand in the wrong order. -/
theorem place_ofInt64_mono {a b : Int64} (le : a ≤ b) :
    place (Float.Model.ofInt64 a).unpack ≤ place (Float.Model.ofInt64 b).unpack := by
  rw [unpack_ofInt64, unpack_ofInt64]
  exact place_ofInt_mono (Int64.le_iff_toInt_le.mp le)

section

variable {a b : Int64}

theorem compare_ofInt64 :
    UnpackedFloat.compare (Float.Model.ofInt64 a).unpack (Float.Model.ofInt64 b).unpack =
      some (compare (place (Float.Model.ofInt64 a).unpack)
        (place (Float.Model.ofInt64 b).unpack)) := by
  have na := @ofInt_number Format.binary64 a.toInt
  have nb := @ofInt_number Format.binary64 b.toInt
  rw [← unpack_ofInt64] at na nb
  exact compare_eq_place na nb

theorem ofInt64_lt_iff : Float.Model.ofInt64 a < Float.Model.ofInt64 b ↔
    place (Float.Model.ofInt64 a).unpack < place (Float.Model.ofInt64 b).unpack := by
  show UnpackedFloat.lt (Float.Model.ofInt64 a).unpack (Float.Model.ofInt64 b).unpack = true ↔ _
  rw [UnpackedFloat.lt, compare_ofInt64, beq_iff_eq, Option.some.injEq]
  exact compare_lt_iff_lt

theorem ofInt64_le_iff : Float.Model.ofInt64 a ≤ Float.Model.ofInt64 b ↔
    place (Float.Model.ofInt64 a).unpack ≤ place (Float.Model.ofInt64 b).unpack := by
  show UnpackedFloat.le (Float.Model.ofInt64 a).unpack (Float.Model.ofInt64 b).unpack = true ↔ _
  rw [UnpackedFloat.le, compare_ofInt64, Option.any_some,
    Ordering.isLE_iff_ne_gt, compare_gt_iff_gt, not_lt]

theorem ofInt64_beq_iff : (Float.Model.ofInt64 a == Float.Model.ofInt64 b) = true ↔
    place (Float.Model.ofInt64 a).unpack = place (Float.Model.ofInt64 b).unpack := by
  show UnpackedFloat.beq (Float.Model.ofInt64 a).unpack (Float.Model.ofInt64 b).unpack = true ↔ _
  rw [UnpackedFloat.beq, compare_ofInt64, beq_iff_eq, Option.some.injEq]
  exact compare_eq_iff_eq

end

end Decimal
