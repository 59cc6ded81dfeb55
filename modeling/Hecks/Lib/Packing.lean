import Hecks.Lib.Rounding

/-! Packing a float into its sixty-four bits and unpacking it again. -/
open Float.Model Float.Model.UnpackedFloat

namespace Packing

open Rounding (Canonical)

theorem mantissaBits_eq : Format.binary64.mantissaBits = 53 := rfl

theorem minExponent_eq : Format.binary64.minExponent = -1074 := by
  norm_num [Format.minExponent, Format.mantissaBits]

/-- The floats that are packed without loss. -/
def Fits : UnpackedFloat → Prop
  | .finite _ m e _ => Canonical Format.binary64 m e ∧ e ≤ 971
  | _ => True

theorem unpackSign_packComponents {spec : Format} {s : Sign} {e : BitVec spec.exponentBits}
    {m : BitVec spec.mantissaBitsWithoutImplicit} :
    unpackSign (packComponents spec s e m) = s.toBitVec := by
  ext i hi
  have zero : i = 0 := by omega
  subst zero
  simp [unpackSign, packComponents, BitVec.getLsbD_append, BitVec.getElem_append]

theorem ofBitVec_toBitVec (s : Sign) : Sign.ofBitVec s.toBitVec = s := by
  cases s <;> rfl

theorem toBitVec_ofBitVec (b : BitVec 1) : (Sign.ofBitVec b).toBitVec = b := by
  revert b
  decide

/-- The bits are the sign, the exponent and the mantissa. -/
theorem packComponents_unpack (b : BitVec Format.binary64.numBits) :
    packComponents Format.binary64 (Sign.ofBitVec (unpackSign b)) (unpackExponent b)
      (unpackMantissa b) = b := by
  ext i hi
  have bound : i < 64 := hi
  simp only [packComponents, toBitVec_ofBitVec, BitVec.getElem_append, unpackMantissa,
    unpackExponent, unpackSign]
  by_cases low : i < 52
  · simpa [low] using BitVec.getLsbD_eq_getElem hi
  · by_cases mid : i < 63
    · have : i - 52 < 11 := by omega
      simp [low, this, show 52 + (i - 52) = i by omega, BitVec.getLsbD_eq_getElem, hi]
    · have : ¬ i - 52 < 11 := by omega
      have top : i = 63 := by omega
      subst top
      simpa using BitVec.getLsbD_eq_getElem hi

/-- The implicit bit goes in front of the stored ones. -/
theorem toNat_implicit (m : BitVec 52) : (1#1 ++ m).toNat = 2 ^ 52 + m.toNat := by
  rw [BitVec.toNat_append, ← Nat.shiftLeft_add_eq_or_of_lt m.isLt]
  simp [Nat.shiftLeft_eq]

theorem biased_eq (e : ℤ) :
    (e + Format.binary64.exponentBias + (52 : ℕ)).toNat = (e + 1075).toNat := by
  congr 1
  show e + (1023 : ℕ) + (52 : ℕ) = e + 1075
  push_cast
  ring

theorem pack_normal {s : Sign} {m : ℕ} {e : ℤ} (hm : 0 < m) (low : 2 ^ 52 ≤ m)
    (high : m < 2 ^ 53) (top : e ≤ 971) :
    UnpackedFloat.pack Format.binary64 (.finite s m e hm) =
      packComponents Format.binary64 s (BitVec.ofNat 11 (e + 1075).toNat) (BitVec.ofNat 52 m) := by
  have log : m.log2 + 1 = Format.binary64.mantissaBits := by
    rw [mantissaBits_eq]
    have := (Nat.le_log2 hm.ne').mpr low
    have := (Nat.log2_lt hm.ne').mpr high
    omega
  have inRange : ¬ 2 ^ 11 ≤ (e + 1075).toNat + 1 := by omega
  simp only [UnpackedFloat.pack, biased_eq, inRange, if_false, log, if_true]

theorem pack_subnormal {s : Sign} {m : ℕ} {e : ℤ} (hm : 0 < m) (high : m < 2 ^ 52)
    (least : e = -1074) :
    UnpackedFloat.pack Format.binary64 (.finite s m e hm) =
      packComponents Format.binary64 s 0#11 (BitVec.ofNat 52 m) := by
  subst least
  have log : ¬ m.log2 + 1 = Format.binary64.mantissaBits := by
    rw [mantissaBits_eq]
    have := (Nat.log2_lt hm.ne').mpr high
    omega
  have inRange : ¬ 2 ^ 11 ≤ ((-1074 : ℤ) + 1075).toNat + 1 := by decide
  simp only [UnpackedFloat.pack, biased_eq, inRange, if_false, log]

/-- Packing loses nothing of a float that fits. -/
theorem unpack_pack {u : UnpackedFloat} (h : Fits u) :
    UnpackedFloat.unpack Format.binary64 (UnpackedFloat.pack Format.binary64 u) = u := by
  cases u with
  | notANumber => rfl
  | infinity s => cases s <;> rfl
  | zero s => cases s <;> rfl
  | finite s m e hm =>
    obtain ⟨c, top⟩ := h
    have fits := c.fits
    have least := c.least
    rw [mantissaBits_eq] at fits
    rw [minExponent_eq] at least
    have bias : Format.binary64.exponentBias = 1023 := rfl
    by_cases normal : 2 ^ 52 ≤ m
    · have exponentNat : (BitVec.ofNat 11 (e + 1075).toNat).toNat = (e + 1075).toNat := by
        rw [BitVec.toNat_ofNat, Nat.mod_eq_of_lt]
        omega
      have notSpecial : BitVec.ofNat 11 (e + 1075).toNat ≠ -1#11 := by
        intro same
        have := congrArg BitVec.toNat same
        rw [exponentNat] at this
        simp only [BitVec.neg_one_eq_allOnes, BitVec.toNat_allOnes] at this
        omega
      have notZero : BitVec.ofNat 11 (e + 1075).toNat ≠ 0#11 := by
        intro same
        have := congrArg BitVec.toNat same
        rw [exponentNat, BitVec.toNat_zero] at this
        omega
      have mantissa : (1#1 ++ BitVec.ofNat 52 m).toNat = m := by
        rw [toNat_implicit, BitVec.toNat_ofNat]
        omega
      rw [pack_normal hm normal fits top]
      unfold UnpackedFloat.unpack
      simp only [unpackMantissa_packComponents, unpackExponent_packComponents,
        unpackSign_packComponents, ofBitVec_toBitVec]
      rw [if_neg notSpecial, if_neg notZero]
      congr 1
      rw [exponentNat, bias, Nat.cast_ofNat, Nat.cast_ofNat]
      omega
    · have atLeast : e = -1074 := by
        have := c.normal
        rw [mantissaBits_eq, minExponent_eq] at this
        exact this.resolve_left normal
      have mantissa : (BitVec.ofNat 52 m).toNat = m := by
        rw [BitVec.toNat_ofNat, Nat.mod_eq_of_lt (by omega)]
      have notZero : BitVec.ofNat 52 m ≠ 0#52 := by
        intro same
        have := congrArg BitVec.toNat same
        rw [mantissa, BitVec.toNat_zero] at this
        omega
      rw [pack_subnormal hm (by omega) atLeast]
      unfold UnpackedFloat.unpack
      simp only [unpackMantissa_packComponents, unpackExponent_packComponents,
        unpackSign_packComponents, ofBitVec_toBitVec]
      rw [if_neg (by decide : (0#11) ≠ -1#11), if_pos trivial, dif_neg notZero]
      congr 1
      rw [atLeast, bias]
      rfl

/-- What is unpacked can be packed again without loss. -/
theorem fits_unpack_bits (b : BitVec Format.binary64.numBits) :
    Fits (UnpackedFloat.unpack Format.binary64 b) := by
  have mantissa := (unpackMantissa b).isLt
  have exponent := (unpackExponent b).isLt
  have bias : Format.binary64.exponentBias = 1023 := rfl
  unfold UnpackedFloat.unpack
  dsimp only at *
  split
  · split <;> trivial
  next notSpecial =>
  have small : (unpackExponent b).toNat ≠ 2047 := by
    intro same
    apply notSpecial
    rw [← BitVec.toNat_inj, same]
    rfl
  split
  next zero =>
    split
    · trivial
    next nonzero =>
    rw [zero, bias]
    refine ⟨⟨?_, ?_, ?_, .inr ?_⟩, ?_⟩
    · simpa [BitVec.toNat_pos, BitVec.pos_iff_ne_zero] using nonzero
    · rw [mantissaBits_eq]
      omega
    · rw [minExponent_eq]
      decide
    · rw [minExponent_eq]
      rfl
    · decide
  next nonzero =>
    have positive : (unpackExponent b).toNat ≠ 0 := by
      intro same
      apply nonzero
      rw [← BitVec.toNat_inj, same]
      rfl
    show Canonical _ _ _ ∧ _
    rw [toNat_implicit, bias]
    refine ⟨⟨?_, ?_, ?_, .inl ?_⟩, ?_⟩
    · omega
    · rw [mantissaBits_eq]
      omega
    · rw [minExponent_eq, Nat.cast_ofNat, Nat.cast_ofNat]
      omega
    · rw [mantissaBits_eq]
      omega
    · rw [Nat.cast_ofNat, Nat.cast_ofNat]
      omega

theorem fits_unpack (f : Float.Model) : Fits f.unpack := fits_unpack_bits f.toBits.toBitVec

/-- Valid bits are packed again to themselves. -/
theorem pack_unpack_bits {b : BitVec Format.binary64.numBits} (valid : Format.binary64.Valid b) :
    UnpackedFloat.pack Format.binary64 (UnpackedFloat.unpack Format.binary64 b) = b := by
  have mantissa := (unpackMantissa b).isLt
  have exponent := (unpackExponent b).isLt
  have bias : Format.binary64.exponentBias = 1023 := rfl
  have whole := packComponents_unpack b
  unfold UnpackedFloat.unpack
  dsimp only at *
  split
  next special =>
    split
    next zero =>
      rw [special, zero] at whole
      exact whole
    next nonzero => exact (valid.eq_packedNaN special nonzero).symm
  next notSpecial =>
  split
  next zero =>
    split
    next zero' =>
      rw [zero, zero'] at whole
      exact whole
    next nonzero =>
      rw [pack_subnormal _ mantissa (by rw [zero, bias]; rfl), BitVec.ofNat_toNat,
        BitVec.setWidth_eq]
      rw [zero] at whole
      exact whole
  next nonzero =>
    have small : (unpackExponent b).toNat ≠ 2047 := by
      intro same
      apply notSpecial
      rw [← BitVec.toNat_inj, same]
      rfl
    have implicit := toNat_implicit (unpackMantissa b)
    rw [pack_normal _ (by omega) (by omega) (by rw [bias, Nat.cast_ofNat, Nat.cast_ofNat]; omega)]
    have exponentBits : BitVec.ofNat 11 (((unpackExponent b).toNat : ℤ) -
        (Format.binary64.exponentBias + (52 : ℕ)) + 1075).toNat = unpackExponent b := by
      have cancel : (((unpackExponent b).toNat : ℤ) -
          (Format.binary64.exponentBias + (52 : ℕ)) + 1075).toNat = (unpackExponent b).toNat := by
        rw [bias, Nat.cast_ofNat, Nat.cast_ofNat]
        omega
      rw [cancel, BitVec.ofNat_toNat, BitVec.setWidth_eq]
    have mantissaBits : BitVec.ofNat 52 (1#1 ++ unpackMantissa b).toNat = unpackMantissa b := by
      rw [← BitVec.toNat_inj, BitVec.toNat_ofNat, implicit]
      omega
    rw [exponentBits, mantissaBits]
    exact whole

/-- A float is determined by what it unpacks to. -/
theorem unpack_injective {f g : Float.Model} (same : f.unpack = g.unpack) : f = g := by
  have bits : f.toBits.toBitVec = g.toBits.toBitVec := by
    rw [← pack_unpack_bits f.valid, ← pack_unpack_bits g.valid]
    exact congrArg _ same
  obtain ⟨⟨b⟩, _⟩ := f
  obtain ⟨⟨c⟩, _⟩ := g
  cases bits
  rfl

end Packing
