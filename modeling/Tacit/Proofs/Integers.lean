import Tacit.Proofs.Selection

/-! Integers as numbers. A sign and a magnitude make up a number that has just these, and an integer of no more bits
than a fraction holds is exactly one of the magnitudes. So sizes and positions pass through numbers unchanged. -/
namespace Tacit.Number

section Bits

open Float.Model

/-- Bits that do not stand for a NaN are kept by the number made from them. -/
theorem toBits_ofBits {bits : UInt64} (proper : bits.toNat % signBit ≤ infinite) :
    (Float.ofBits bits).toBits = bits := by
  have valid : Format.binary64.Valid bits.toBitVec := by
    constructor
    intro exponent mantissa
    have high : bits.toNat / 2 ^ 52 % 2 ^ 11 = 2047 := by
      have := congrArg BitVec.toNat exponent
      simpa [UnpackedFloat.unpackExponent_def, Nat.shiftRight_eq_div_pow] using this
    have low : bits.toNat % 2 ^ 52 ≠ 0 := by
      intro zero
      apply mantissa
      apply BitVec.eq_of_toNat_eq
      simpa [UnpackedFloat.unpackMantissa_def] using zero
    simp only [signBit, infinite, binade, Nat.pow_eq] at proper
    omega
  exact congrArg UInt64.ofBitVec (UnpackedFloat.pack_unpack_of_valid valid)

end Bits

section Magnitude

variable {m : Nat} (negative : Bool) (proper : m ≤ infinite)

include proper

theorem toNat_toBits_ofMagnitude :
    (ofMagnitude negative m).toBits.toNat = if negative then signBit + m else m := by
  have fits : (if negative then signBit + m else m) < 2 ^ 64 := by
    simp only [signBit, infinite, binade, Nat.pow_eq] at proper ⊢
    split <;> omega
  have bits : (UInt64.ofNat (if negative then signBit + m else m)).toNat = if negative then signBit + m else m :=
    UInt64.toNat_ofNat_of_lt' fits
  rw [ofMagnitude, toBits_ofBits, bits]
  rw [bits]
  simp only [signBit, infinite, binade, Nat.pow_eq] at proper ⊢
  split <;> omega

theorem magnitude_ofMagnitude : magnitude (ofMagnitude negative m) = m := by
  rw [magnitude, toNat_toBits_ofMagnitude negative proper]
  simp only [signBit, infinite, binade, Nat.pow_eq] at proper ⊢
  split <;> omega

theorem isNegative_ofMagnitude : isNegative (ofMagnitude negative m) = negative := by
  rw [isNegative, toNat_toBits_ofMagnitude negative proper]
  simp only [signBit, infinite, binade, Nat.pow_eq] at proper ⊢
  cases negative with
  | false => simpa using Nat.lt_of_le_of_lt proper (by decide)
  | true => simp

end Magnitude

/-- An integer of no more bits than a fraction is exactly a finite magnitude. -/
theorem exists_units_eq {n : Nat} (safe : n ≤ maxSafe) : ∃ m, m < infinite ∧ units m = n * oneUnits := by
  by_cases zero : n = 0
  · exact ⟨0, by decide, by rw [zero, units_of_lt binade_pos, Nat.zero_mul]⟩
  -- The leading bit is moved to where it is implicit, in front of the fraction.
  have short : n.log2 ≤ 52 := by
    have small : n < 2 ^ 53 := Nat.lt_of_le_pred (by decide) safe
    exact Nat.le_of_lt_succ ((Nat.log2_lt zero).mpr small)
  have lower : binade ≤ n * 2 ^ (52 - n.log2) := by
    have moved := Nat.mul_le_mul_right (2 ^ (52 - n.log2)) (Nat.log2_self_le zero)
    rwa [← Nat.pow_add, Nat.add_sub_cancel' short] at moved
  have upper : n * 2 ^ (52 - n.log2) < 2 * binade := by
    have moved := Nat.mul_lt_mul_of_pos_right (Nat.lt_log2_self (n := n)) (Nat.two_pow_pos (52 - n.log2))
    rwa [← Nat.pow_add, show n.log2 + 1 + (52 - n.log2) = 53 by omega] at moved
  have power : 2 ^ (52 - n.log2) * 2 ^ (1022 + n.log2) = oneUnits := by
    have exponent : 52 - n.log2 + (1022 + n.log2) = 1074 := by omega
    unfold oneUnits
    rw [← Nat.pow_add, ← exponent, Nat.pow_eq]
  obtain ⟨fraction, isFraction⟩ := Nat.exists_eq_add_of_le lower
  refine ⟨fraction + (1022 + n.log2 + 1) * binade, ?_, ?_⟩
  · simp only [infinite, binade, Nat.pow_eq] at *
    omega
  · rw [units_add_mul _ _ (by omega), ← isFraction, Nat.mul_assoc, power]

theorem isInteger_ofNat {n : Nat} (safe : n ≤ maxSafe) : IsInteger (ofNat n) n := by
  obtain ⟨m, finite, same⟩ := exists_units_eq safe
  have isNearest : nearest (n * oneUnits) 1 = m := by
    have exact := nearest_units Nat.one_pos finite.le
    rwa [same, Nat.mul_one] at exact
  constructor
  · rw [ofNat, isNearest, isFinite, magnitude_ofMagnitude false finite.le]
    exact decide_eq_true finite
  · rw [ofNat, isNearest, signedUnits, isNegative_ofMagnitude false finite.le, magnitude_ofMagnitude false finite.le,
      same]
    rfl

theorem toInteger_ofNat {n : Nat} (safe : n ≤ maxSafe) : toInteger (ofNat n) = .ok n :=
  toInteger_eq_ok.mpr ⟨isInteger_ofNat safe, by rwa [Int.natAbs_natCast]⟩

/-- A size that a number can hold comes back from it. -/
theorem toSize_ofNat {n : Nat} (safe : n ≤ maxSafe) : toSize (ofNat n) = .ok n := by
  have sign : ¬ (n : Int) < 0 := by omega
  refine bind_eq_ok.mpr ⟨n, toInteger_ofNat safe, ?_⟩
  rw [if_neg sign]
  rfl

end Tacit.Number
