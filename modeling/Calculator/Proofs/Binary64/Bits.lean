import Mathlib
import Calculator.Proofs.Binary64.Negation
import Calculator.Proofs.Binary64.Order

/-!
# The bits of binary64 numbers

Sixty-three bits of a number are its rank, and the first one is its sign. A rank is made of
the exponent field and the mantissa field, so that the finite numbers are those whose rank is
below that of infinity (`isFinite_iff_rank_lt`) and the magnitude of a number is that of its
rank (`magnitude_rank`). Every rank up to there is the rank of a number (`rank_ofRank`), and a
negation changes the sign bit and keeps the rank (`rank_neg`, `isNegative_neg`).
-/

namespace Calculator

namespace Binary64

open Float.Model (Format UnpackedFloat)
open Float.Model.UnpackedFloat

variable {x : Float} {b : BitVec Format.binary64.numBits}

theorem toNat_unpackExponent (b : BitVec Format.binary64.numBits) :
    (unpackExponent b).toNat = b.toNat / 4503599627370496 % 2048 := by
  rw [unpackExponent_def, BitVec.extractLsb'_toNat, Nat.shiftRight_eq_div_pow]
  rfl

theorem toNat_unpackMantissa (b : BitVec Format.binary64.numBits) :
    (unpackMantissa b).toNat = b.toNat % 4503599627370496 := by
  rw [unpackMantissa_def, BitVec.extractLsb'_toNat, Nat.shiftRight_zero]
  rfl

theorem toNat_unpackSign (b : BitVec Format.binary64.numBits) :
    (unpackSign b).toNat = b.toNat / 9223372036854775808 % 2 := by
  rw [unpackSign_def, BitVec.extractLsb'_toNat, Nat.shiftRight_eq_div_pow]
  rfl

/-- The bits of a number. -/
def bits (x : Float) : BitVec Format.binary64.numBits :=
  x.toModel.toBits.toBitVec

theorem rank_eq (x : Float) : rank x = (bits x).toNat % 9223372036854775808 := rfl

theorem isNegative_eq (x : Float) :
    isNegative x = decide (9223372036854775808 ≤ (bits x).toNat) := rfl

theorem infinityRank_eq : infinityRank = 9218868437227405312 := rfl

theorem isFinite_iff_unpackExponent : x.isFinite = true ↔ unpackExponent (bits x) ≠ -1#_ := by
  have hfinite : x.isFinite = (unpackExponent (bits x) != -1#_) := isFinite_unpack (bits x)
  rw [hfinite, bne_iff_ne]

/-- The finite numbers are those below infinity. -/
theorem isFinite_iff_rank_lt : x.isFinite = true ↔ rank x < infinityRank := by
  have htop : (-1#11).toNat = 2047 := rfl
  have hexponent := toNat_unpackExponent (bits x)
  rw [isFinite_iff_unpackExponent, Ne, ← BitVec.toNat_inj, htop, rank_eq, infinityRank_eq]
  omega

/-- The rank and its units are those of the number that the bits stand for. -/
theorem magnitude_rank {s : Sign} {m : ℕ} {e : ℤ} {hm : 0 < m}
    (h : UnpackedFloat.unpack Format.binary64 (bits x) = .finite s m e hm) :
    magnitude (rank x) = m * 2 ^ e := by
  have hbinade : binade = 4503599627370496 := rfl
  have hexponent := toNat_unpackExponent (bits x)
  have hmantissa := toNat_unpackMantissa (bits x)
  have hfields : significand (rank x) = m ∧ e = exponent (rank x) - 1074 := by
    rw [significand, exponent, rank_eq, hbinade]
    rcases fields_of_unpack h with ⟨hzero, rfl, rfl⟩ | ⟨hpos, -, rfl, rfl⟩
    · split <;> omega
    · split <;> omega
  obtain ⟨rfl, rfl⟩ := hfields
  have hone : (unitsPerOne : ℚ) = 2 ^ (1074 : ℤ) := by
    have hnat : unitsPerOne = 2 ^ 1074 := by decide +kernel
    rw [hnat, Nat.cast_pow, Nat.cast_ofNat, ← zpow_natCast]
    rfl
  rw [magnitude, units, hone, zpow_sub₀ two_ne_zero, zpow_natCast, Nat.cast_mul, Nat.pow_eq,
    Nat.cast_pow, Nat.cast_ofNat, mul_div_assoc]

/-- Bits are kept unless they stand for what is no number. -/
theorem bits_ofBits {u : UInt64} (hb : u.toBitVec = b) (hnumber : isNaNBits b = false) :
    bits (Float.ofBits u) = b := by
  subst hb
  change UnpackedFloat.pack Format.binary64
    (UnpackedFloat.unpack Format.binary64 u.toBitVec) = u.toBitVec
  rw [pack_unpack, hnumber]
  rfl

theorem isNaNBits_eq_false_of_le (hb : b.toNat ≤ infinityRank) : isNaNBits b = false := by
  have htop : (-1#11).toNat = 2047 := rfl
  have hzero : (0#52).toNat = 0 := rfl
  have hexponent := toNat_unpackExponent b
  have hmantissa := toNat_unpackMantissa b
  rw [infinityRank_eq] at hb
  rw [isNaNBits, decide_eq_false_iff_not, ← BitVec.toNat_inj, htop, Ne, ← BitVec.toNat_inj, hzero]
  omega

theorem toNat_bits_ofRank {r : Nat} (hr : r ≤ infinityRank) : (bits (ofRank r)).toNat = r := by
  have hbits : (UInt64.ofNat r).toBitVec.toNat = r := by
    rw [infinityRank_eq] at hr
    change r % 18446744073709551616 = r
    omega
  rw [ofRank, bits_ofBits rfl (isNaNBits_eq_false_of_le (hbits.trans_le hr))]
  exact hbits

/-- Every rank up to that of infinity is the rank of a number. -/
theorem rank_ofRank {r : Nat} (hr : r ≤ infinityRank) : rank (ofRank r) = r := by
  rw [rank_eq, toNat_bits_ofRank hr]
  rw [infinityRank_eq] at hr
  omega

theorem isNegative_ofRank {r : Nat} (hr : r ≤ infinityRank) : isNegative (ofRank r) = false := by
  rw [isNegative_eq, toNat_bits_ofRank hr, decide_eq_false_iff_not]
  rw [infinityRank_eq] at hr
  omega

/-- Bits that differ in the sign only are those of a number and its negation. -/
theorem unpack_eq_neg {c : BitVec Format.binary64.numBits}
    (hexponent : unpackExponent c = unpackExponent b)
    (hmantissa : unpackMantissa c = unpackMantissa b)
    (hsign : Sign.ofBitVec (unpackSign c) = -Sign.ofBitVec (unpackSign b)) :
    UnpackedFloat.unpack Format.binary64 c = (UnpackedFloat.unpack Format.binary64 b).neg := by
  delta UnpackedFloat.unpack
  simp only [hexponent, hmantissa, hsign]
  by_cases htop : unpackExponent b = -1#_
  · rw [if_pos htop, if_pos htop]
    by_cases hm : unpackMantissa b = 0#_
    · rw [if_pos hm, if_pos hm]
      rfl
    · rw [if_neg hm, if_neg hm]
      rfl
  · rw [if_neg htop, if_neg htop]
    by_cases hzero : unpackExponent b = 0#_
    · rw [if_pos hzero, if_pos hzero]
      by_cases hm : unpackMantissa b = 0#_
      · rw [dif_pos hm, dif_pos hm]
        rfl
      · rw [dif_neg hm, dif_neg hm]
        rfl
    · rw [if_neg hzero, if_neg hzero]
      rfl

/-- A negation keeps the exponent and the mantissa and changes the sign. -/
theorem bits_neg (hx : x.isFinite = true) :
    unpackExponent (bits (-x)) = unpackExponent (bits x) ∧
      unpackMantissa (bits (-x)) = unpackMantissa (bits x) ∧
      Sign.ofBitVec (unpackSign (bits (-x))) = -Sign.ofBitVec (unpackSign (bits x)) := by
  have hb := isFinite_iff_unpackExponent.1 hx
  let c := packComponents Format.binary64 (-Sign.ofBitVec (unpackSign (bits x)))
    (unpackExponent (bits x)) (unpackMantissa (bits x))
  have hexponent : unpackExponent c = unpackExponent (bits x) := unpackExponent_packComponents
  have hmantissa : unpackMantissa c = unpackMantissa (bits x) := unpackMantissa_packComponents
  have hsign : Sign.ofBitVec (unpackSign c) = -Sign.ofBitVec (unpackSign (bits x)) :=
    (congrArg Sign.ofBitVec (unpackSign_packComponents _ _ _)).trans (Sign.ofBitVec_toBitVec _)
  have hbits : bits (-x) = c := by
    change UnpackedFloat.pack Format.binary64
      (UnpackedFloat.unpack Format.binary64 (bits x)).neg = c
    have hnumber : isNaNBits c = false :=
      decide_eq_false fun hnone => hb (hexponent.symm.trans hnone.1)
    rw [← unpack_eq_neg hexponent hmantissa hsign, pack_unpack, hnumber]
    rfl
  rw [hbits]
  exact ⟨hexponent, hmantissa, hsign⟩

theorem rank_neg (hx : x.isFinite = true) : rank (-x) = rank x := by
  obtain ⟨hexponent, hmantissa, -⟩ := bits_neg hx
  have hexponent := congrArg BitVec.toNat hexponent
  have hmantissa := congrArg BitVec.toNat hmantissa
  rw [toNat_unpackExponent, toNat_unpackExponent] at hexponent
  rw [toNat_unpackMantissa, toNat_unpackMantissa] at hmantissa
  rw [rank_eq, rank_eq]
  omega

theorem isNegative_iff_unpackSign :
    isNegative x = true ↔ Sign.ofBitVec (unpackSign (bits x)) = .negative := by
  have hsign := toNat_unpackSign (bits x)
  have hbits : (bits x).toNat < 18446744073709551616 := (bits x).isLt
  have hzero : (0#1).toNat = 0 := rfl
  rw [isNegative_eq, decide_eq_true_eq, Sign.ofBitVec]
  split
  · next hpositive =>
      have hnat := congrArg BitVec.toNat hpositive
      rw [hsign, hzero] at hnat
      exact iff_of_false (by omega) Sign.noConfusion
  · next hnegative =>
      rw [← BitVec.toNat_inj, hsign, hzero] at hnegative
      exact iff_of_true (by omega) rfl

theorem isNegative_neg (hx : x.isFinite = true) : isNegative (-x) = !isNegative x := by
  obtain ⟨-, -, hsign⟩ := bits_neg hx
  rw [Bool.eq_iff_iff, isNegative_iff_unpackSign, hsign, Bool.not_eq_true',
    ← Bool.not_eq_true, isNegative_iff_unpackSign]
  cases Sign.ofBitVec (unpackSign (bits x)) with
  | positive => exact iff_of_true rfl Sign.noConfusion
  | negative => exact iff_of_false Sign.noConfusion (not_not_intro rfl)

end Binary64

end Calculator
