import Calculator.Binary64

/-!
# Negation of binary64 numbers

A negation changes the sign of a number and nothing else. What is needed of it
here is that a number is finite exactly if its negation is (`isFinite_neg`),
read off the exponent field: only infinities and what is no number have all of
its bits set.
-/

namespace Calculator

namespace Binary64

open Float.Model (Format UnpackedFloat)
open Float.Model.UnpackedFloat (Sign)

theorem isFinite_unpack {spec : Format} (b : BitVec spec.numBits) :
    (UnpackedFloat.unpack spec b).isFinite = (UnpackedFloat.unpackExponent b != -1#_) := by
  delta UnpackedFloat.unpack
  dsimp only
  by_cases h : UnpackedFloat.unpackExponent b = -1#_
  · rw [if_pos h, h, bne_self_eq_false]
    by_cases hmantissa : UnpackedFloat.unpackMantissa b = 0#_
    · rw [if_pos hmantissa]
      rfl
    · rw [if_neg hmantissa]
      rfl
  · rw [if_neg h, bne_iff_ne.2 h]
    by_cases hzero : UnpackedFloat.unpackExponent b = 0#_
    · rw [if_pos hzero]
      by_cases hmantissa : UnpackedFloat.unpackMantissa b = 0#_
      · rw [dif_pos hmantissa]
        rfl
      · rw [dif_neg hmantissa]
        rfl
    · rw [if_neg hzero]
      rfl

/-- A number is subnormal or has a leading bit besides those of the mantissa field, which
is the bit 52. Its exponent is the exponent field less 1075, the bias together with the bits
behind the leading one. -/
theorem fields_of_unpack {b : BitVec Format.binary64.numBits} {s : Sign} {m : Nat}
    {e : Int} {hm : 0 < m} (h : UnpackedFloat.unpack Format.binary64 b = .finite s m e hm) :
    (UnpackedFloat.unpackExponent b).toNat = 0 ∧ m = (UnpackedFloat.unpackMantissa b).toNat ∧
        e = -1074 ∨
      0 < (UnpackedFloat.unpackExponent b).toNat ∧
        (UnpackedFloat.unpackExponent b).toNat < 2047 ∧
        m = 4503599627370496 + (UnpackedFloat.unpackMantissa b).toNat ∧
        e = (UnpackedFloat.unpackExponent b).toNat - 1075 := by
  delta UnpackedFloat.unpack at h
  dsimp only at h
  by_cases htop : UnpackedFloat.unpackExponent b = -1#_
  · rw [if_pos htop] at h
    by_cases hmantissa : UnpackedFloat.unpackMantissa b = 0#_
    · rw [if_pos hmantissa] at h
      cases h
    · rw [if_neg hmantissa] at h
      cases h
  · rw [if_neg htop] at h
    by_cases hzero : UnpackedFloat.unpackExponent b = 0#_
    · rw [if_pos hzero] at h
      by_cases hmantissa : UnpackedFloat.unpackMantissa b = 0#_
      · rw [dif_pos hmantissa] at h
        cases h
      · rw [dif_neg hmantissa] at h
        cases h
        rw [hzero]
        exact Or.inl ⟨rfl, rfl, rfl⟩
    · rw [if_neg hzero] at h
      have hlt : (UnpackedFloat.unpackExponent b).toNat < 2048 := BitVec.isLt _
      have htop : (UnpackedFloat.unpackExponent b).toNat ≠ 2047 := fun heq =>
        htop (BitVec.eq_of_toNat_eq heq)
      have hzero : (UnpackedFloat.unpackExponent b).toNat ≠ 0 := fun heq =>
        hzero (BitVec.eq_of_toNat_eq heq)
      cases h
      refine Or.inr ⟨Nat.pos_of_ne_zero hzero, by omega, ?_, rfl⟩
      rw [BitVec.toNat_append, ← Nat.shiftLeft_add_eq_or_of_lt (BitVec.isLt _)]
      rfl

theorem exponent_lt_of_unpack {b : BitVec Format.binary64.numBits} {s : Sign} {m : Nat}
    {e : Int} {hm : 0 < m} (h : UnpackedFloat.unpack Format.binary64 b = .finite s m e hm) :
    (e + 1075).toNat < 2047 := by
  rcases fields_of_unpack h with ⟨-, -, he⟩ | ⟨-, hexponent, -, he⟩ <;> omega

theorem unpackExponent_pack {s : Sign} {m : Nat} {e : Int} {hm : 0 < m}
    (he : (e + 1075).toNat < 2047) :
    UnpackedFloat.unpackExponent
      (UnpackedFloat.pack Format.binary64 (.finite s m e hm)) ≠ -1#_ := by
  have hbiased : (e + Format.binary64.exponentBias +
      Format.binary64.mantissaBitsWithoutImplicit).toNat = (e + 1075).toNat := by
    have hbias : ((Format.binary64.exponentBias : Nat) : Int) = 1023 := rfl
    have hbits : ((Format.binary64.mantissaBitsWithoutImplicit : Nat) : Int) = 52 := rfl
    rw [hbias, hbits, Int.add_assoc]
    rfl
  delta UnpackedFloat.pack
  dsimp only
  rw [hbiased, if_neg (Nat.not_le_of_lt (Nat.succ_lt_succ he))]
  split
  · rw [UnpackedFloat.unpackExponent_packComponents]
    intro heq
    have hnat : (e + 1075).toNat % 2048 = 2047 := congrArg BitVec.toNat heq
    omega
  · rw [UnpackedFloat.unpackExponent_packComponents]
    decide

theorem isFinite_neg (x : Float) : (-x).isFinite = x.isFinite := by
  let b := x.toModel.toBits.toBitVec
  change (UnpackedFloat.unpack Format.binary64 (UnpackedFloat.pack Format.binary64
    (UnpackedFloat.unpack Format.binary64 b).neg)).isFinite =
      (UnpackedFloat.unpack Format.binary64 b).isFinite
  cases h : UnpackedFloat.unpack Format.binary64 b with
  | notANumber => rfl
  | infinity s => cases s <;> rfl
  | zero s => cases s <;> rfl
  | finite s m e hm =>
      rw [isFinite_unpack]
      exact bne_iff_ne.2 (unpackExponent_pack (exponent_lt_of_unpack h))

end Binary64

end Calculator
