import Mathlib.Algebra.Order.Ring.Nat
import Calculator.Proofs.Binary64.Negation

/-!
# Division by one hundred

A hundredth of a number is a number (`isFinite_div_hundred`). Only exponents are followed:
a division shortens the mantissa to a quotient that is not larger than the numbers divided
(`log2_divCore`), rounding it adds at most one bit (`log2_le_of_dropped`), and that
leaves room in the exponent field (`isFinite_roundWithAccuracy`).
-/

namespace Calculator

namespace Binary64

open Float.Model (Format UnpackedFloat totalExponent)
open Float.Model.UnpackedFloat

/-- The significant bits of a finite number. -/
theorem mantissa_lt_of_unpack {b : BitVec Format.binary64.numBits} {s : Sign} {m : Nat}
    {e : Int} {hm : 0 < m} (h : UnpackedFloat.unpack Format.binary64 b = .finite s m e hm) :
    m < 2 ^ 53 := by
  have hmantissa : (unpackMantissa b).toNat < 4503599627370496 := BitVec.isLt _
  rcases fields_of_unpack h with ⟨-, hm, -⟩ | ⟨-, -, hm, -⟩ <;> omega

theorem mantissa_shiftRight (em : ExtendedMantissa) (k : Nat) :
    (em >>> k).mantissa = em.mantissa / 2 ^ k := by
  induction k with
  | zero => simp [HShiftRight.hShiftRight, Nat.repeat]
  | succ k ih =>
      change (em >>> k).mantissa / 2 = _
      rw [ih, Nat.div_div_eq_div_mul, Nat.pow_succ]

theorem mantissa_ofMantissaAndAccuracy (m : Nat) (a : Accuracy) :
    (ExtendedMantissa.ofMantissaAndAccuracy m a).mantissa = m := by
  cases a with
  | exact => rfl
  | inexact o => cases o <;> rfl

/-- Rounding goes up by one at most. -/
theorem roundedMantissa_le (em : ExtendedMantissa) : em.roundedMantissa ≤ em.mantissa + 1 := by
  obtain ⟨m, roundBit, stickyBit⟩ := em
  cases roundBit <;> cases stickyBit <;>
    simp [ExtendedMantissa.roundedMantissa, ExtendedMantissa.accuracy,
      Accuracy.roundToNearestEven]
  omega

theorem log2_le_of_le {m n k : Nat} (hmn : m ≤ n) (hn : n < 2 ^ (k + 1)) : m.log2 ≤ k := by
  by_cases hm : m = 0
  · rw [hm, Nat.log2_zero]
    exact Nat.zero_le k
  · exact Nat.le_of_lt_succ ((Nat.log2_lt hm).2 (Nat.lt_of_le_of_lt hmn hn))

/-- What is left of a mantissa of which `k` bits are dropped and which is rounded. -/
theorem log2_le_of_dropped {m r k : Nat} (hr : r ≤ m / 2 ^ k + 1) :
    r.log2 ≤ m.log2 - k + 1 := by
  refine log2_le_of_le hr ?_
  have hdrop : m / 2 ^ k < 2 ^ (m.log2 - k + 1) := by
    refine (Nat.div_lt_iff_lt_mul (Nat.two_pow_pos k)).2 ?_
    rw [← Nat.pow_add]
    exact Nat.lt_of_lt_of_le Nat.lt_log2_self (Nat.pow_le_pow_right (by decide) (by omega))
  have hpos : 1 ≤ 2 ^ (m.log2 - k + 1) := Nat.one_le_two_pow
  rw [Nat.pow_succ]
  omega

/-- What is rounded from below the largest binade is finite. -/
theorem isFinite_roundWithAccuracy (s : Sign) {m : Nat} {e : Int} (a : Accuracy)
    (he : e ≤ 971) (hm : m.log2 + e ≤ 1022) :
    (UnpackedFloat.unpack Format.binary64 (UnpackedFloat.pack Format.binary64
      (roundWithAccuracy Format.binary64 s m e a))).isFinite = true := by
  let k := (max (m.log2 + 1 + e - 53) (-1074) - e).toNat
  have hshift : shiftToTargetExponent Format.binary64 m e a =
      (ExtendedMantissa.ofMantissaAndAccuracy m a >>> k, e + k) := rfl
  rw [roundWithAccuracy, hshift]
  dsimp only
  have hr := roundedMantissa_le (ExtendedMantissa.ofMantissaAndAccuracy m a >>> k)
  rw [mantissa_shiftRight, mantissa_ofMantissaAndAccuracy] at hr
  generalize (ExtendedMantissa.ofMantissaAndAccuracy m a >>> k).roundedMantissa = r at hr ⊢
  have hlog := log2_le_of_dropped hr
  -- the second shift is one place at most, where rounding has carried into the next binade
  let k' := (max (r.log2 + 1 + (e + k) - 53) (-1074) - (e + k)).toNat
  have hshift' : shiftToTargetExponent Format.binary64 r (e + k) .exact =
      (ExtendedMantissa.ofMantissaAndAccuracy r .exact >>> k', e + k + k') := rfl
  rw [hshift']
  dsimp only
  by_cases hzero : (ExtendedMantissa.ofMantissaAndAccuracy r .exact >>> k').mantissa = 0
  · rw [dif_pos hzero]
    cases s <;> rfl
  · rw [dif_neg hzero, isFinite_unpack]
    refine bne_iff_ne.2 (unpackExponent_pack ?_)
    omega

/-- The quotient of a number by one that is not below two stays below the largest
binade. -/
theorem log2_divCore {m₁ m₂ : Nat} {e₁ e₂ : Int} (h₁ : m₁ < 2 ^ 53) (h₂ : 2 ^ 52 ≤ m₂)
    (he : e₁ - e₂ ≤ 1022) :
    (divCore Format.binary64 m₁ e₁ m₂ e₂).2.1 ≤ 971 ∧
      (divCore Format.binary64 m₁ e₁ m₂ e₂).1.log2 +
        (divCore Format.binary64 m₁ e₁ m₂ e₂).2.1 ≤ 1022 := by
  have hlog₁ : m₁.log2 ≤ 52 := log2_le_of_le (Nat.le_refl m₁) h₁
  have hlog₂ : 52 ≤ m₂.log2 := (Nat.le_log2 (by omega)).2 h₂
  let target := min (e₁ - e₂) (max (m₁.log2 + 1 + e₁ - (m₂.log2 + 1 + e₂) - 53) (-1074))
  let k := (e₁ - e₂ - target).toNat
  have hcore : divCore Format.binary64 m₁ e₁ m₂ e₂ =
      ((m₁ <<< k) / m₂, target, accuracyOfFraction ((m₁ <<< k) % m₂) m₂) := rfl
  have hquotient : ((m₁ <<< k) / m₂).log2 ≤ k := by
    refine log2_le_of_le (Nat.le_refl _) ((Nat.div_lt_iff_lt_mul (by omega)).2 ?_)
    calc m₁ <<< k = m₁ * 2 ^ k := Nat.shiftLeft_eq m₁ k
      _ < 2 ^ 53 * 2 ^ k := Nat.mul_lt_mul_of_pos_right h₁ (Nat.two_pow_pos k)
      _ = 2 ^ (k + 1) * 2 ^ 52 := by rw [← Nat.pow_add, ← Nat.pow_add]; congr 1; omega
      _ ≤ 2 ^ (k + 1) * m₂ := Nat.mul_le_mul_left _ h₂
  rw [hcore]
  dsimp only
  constructor <;> omega

/-- A hundredth of a finite number is finite. -/
theorem isFinite_div_hundred {x : Float} (hx : x.isFinite = true) :
    (x / 100).isFinite = true := by
  have hundred_bits : (100 : Float).toModel.toBits = 0x4059000000000000 := by decide +kernel
  have hundred_unpack : (100 : Float).toModel.unpack =
      .finite .positive 7036874417766400 (-46) (by decide) := by
    rw [Float.Model.unpack, hundred_bits]
    rfl
  change (UnpackedFloat.unpack Format.binary64 x.toModel.toBits.toBitVec).isFinite = true at hx
  change (UnpackedFloat.unpack Format.binary64 (UnpackedFloat.pack Format.binary64
    (UnpackedFloat.div Format.binary64
      (UnpackedFloat.unpack Format.binary64 x.toModel.toBits.toBitVec)
      (100 : Float).toModel.unpack))).isFinite = true
  rw [hundred_unpack]
  cases h : UnpackedFloat.unpack Format.binary64 x.toModel.toBits.toBitVec with
  | notANumber => rw [h] at hx; cases hx
  | infinity s => rw [h] at hx; cases hx
  | zero s => cases s <;> rfl
  | finite s m e hm =>
      have he := exponent_lt_of_unpack h
      have hdivisor : 2 ^ 52 ≤ 7036874417766400 := by decide
      have hexponents : e - -46 ≤ 1022 := by omega
      obtain ⟨htarget, hquotient⟩ :=
        log2_divCore (mantissa_lt_of_unpack h) hdivisor hexponents
      exact isFinite_roundWithAccuracy _ _ htarget hquotient

end Binary64

end Calculator
