import Mathlib
import Calculator.Proofs.Binary64.Nearest
import Calculator.Proofs.Binary64.Sign

/-!
# The exact values of binary64 numbers

A finite number is a significand times a power of two, with a sign (`exactValue`). That is
the magnitude of its rank with the sign of its first bit (`exactValue_eq`), so that what is
computed from rank and sign bit is computed from the value. A number compares equal to zero
exactly if its rank is zero, and the number nearest to a quotient is zero exactly if the
quotient is at most half of the least magnitude (`IsNearest.eq_zero_iff`).
-/

namespace Calculator

namespace Binary64

open Float.Model (Format UnpackedFloat)
open Float.Model.UnpackedFloat

variable {x : Float}

/-- The number that a finite binary64 number is. -/
def exactValue (x : Float) : ℚ :=
  match unpacked x with
  | .finite .positive m e _ => m * 2 ^ e
  | .finite .negative m e _ => -(m * 2 ^ e)
  | _ => 0

theorem magnitude_zero : magnitude 0 = 0 := by
  rw [magnitude, units_of_lt_binade binade_pos, Nat.cast_zero, zero_div]

theorem rank_eq_zero (hexponent : unpackExponent (bits x) = 0#_)
    (hmantissa : unpackMantissa (bits x) = 0#_) : rank x = 0 := by
  have hexponent : (bits x).toNat / 4503599627370496 % 2048 = 0 :=
    (toNat_unpackExponent _).symm.trans (congrArg BitVec.toNat hexponent)
  have hmantissa : (bits x).toNat % 4503599627370496 = 0 :=
    (toNat_unpackMantissa _).symm.trans (congrArg BitVec.toNat hmantissa)
  rw [rank_eq]
  omega

/-- A finite number is a zero, or it has a significand and an exponent and the sign of its first
bit. -/
theorem unpacked_cases (hx : x.isFinite = true) :
    (∃ s : Sign, unpacked x = .zero s) ∧ rank x = 0 ∨
      ∃ (m : ℕ) (e : ℤ) (hm : 0 < m),
        unpacked x = .finite (Sign.ofBitVec (unpackSign (bits x))) m e hm := by
  rw [unpacked]
  delta UnpackedFloat.unpack
  dsimp only
  rw [if_neg (isFinite_iff_unpackExponent.1 hx)]
  by_cases hexponent : unpackExponent (bits x) = 0#_
  · rw [if_pos hexponent]
    by_cases hmantissa : unpackMantissa (bits x) = 0#_
    · rw [dif_pos hmantissa]
      exact Or.inl ⟨⟨_, rfl⟩, rank_eq_zero hexponent hmantissa⟩
    · rw [dif_neg hmantissa]
      exact Or.inr ⟨_, _, _, rfl⟩
  · rw [if_neg hexponent]
    exact Or.inr ⟨_, _, _, rfl⟩

/-- The value of a finite number is the magnitude of its rank with the sign of its first bit. -/
theorem exactValue_eq (hx : x.isFinite = true) :
    exactValue x = if isNegative x then -magnitude (rank x) else magnitude (rank x) := by
  rcases unpacked_cases hx with ⟨⟨s, h⟩, hrank⟩ | ⟨m, e, hm, h⟩
  · rw [exactValue, h, hrank, magnitude_zero, neg_zero, ite_self]
  · have hsign := isNegative_iff_unpackSign (x := x)
    rw [exactValue, h, magnitude_rank h]
    cases hs : Sign.ofBitVec (unpackSign (bits x)) with
    | positive =>
        rw [hs] at hsign
        rw [if_neg (hsign.not.2 Sign.noConfusion)]
    | negative => rw [if_pos (hsign.2 hs)]

/-- The numbers equal to zero are those of rank zero. -/
theorem beq_zero_iff : (x == 0.0) = true ↔ rank x = 0 := by
  change UnpackedFloat.beq (unpacked x) (unpacked 0.0) = true ↔ rank x = 0
  rw [unpacked_zero]
  by_cases hx : x.isFinite = true
  · rcases unpacked_cases hx with ⟨⟨s, h⟩, hrank⟩ | ⟨m, e, hm, h⟩
    · rw [h]
      exact iff_of_true rfl hrank
    · have hpos : 0 < magnitude (rank x) := by
        rw [magnitude_rank h]
        exact mul_pos (Nat.cast_pos.2 hm) (by positivity)
      have hrank : rank x ≠ 0 := fun hrank => hpos.ne' (hrank ▸ magnitude_zero)
      rw [h]
      refine iff_of_false ?_ hrank
      cases Sign.ofBitVec (unpackSign (bits x)) <;> exact Bool.false_ne_true
  · have hrank : rank x ≠ 0 := fun hrank =>
      hx (isFinite_iff_rank_lt.2 (hrank.trans_lt (by decide +kernel)))
    refine iff_of_false (fun hzero => hx ?_) hrank
    change (unpacked x).isFinite = true
    cases h : unpacked x with
    | notANumber =>
        rw [h] at hzero
        cases hzero
    | infinity s =>
        rw [h] at hzero
        cases s <;> cases hzero
    | zero s => rfl
    | finite s m e hm => rfl

theorem magnitude_one : magnitude 1 = 1 / 2 ^ 1074 := by
  have hone : unitsPerOne = 2 ^ 1074 := by decide +kernel
  rw [magnitude, units_of_lt_binade (by decide +kernel), hone, Nat.cast_one, Nat.cast_pow,
    Nat.cast_ofNat]

/-- A number is rounded to zero exactly if it is at most half of the least magnitude. -/
theorem IsNearest.eq_zero_iff {q : ℚ} {r : ℕ} (h : IsNearest q r) (hq : 0 ≤ q) :
    r = 0 ↔ q ≤ 1 / 2 ^ 1075 := by
  have hhalf : (1 : ℚ) / 2 ^ 1074 = 2 * (1 / 2 ^ 1075) := by
    rw [pow_succ _ 1074]
    field_simp
  generalize (1 : ℚ) / 2 ^ 1075 = half at hhalf
  rw [← magnitude_one] at hhalf
  have hzero : |magnitude 0 - q| = q := by
    rw [magnitude_zero, zero_sub, abs_neg, abs_of_nonneg hq]
  constructor
  · rintro rfl
    have hone := h.nearest 1 (by decide +kernel)
    rw [hzero, hhalf] at hone
    by_contra hlt
    have hpos := strictMono_magnitude Nat.one_pos
    rw [magnitude_zero] at hpos
    exact absurd hone (not_le.2 (abs_sub_lt_iff.2 ⟨by linarith, by linarith⟩))
  · intro hle
    by_contra hne
    have hleast : magnitude 1 ≤ magnitude r :=
      strictMono_magnitude.monotone (Nat.one_le_iff_ne_zero.2 hne)
    have hdistance : |magnitude r - q| = magnitude r - q := abs_of_nonneg (by linarith)
    have hnearest := h.nearest 0 (Nat.zero_le _)
    rw [hzero, hdistance] at hnearest
    -- zero is as near, so that the rank is even and the magnitude is more than the least one
    have htie : |magnitude r - q| = |magnitude 0 - q| := by
      rw [hzero, hdistance]
      linarith
    obtain ⟨k, hk⟩ := h.even_of_tie 0 (Nat.zero_le _) (Ne.symm hne) htie
    have habove := strictMono_magnitude (show 1 < r by omega)
    linarith

end Binary64

end Calculator
