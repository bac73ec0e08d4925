import Mathlib
import Calculator.Proofs.Binary64.Order
import Calculator.Proofs.Rounding

/-!
# The nearest binary64 magnitude

A quotient is rounded to the magnitude nearest to it, and to the one with the even rank where
two are equally near (`isNearest_nearestRank`). Multiples of the spacing at the quotient are
no nearer, because its multiplier is rounded to the nearest integer; the magnitudes that are
no multiples of it lie below the binade of the quotient (`exists_multiple_or_lt`) and so are
further away. A quotient beyond the largest magnitudes is nearest to that of infinity.
-/

namespace Calculator

namespace Binary64

/-- The rank is that of a magnitude nearest to the number, and it is even if it is not the
only such one. -/
structure IsNearest (q : ℚ) (r : ℕ) : Prop where
  le_infinityRank : r ≤ infinityRank
  nearest (r' : ℕ) : r' ≤ infinityRank → |magnitude r - q| ≤ |magnitude r' - q|
  even_of_tie (r' : ℕ) : r' ≤ infinityRank → r' ≠ r →
    |magnitude r - q| = |magnitude r' - q| → Even r

/-- Of a quotient of more than 53 bits `s` are dropped, so that 53 are left of it. -/
theorem quotient_bounds (a : ℕ) {s : ℕ} (hs : s = Nat.log2 a - 52) :
    (s = 0 ∨ binade ≤ a / Nat.pow 2 s) ∧ a / Nat.pow 2 s < 2 * binade := by
  have hpos : 0 < 2 ^ s := Nat.two_pow_pos s
  constructor
  · by_cases hzero : s = 0
    · exact Or.inl hzero
    · right
      have hbits : s + 52 = Nat.log2 a := by omega
      have hne : a ≠ 0 := by
        rintro rfl
        rw [Nat.log2_zero] at hs
        exact hzero hs
      refine (Nat.le_div_iff_mul_le hpos).2 ?_
      calc binade * 2 ^ s = 2 ^ (s + 52) := by rw [pow_add, mul_comm]; rfl
        _ ≤ a := by rw [hbits]; exact Nat.log2_self_le hne
  · refine (Nat.div_lt_iff_lt_mul hpos).2 ?_
    calc a < 2 ^ (Nat.log2 a + 1) := Nat.lt_log2_self
      _ ≤ 2 ^ (s + 53) := Nat.pow_le_pow_right two_pos (by omega)
      _ = 2 * binade * 2 ^ s := by rw [pow_add, mul_comm]; rfl

theorem magnitude_eq_mul {r s k : ℕ} (h : units r = k * Nat.pow 2 s) :
    magnitude r = k * (2 ^ s / unitsPerOne) := by
  rw [magnitude, h, Nat.pow_eq, Nat.cast_mul, Nat.cast_pow, Nat.cast_ofNat, mul_div_assoc]

section Spacing

variable {num den s : ℕ}

/-- Rounding the multiplier of the spacing stays within the binade and its end. -/
theorem units_roundHalfEven (hlow : s = 0 ∨ binade ≤ num / den) (hhigh : num / den < 2 * binade) :
    units (s * binade + roundHalfEven num den) = roundHalfEven num den * Nat.pow 2 s := by
  have hm := roundHalfEven_eq_or num den
  exact units_add s _ (hlow.imp_right fun hle => by omega) (by omega)

/-- A magnitude that is no multiple of the spacing lies below the binade. -/
theorem exists_multiple_or_lt (s r : ℕ) :
    (∃ k : ℕ, units r = k * Nat.pow 2 s) ∨
      s ≠ 0 ∧ magnitude r < binade * (2 ^ s / unitsPerOne) := by
  by_cases h : s = 0 ∨ (s + 1) * binade ≤ r
  · obtain ⟨k, hk⟩ := two_pow_dvd_units h
    exact Or.inl ⟨k, hk.trans (Nat.mul_comm _ _)⟩
  · obtain ⟨hs, hr⟩ := not_or.1 h
    have hfirst : units ((s + 1) * binade) = binade * Nat.pow 2 s := by
      simpa only [Nat.add_zero] using units_of_lt s 0 binade_pos
    refine Or.inr ⟨hs, ?_⟩
    rw [← magnitude_eq_mul hfirst]
    exact strictMono_magnitude (not_le.1 hr)

/-- Where the spacing leaves 53 bits of the quotient or is the least one, rounding the
multiplier of the spacing leads to the nearest magnitude. -/
theorem nearest_of_spacing (hden : 0 < den) (hlow : s = 0 ∨ binade ≤ num / den)
    (hhigh : num / den < 2 * binade) {r : ℕ} (hr : r = s * binade + roundHalfEven num den)
    {q : ℚ} (hq : q = num / den * (2 ^ s / unitsPerOne)) (r' : ℕ) :
    |magnitude r - q| ≤ |magnitude r' - q| ∧
      (r' ≠ r → |magnitude r - q| = |magnitude r' - q| → Even r) := by
  have hspacing : (0 : ℚ) < 2 ^ s / unitsPerOne :=
    div_pos (by positivity) (Nat.cast_pos.2 unitsPerOne_pos)
  have hdistance {r k : ℕ} (h : units r = k * Nat.pow 2 s) :
      |magnitude r - q| = |(k : ℚ) - num / den| * (2 ^ s / unitsPerOne) := by
    rw [magnitude_eq_mul h, hq, ← sub_mul, abs_mul, abs_of_pos hspacing]
  have hunits := units_roundHalfEven hlow hhigh
  rw [← hr] at hunits
  rcases exists_multiple_or_lt s r' with ⟨k, hk⟩ | ⟨hs, hlt⟩
  · obtain ⟨hle, heven⟩ := roundHalfEven_nearest num hden k
    rw [hdistance hunits, hdistance hk]
    refine ⟨mul_le_mul_of_nonneg_right hle hspacing.le, fun hne htie => ?_⟩
    have hkne : k ≠ roundHalfEven num den := by
      rintro rfl
      exact hne (strictMono_units.injective (hk.trans hunits.symm))
    rw [hr]
    exact (Even.mul_left (by decide +kernel) s).add
      (heven hkne (mul_right_cancel₀ hspacing.ne' htie))
  · -- the first number of the binade is between this magnitude and the quotient
    have hbinade : (binade : ℚ) ≤ num / den := by
      rw [le_div_iff₀ (Nat.cast_pos.2 hden)]
      exact_mod_cast (Nat.le_div_iff_mul_le hden).1 (hlow.resolve_left hs)
    have hfirst := (roundHalfEven_nearest num hden binade).1
    rw [abs_sub_comm (binade : ℚ), abs_of_nonneg (sub_nonneg.2 hbinade)] at hfirst
    have hfurther : |magnitude r - q| < |magnitude r' - q| := by
      have hbelow : magnitude r' < q :=
        hlt.trans_le (hq ▸ mul_le_mul_of_nonneg_right hbinade hspacing.le)
      calc |magnitude r - q|
          ≤ (num / den - binade) * (2 ^ s / unitsPerOne) := by
            rw [hdistance hunits]
            exact mul_le_mul_of_nonneg_right hfirst hspacing.le
        _ = q - binade * (2 ^ s / unitsPerOne) := by rw [sub_mul, hq]
        _ < q - magnitude r' := sub_lt_sub_left hlt q
        _ = |magnitude r' - q| := by rw [abs_of_neg (sub_neg.2 hbelow), neg_sub]
    exact ⟨hfurther.le, fun _ htie => absurd htie hfurther.ne⟩

end Spacing

/-- `nearestRank` without the cut at infinity. -/
theorem exists_nearest (num : ℕ) {den : ℕ} (hden : 0 < den) :
    ∃ r : ℕ, nearestRank num den = min r infinityRank ∧
      ∀ r' : ℕ, |magnitude r - num / den| ≤ |magnitude r' - num / den| ∧
        (r' ≠ r → |magnitude r - num / den| = |magnitude r' - num / den| → Even r) := by
  obtain ⟨hlow, hhigh⟩ := quotient_bounds (num * unitsPerOne / den) rfl
  rw [Nat.div_div_eq_div_mul] at hlow hhigh
  refine ⟨_, rfl, nearest_of_spacing (Nat.mul_pos hden (Nat.two_pow_pos _)) hlow hhigh rfl ?_⟩
  have hone : (unitsPerOne : ℚ) ≠ 0 := Nat.cast_ne_zero.2 unitsPerOne_pos.ne'
  have hden : (den : ℚ) ≠ 0 := Nat.cast_ne_zero.2 hden.ne'
  simp only [Nat.cast_mul, Nat.cast_pow, Nat.cast_ofNat]
  field_simp

theorem isNearest_nearestRank (num : ℕ) {den : ℕ} (hden : 0 < den) :
    IsNearest (num / den) (nearestRank num den) := by
  obtain ⟨r, hr, hnearest⟩ := exists_nearest num hden
  rcases le_or_gt r infinityRank with hle | hgt
  · rw [hr, min_eq_left hle]
    exact ⟨hle, fun r' _ => (hnearest r').1, fun r' _ => (hnearest r').2⟩
  · -- the quotient is nearer to a magnitude beyond infinity than to it, so it is beyond it too
    have hbeyond : magnitude infinityRank < (num / den : ℚ) := by
      have hlt := strictMono_magnitude hgt
      have hle := (hnearest infinityRank).1
      by_contra hnot
      rw [abs_of_pos (by linarith), abs_of_nonneg (by linarith)] at hle
      linarith
    have hdistance : ∀ r' ≤ infinityRank,
        |magnitude r' - num / den| = num / den - magnitude r' := by
      intro r' hr'
      have hle := strictMono_magnitude.monotone hr'
      rw [abs_of_neg (by linarith), neg_sub]
    rw [hr, min_eq_right hgt.le]
    refine ⟨le_rfl, fun r' hr' => ?_, fun r' hr' hne htie => ?_⟩
    · have hle := strictMono_magnitude.monotone hr'
      rw [hdistance _ le_rfl, hdistance _ hr']
      linarith
    · have hlt := strictMono_magnitude (hr'.lt_of_ne hne)
      rw [hdistance _ le_rfl, hdistance _ hr'] at htie
      linarith

end Binary64

end Calculator
