import Mathlib
import Calculator.Binary64

/-!
# The order of binary64 magnitudes

From one rank to the next the units grow by the spacing at the first of them (`units_succ`),
so that ranks and magnitudes are in the same order (`strictMono_magnitude`). Where the
spacing is `2 ^ s` units or more all magnitudes are multiples of it (`two_pow_dvd_units`),
and these are the ranks from one binade on.
-/

namespace Calculator

namespace Binary64

theorem exponent_mul_add_significand (r : ℕ) : exponent r * binade + significand r = r := by
  have hdiv := Nat.div_add_mod' r binade
  rw [exponent, significand]
  split
  · next hlt => rw [Nat.div_eq_of_lt hlt, Nat.zero_sub, Nat.zero_mul, Nat.zero_add]
  · next hge =>
      have hpos : 1 ≤ r / binade := (Nat.one_le_div_iff binade_pos).2 (not_lt.1 hge)
      obtain ⟨k, hk⟩ := Nat.exists_eq_add_of_le' hpos
      rw [hk, Nat.succ_mul] at hdiv
      rw [hk, Nat.add_sub_cancel]
      omega

/-- Only in the first binade a magnitude has no leading bit. -/
theorem exponent_eq_zero_or_le_significand (r : ℕ) :
    exponent r = 0 ∨ binade ≤ significand r := by
  rw [exponent, significand]
  split
  · next hlt => exact Or.inl (by rw [Nat.div_eq_of_lt hlt])
  · exact Or.inr (Nat.le_add_right _ _)

theorem significand_lt (r : ℕ) : significand r < 2 * binade := by
  rw [significand]
  split
  · next hlt => exact hlt.trans_le (Nat.le_mul_of_pos_left binade two_pos)
  · rw [two_mul]
    exact Nat.add_lt_add_left (Nat.mod_lt r binade_pos) binade

/-- The next magnitude is one spacing above. -/
theorem units_succ (r : ℕ) : units (r + 1) = units r + Nat.pow 2 (exponent r) := by
  have hlo : exponent r = 0 ∨ binade ≤ significand r + 1 :=
    (exponent_eq_zero_or_le_significand r).imp_right Nat.le_succ_of_le
  have hnext := units_add (exponent r) (significand r + 1) hlo (significand_lt r)
  rw [← Nat.add_assoc, exponent_mul_add_significand, Nat.succ_mul] at hnext
  exact hnext

theorem strictMono_units : StrictMono units :=
  strictMono_nat_of_lt_succ fun r => by
    rw [units_succ]
    exact Nat.lt_add_of_pos_right (Nat.two_pow_pos _)

/-- From the binade of spacing `2 ^ s` on all magnitudes are multiples of it. -/
theorem two_pow_dvd_units {s r : ℕ} (h : s = 0 ∨ (s + 1) * binade ≤ r) :
    Nat.pow 2 s ∣ units r := by
  have hle : s ≤ exponent r := by
    rcases h with rfl | h
    · exact Nat.zero_le _
    · exact Nat.le_sub_one_of_lt ((Nat.le_div_iff_mul_le binade_pos).2 h)
  exact Dvd.dvd.mul_left (pow_dvd_pow 2 hle) _

theorem unitsPerOne_pos : 0 < unitsPerOne := by
  decide +kernel

/-- The magnitude with the given rank. That of infinity is `2 ^ 1024`, the magnitude that
would come next. -/
def magnitude (r : ℕ) : ℚ :=
  units r / unitsPerOne

theorem strictMono_magnitude : StrictMono magnitude := fun _ _ h =>
  div_lt_div_of_pos_right (Nat.cast_lt.2 (strictMono_units h)) (Nat.cast_pos.2 unitsPerOne_pos)

/-- The spacing below infinity is more than one. -/
theorem magnitude_add_one_le {r : ℕ} (h : r < infinityRank) :
    magnitude r + 1 ≤ magnitude infinityRank := by
  have hlast : infinityRank = infinityRank - 1 + 1 := by decide +kernel
  have hspacing : unitsPerOne ≤ Nat.pow 2 (exponent (infinityRank - 1)) := by decide +kernel
  have hunits : units r + unitsPerOne ≤ units infinityRank := by
    rw [hlast, units_succ]
    exact Nat.add_le_add (strictMono_units.monotone (Nat.le_sub_one_of_lt h)) hspacing
  have hone : (0 : ℚ) < unitsPerOne := Nat.cast_pos.2 unitsPerOne_pos
  rw [magnitude, magnitude, div_add_one hone.ne', div_le_div_iff_of_pos_right hone]
  exact_mod_cast hunits

end Binary64

end Calculator
