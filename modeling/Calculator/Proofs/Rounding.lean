import Mathlib
import Calculator.Rounding

/-!
# The nearest integer

Rounding leads to the integer nearest to a quotient, and to the even one of two that are
equally near (`roundHalfEven_nearest`). That fixes the result: an integer within one half of
the quotient is the result, provided that it is even where the distance is one half
(`roundHalfEven_eq_of_even`).
-/

namespace Calculator

variable {num den : ℕ}

/-- The result is within one half of the quotient. -/
theorem abs_roundHalfEven_sub_le (num : ℕ) (hden : 0 < den) :
    |(roundHalfEven num den : ℚ) - num / den| ≤ 1 / 2 := by
  have hpos : (0 : ℚ) < den := Nat.cast_pos.2 hden
  obtain ⟨hle, hge⟩ := roundHalfEven_within num hden
  have habove : 2 * ((roundHalfEven num den : ℚ) * den) ≤ 2 * num + den := by
    exact_mod_cast hle
  have hbelow : 2 * (num : ℚ) ≤ 2 * (roundHalfEven num den * den) + den := by
    exact_mod_cast hge
  have hquotient : (num : ℚ) / den * den = num := div_mul_cancel₀ _ hpos.ne'
  rw [abs_sub_le_iff]
  constructor <;> nlinarith

theorem roundHalfEven_eq_or (num den : ℕ) :
    roundHalfEven num den = num / den ∨ roundHalfEven num den = num / den + 1 := by
  have hmod := Nat.mod_two_eq_zero_or_one (num / den)
  simp only [roundHalfEven]
  split
  · exact Or.inl rfl
  · split
    · exact Or.inr rfl
    · omega

/-- The result is even if it is not nearer than one half. -/
theorem even_roundHalfEven_of_tie (num : ℕ) (hden : 0 < den)
    (h : |(roundHalfEven num den : ℚ) - num / den| = 1 / 2) : Even (roundHalfEven num den) := by
  have hpos : (0 : ℚ) < den := Nat.cast_pos.2 hden
  have hquotient : (num : ℚ) / den * den = num := div_mul_cancel₀ _ hpos.ne'
  have htie : 2 * (roundHalfEven num den * den) = 2 * num + den ∨
      2 * num = 2 * (roundHalfEven num den * den) + den := by
    rcases (abs_eq (by norm_num)).1 h with h | h
    · left
      have hcast : 2 * ((roundHalfEven num den : ℚ) * den) = 2 * num + den := by
        linear_combination (2 * (den : ℚ)) * h + 2 * hquotient
      exact_mod_cast hcast
    · right
      have hcast : 2 * (num : ℚ) = 2 * (roundHalfEven num den * den) + den := by
        linear_combination (-2 * (den : ℚ)) * h - 2 * hquotient
      exact_mod_cast hcast
  refine Nat.even_iff.2 (roundHalfEven_even_of_tie ?_)
  have hdiv : den * (num / den) + num % den = num := Nat.div_add_mod num den
  have hlt : num % den < den := Nat.mod_lt num hden
  have hmul : num / den * den = den * (num / den) := Nat.mul_comm _ _
  rcases roundHalfEven_eq_or num den with hm | hm
  · rw [hm] at htie
    omega
  · rw [hm, Nat.add_mul, Nat.one_mul] at htie
    omega

/-- Two integers are not both nearer than one half. -/
theorem one_le_abs_sub_add {k m : ℕ} (h : k ≠ m) (x : ℚ) : 1 ≤ |k - x| + |m - x| := by
  have hint : (1 : ℤ) ≤ |(k : ℤ) - m| := Int.one_le_abs (sub_ne_zero.2 (by exact_mod_cast h))
  calc (1 : ℚ) ≤ |(k : ℚ) - m| := by exact_mod_cast hint
    _ = |((k : ℚ) - x) - (m - x)| := by rw [sub_sub_sub_cancel_right]
    _ ≤ |k - x| + |m - x| := abs_sub _ _

/-- No integer is nearer to the quotient than the result, which is even if it is not the
only nearest one. -/
theorem roundHalfEven_nearest (num : ℕ) (hden : 0 < den) (k : ℕ) :
    |(roundHalfEven num den : ℚ) - num / den| ≤ |(k : ℚ) - num / den| ∧
      (k ≠ roundHalfEven num den →
        |(roundHalfEven num den : ℚ) - num / den| = |(k : ℚ) - num / den| →
        Even (roundHalfEven num den)) := by
  have hhalf := abs_roundHalfEven_sub_le num hden
  by_cases hk : k = roundHalfEven num den
  · rw [hk]
    exact ⟨le_rfl, fun hne => absurd rfl hne⟩
  · have hone := one_le_abs_sub_add hk ((num : ℚ) / den)
    exact ⟨by linarith, fun _ htie => even_roundHalfEven_of_tie num hden (by linarith)⟩

/-- The same over all integers: a negative one is further away than zero. -/
theorem roundHalfEven_nearest_int (num : ℕ) (hden : 0 < den) (j : ℤ) :
    |(roundHalfEven num den : ℚ) - num / den| ≤ |(j : ℚ) - num / den| ∧
      (j ≠ roundHalfEven num den →
        |(roundHalfEven num den : ℚ) - num / den| = |(j : ℚ) - num / den| →
        Even (roundHalfEven num den)) := by
  rcases le_or_gt 0 j with hj | hj
  · obtain ⟨k, rfl⟩ := Int.eq_ofNat_of_zero_le hj
    exact_mod_cast roundHalfEven_nearest num hden k
  · have hquotient : (0 : ℚ) ≤ num / den := by positivity
    have hnegative : (j : ℚ) < 0 := Int.cast_lt_zero.2 hj
    have hzero := (roundHalfEven_nearest num hden 0).1
    rw [Nat.cast_zero, zero_sub, abs_neg, abs_of_nonneg hquotient] at hzero
    have hfurther : |(roundHalfEven num den : ℚ) - num / den| < |(j : ℚ) - num / den| := by
      rw [abs_of_neg (by linarith : (j : ℚ) - num / den < 0)]
      linarith
    exact ⟨hfurther.le, fun _ htie => absurd htie hfurther.ne⟩

/-- An integer within one half is the result, unless it is odd and another one is as near. -/
theorem roundHalfEven_eq_of_even (hden : 0 < den) {m : ℕ} (hle : |(m : ℚ) - num / den| ≤ 1 / 2)
    (heven : |(m : ℚ) - num / den| = 1 / 2 → Even m) : roundHalfEven num den = m := by
  by_contra hne
  have hhalf := abs_roundHalfEven_sub_le num hden
  have hone := one_le_abs_sub_add hne ((num : ℚ) / den)
  -- both are one half away, so both are even and differ by two at least
  obtain ⟨i, hi⟩ := even_roundHalfEven_of_tie num hden (by linarith)
  obtain ⟨j, hj⟩ := heven (by linarith)
  have htwo : (2 : ℚ) ≤ |(roundHalfEven num den : ℚ) - m| := by
    have hij : (1 : ℤ) ≤ |(i : ℤ) - j| := Int.one_le_abs (by omega)
    have hdouble : ((roundHalfEven num den : ℤ) - m) = 2 * ((i : ℤ) - j) := by omega
    have hint : (2 : ℤ) ≤ |(roundHalfEven num den : ℤ) - m| := by
      rw [hdouble, abs_mul, abs_two]
      omega
    exact_mod_cast hint
  have hdistance := abs_sub ((roundHalfEven num den : ℚ) - num / den) (m - num / den)
  rw [sub_sub_sub_cancel_right] at hdistance
  linarith

end Calculator
