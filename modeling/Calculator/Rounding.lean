/-!
# Rounding to the nearest integer

`roundHalfEven num den` is the integer nearest to the quotient of two natural
numbers, and a quotient halfway between two integers goes to the even one. All
rounding of the calculator, binary and decimal, goes through it.

The two laws that fix it: the result is within half a unit of the quotient
(`roundHalfEven_within`), and on a tie it is even (`roundHalfEven_even_of_tie`).
-/

namespace Calculator

/-- The integer nearest to `num / den`; of two equally near, the even one. -/
def roundHalfEven (num den : Nat) : Nat :=
  let q := num / den
  let r := num % den
  if 2 * r < den then q else if den < 2 * r then q + 1 else q + q % 2

/-- The result is at most half a unit away from the quotient, on either side. -/
theorem roundHalfEven_within (num : Nat) {den : Nat} (h : 0 < den) :
    2 * (roundHalfEven num den * den) ≤ 2 * num + den ∧
      2 * num ≤ 2 * (roundHalfEven num den * den) + den := by
  have hdiv : den * (num / den) + num % den = num := Nat.div_add_mod num den
  have hlt : num % den < den := Nat.mod_lt num h
  have hmul : num / den * den = den * (num / den) := Nat.mul_comm _ _
  have hcase : num / den % 2 = 0 ∨ num / den % 2 = 1 := Nat.mod_two_eq_zero_or_one _
  simp only [roundHalfEven]
  split
  · omega
  · split
    · rw [Nat.add_mul]; omega
    · rw [Nat.add_mul]
      rcases hcase with hq | hq <;> rw [hq] <;> omega

/-- A quotient halfway between two integers goes to the even one. -/
theorem roundHalfEven_even_of_tie {num den : Nat} (h : 2 * (num % den) = den) :
    roundHalfEven num den % 2 = 0 := by
  simp only [roundHalfEven]
  rw [if_neg (by omega), if_neg (by omega)]
  omega

end Calculator
