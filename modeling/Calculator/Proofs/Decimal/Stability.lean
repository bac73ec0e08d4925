import Mathlib
import Calculator.Proofs.Decimal.Reading

/-!
# Results that are entered again

The text of a result is read to the magnitude nearest to the decimal number it shows. That
magnitude is at most as far from it as the one that was shown, which is within half a unit of
the last place, so that rounding it leads to the same decimal number again
(`roundHalfEven_units_toFloat`). Where it is halfway between two decimal numbers, so was the
magnitude that was shown, and both go to the even one of the two.

Hence a result that is entered is a result with the same text (`exists_evaluate_resultText`).
-/

namespace Calculator

open Binary64 (rank isNegative magnitude units infinityRank unitsPerOne)

variable {x : Float}

theorem roundedMagnitude_eq (x : Float) : roundedMagnitude x =
    ⟨roundHalfEven (units (rank x) * Nat.pow 10 resultPlaces) unitsPerOne, resultPlaces⟩ := by
  rw [roundedMagnitude]

theorem resultText_eq (hx : x.isFinite = true) : resultText x =
    signed (isNegative x && (roundedMagnitude x).mantissa != 0) (roundedMagnitude x).text := by
  rw [resultText, if_pos hx]

/-- The distance between a magnitude and a decimal number, in units of the last place. -/
theorem abs_sub_units (n : ℚ) (r : ℕ) :
    |n - (units r * Nat.pow 10 resultPlaces : ℕ) / unitsPerOne| =
      |magnitude r - n / 10 ^ resultPlaces| * 10 ^ resultPlaces := by
  have hplaces : (0 : ℚ) < 10 ^ resultPlaces := by positivity
  have hscaled : ((units r * Nat.pow 10 resultPlaces : ℕ) : ℚ) / unitsPerOne =
      magnitude r * 10 ^ resultPlaces := by
    rw [Nat.cast_mul, Nat.pow_eq, Nat.cast_pow, Nat.cast_ofNat, magnitude, div_mul_eq_mul_div]
  calc |n - (units r * Nat.pow 10 resultPlaces : ℕ) / unitsPerOne|
      = |magnitude r * 10 ^ resultPlaces - n| := by rw [hscaled, abs_sub_comm]
    _ = |(magnitude r - n / 10 ^ resultPlaces) * 10 ^ resultPlaces| := by
      rw [sub_mul, div_mul_cancel₀ _ hplaces.ne']
    _ = |magnitude r - n / 10 ^ resultPlaces| * 10 ^ resultPlaces := by
      rw [abs_mul, abs_of_pos hplaces]

section ReadAgain

variable {d : Decimal} {m r : ℕ} (hd : d.value = m / 10 ^ resultPlaces) (hr : r < infinityRank)
  (hm : roundHalfEven (units r * Nat.pow 10 resultPlaces) unitsPerOne = m)

include hm in
theorem abs_sub_units_le :
    |(m : ℚ) - (units r * Nat.pow 10 resultPlaces : ℕ) / unitsPerOne| ≤ 1 / 2 :=
  hm ▸ abs_roundHalfEven_sub_le _ Binary64.unitsPerOne_pos

include hd hr

/-- No magnitude is nearer to the decimal number than the one it is read to. -/
theorem abs_sub_units_toFloat_le :
    |(m : ℚ) - (units (rank d.toFloat) * Nat.pow 10 resultPlaces : ℕ) / unitsPerOne| ≤
      |(m : ℚ) - (units r * Nat.pow 10 resultPlaces : ℕ) / unitsPerOne| := by
  have hnearest := d.isNearest_toFloat.nearest r hr.le
  rw [hd] at hnearest
  rw [abs_sub_units, abs_sub_units]
  exact mul_le_mul_of_nonneg_right hnearest (by positivity)

include hm

/-- Rounding the magnitude that is read leads to the decimal number that was rounded to. -/
theorem roundHalfEven_units_toFloat :
    roundHalfEven (units (rank d.toFloat) * Nat.pow 10 resultPlaces) unitsPerOne = m := by
  have hhalf := abs_sub_units_le hm
  have hle := abs_sub_units_toFloat_le hd hr
  refine roundHalfEven_eq_of_even Binary64.unitsPerOne_pos (hle.trans hhalf) fun htie => ?_
  -- on a tie the magnitude that was rounded is on a tie as well, and so it went to the even one
  have hboth := hhalf.antisymm (htie.symm.le.trans hle)
  rw [← hm] at hboth ⊢
  exact even_roundHalfEven_of_tie _ Binary64.unitsPerOne_pos hboth

/-- A decimal number that a finite magnitude is rounded to is not read to infinity. -/
theorem isFinite_toFloat : d.toFloat.isFinite = true := by
  rw [Binary64.isFinite_iff_rank_lt]
  by_contra hnot
  have htop := d.isNearest_toFloat.le_infinityRank.antisymm (not_lt.1 hnot)
  have hhalf := abs_sub_units_le hm
  have hle := (abs_sub_units_toFloat_le hd hr).trans hhalf
  have hgap := Binary64.magnitude_add_one_le hr
  rw [htop, abs_sub_units] at hle
  rw [abs_sub_units] at hhalf
  have hplaces : (2 : ℚ) ≤ 10 ^ resultPlaces := by norm_num [resultPlaces]
  have hinfinite := mul_le_mul_of_nonneg_left hplaces
    (abs_nonneg (magnitude infinityRank - m / 10 ^ resultPlaces))
  have hfinite := mul_le_mul_of_nonneg_left hplaces
    (abs_nonneg (magnitude r - m / 10 ^ resultPlaces))
  have habove := le_abs_self (magnitude infinityRank - m / 10 ^ resultPlaces)
  have hbelow := neg_abs_le (magnitude r - m / 10 ^ resultPlaces)
  linarith

end ReadAgain

/-- The text of a result is read to a finite number that is rounded to the same decimal number. -/
theorem exists_isNumeral_roundedMagnitude (hx : x.isFinite = true) :
    ∃ d : Decimal, IsNumeral (roundedMagnitude x).text d ∧ d.toFloat.isFinite = true ∧
      roundedMagnitude d.toFloat = roundedMagnitude x := by
  obtain ⟨d, hd⟩ := (isPlainNumber_text (roundedMagnitude x)).exists_isNumeral
  have hvalue := (Decimal.value_of_ofRun hd.2).trans (roundedMagnitude x).numeralValue_text
  have hrank := Binary64.isFinite_iff_rank_lt.1 hx
  refine ⟨d, hd, ?_⟩
  rw [roundedMagnitude_eq x] at hvalue ⊢
  generalize hm : roundHalfEven (units (rank x) * Nat.pow 10 resultPlaces) unitsPerOne = m
    at hvalue ⊢
  refine ⟨isFinite_toFloat hvalue hrank hm, ?_⟩
  rw [roundedMagnitude_eq, roundHalfEven_units_toFloat hvalue hrank hm]

/-- A result that is entered has a value that is shown in the same way. -/
theorem exists_evaluate_resultText (hx : x.isFinite = true) :
    ∃ w : Float, evaluate (resultText x) = .ok w ∧ w.isFinite = true ∧
      resultText w = resultText x := by
  obtain ⟨d, hd, hfinite, hrounded⟩ := exists_isNumeral_roundedMagnitude hx
  rw [resultText_eq hx]
  cases hsign : isNegative x && (roundedMagnitude x).mantissa != 0 with
  | false =>
      refine ⟨d.toFloat, ?_, hfinite, ?_⟩
      · rw [signed, if_neg Bool.false_ne_true, evaluate_plain hd, if_pos hfinite]
      · rw [resultText_eq hfinite, hrounded, d.isNegative_toFloat, Bool.false_and]
  | true =>
      have hnegated : (-d.toFloat).isFinite = true := (Binary64.isFinite_neg _).trans hfinite
      have hsame : roundedMagnitude (-d.toFloat) = roundedMagnitude x := by
        rw [← hrounded, roundedMagnitude_eq, roundedMagnitude_eq d.toFloat,
          Binary64.rank_neg hfinite]
      refine ⟨-d.toFloat, ?_, hnegated, ?_⟩
      · rw [signed, if_pos rfl, evaluate_negated hd, if_pos hfinite]
      · rw [resultText_eq hnegated, hsame, Binary64.isNegative_neg hfinite, d.isNegative_toFloat,
          Bool.not_false, Bool.true_and, (Bool.and_eq_true_iff.1 hsign).2]

/-- Every result stands when it is entered again, and every number of an expression is the one
that its numeral stands for, rounded to the nearest binary64 magnitude and to the even one of two
that are equally near. -/
theorem evaluate_resultText_and_readsTo :
    (∀ x : Float, x.isFinite = true → ∃ w : Float, evaluate (resultText x) = .ok w ∧
      w.isFinite = true ∧ resultText w = resultText x) ∧
      ∀ (t : Text) (ts : List Token), expressionTokens t = .ok ts →
        List.Forall₂ ReadsTo (runs (canonical (absorbPercent t))) (ts.filterMap Token.number?) :=
  ⟨fun _ hx => exists_evaluate_resultText hx, fun _ _ ht => readsTo_of_expressionTokens ht⟩

/-- The sum of 0.1 and 0.2 is shown as 0.3 and so is the number that this is read to; the numbers
of `12.5%+7` are those of its numerals and the divisor of the percentage. -/
theorem evaluate_text_of_three_tenths :
    (∃ w : Float, evaluate ['0', '.', '3'] = .ok w ∧ w.isFinite = true ∧
      resultText w = ['0', '.', '3']) ∧
      List.Forall₂ ReadsTo [['1', '2', '.', '5'], ['1', '0', '0'], ['7']] [12.5, 100, 7] := by
  have hfinite : (0.1 + 0.2 : Float).isFinite = true := by decide +kernel
  have htext : resultText (0.1 + 0.2) = ['0', '.', '3'] := by decide +kernel
  have htokens : expressionTokens ['1', '2', '.', '5', '%', '+', '7'] =
      .ok [.opening, .number 12.5, .operator .divide, .number 100, .closing, .operator .plus,
        .number 7] := by decide +kernel
  have hruns : runs (canonical (absorbPercent ['1', '2', '.', '5', '%', '+', '7'])) =
      [['1', '2', '.', '5'], ['1', '0', '0'], ['7']] := by decide +kernel
  have hshown := evaluate_resultText_and_readsTo.1 (0.1 + 0.2) hfinite
  have hread := evaluate_resultText_and_readsTo.2 _ _ htokens
  rw [htext] at hshown
  rw [hruns] at hread
  exact ⟨hshown, hread⟩

end Calculator
