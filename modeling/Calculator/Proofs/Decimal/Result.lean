import Mathlib
import Calculator.Editor.State
import Calculator.Proofs.Binary64.Value
import Calculator.Proofs.Decimal.Stability
import Calculator.Proofs.Decimal.Tidy

/-!
# The text of a result

A decimal number is written without a superfluous digit: digits that do not begin with `0`,
or a single one, and behind a point no more digits than there are places and not `0` as the
last one (`isTrimmed_text`). The text of a result is such a text, with a minus sign before it
if the value is negative and not rounded to zero. It stands for the multiple of `10 ^ -10`
nearest to the exact value, and for the even one of two that are equally near
(`resultText_trimmed_and_nearest`); there is only one such multiple (`RoundsTo.eq`).
-/

namespace Calculator

open Binary64 (exactValue isNegative magnitude rank unitsPerOne)
open Buffer (isBareNumber)

/-- A whole part, perhaps a point behind it and at most `places` digits behind that, of which
the last one is not `0`. -/
inductive IsTrimmed (places : ℕ) : Text → Prop
  | whole {w : Text} : IsWhole w → IsTrimmed places w
  | fraction {w f : Text} {c : Char} : IsWhole w → (∀ x ∈ f, x.isDigit = true) →
      f.length < places → c.isDigit = true → c ≠ '0' → IsTrimmed places (w ++ '.' :: (f ++ [c]))

/-- The number that a bare number stands for. -/
def bareValue : Text → ℚ
  | '-' :: n => -numeralValue n
  | n => numeralValue n

/-- Of the multiples of `10 ^ -places` the one with multiplier `k` is nearest to the number,
and `k` is even if it is not the only such one. -/
structure RoundsTo (q : ℚ) (places : ℕ) (k : ℤ) : Prop where
  nearest (j : ℤ) : |q - k / 10 ^ places| ≤ |q - j / 10 ^ places|
  even_of_tie (j : ℤ) : j ≠ k → |q - k / 10 ^ places| = |q - j / 10 ^ places| → Even k

namespace RoundsTo

variable {q : ℚ} {places : ℕ} {k j : ℤ}

theorem neg (h : RoundsTo q places k) : RoundsTo (-q) places (-k) := by
  have hdistance (j : ℤ) : |-q - (-j : ℤ) / 10 ^ places| = |q - j / 10 ^ places| := by
    rw [Int.cast_neg, neg_div, ← neg_sub', abs_neg]
  refine ⟨fun j => ?_, fun j hj htie => ?_⟩
  · rw [← neg_neg j, hdistance, hdistance]
    exact h.nearest _
  · rw [← neg_neg j, hdistance, hdistance] at htie
    exact (h.even_of_tie _ (fun heq => hj (neg_eq_iff_eq_neg.1 heq)) htie).neg

/-- Between two even multiples stands another one, so that only one multiple is meant. -/
theorem eq (hk : RoundsTo q places k) (hj : RoundsTo q places j) : j = k := by
  by_contra hne
  have hplaces : (10 : ℚ) ^ places ≠ 0 := by positivity
  have htie := (hk.nearest j).antisymm (hj.nearest k)
  obtain ⟨a, rfl⟩ := hk.even_of_tie j hne htie
  obtain ⟨b, rfl⟩ := hj.even_of_tie _ (Ne.symm hne) htie.symm
  have hsum : (b : ℚ) + b ≠ a + a := by exact_mod_cast hne
  push_cast at htie
  rcases abs_eq_abs.1 htie with hsame | hopposite
  · exact hsum ((div_left_inj' hplaces).1 (sub_right_inj.1 hsame)).symm
  · have hmiddle : q = (a + b) / 10 ^ places := by
      field_simp at hopposite ⊢
      linarith
    have hbetween := hk.nearest (a + b)
    push_cast at hbetween
    rw [← hmiddle, sub_self, abs_zero, abs_nonpos_iff, sub_eq_zero, hmiddle,
      div_left_inj' hplaces] at hbetween
    exact hsum (by linarith)

end RoundsTo

section Text

variable {d : Decimal} {f : Text} {c : Char}

theorem last_of_fractionDigits (h : d.fractionDigits = f ++ [c]) : c ≠ '0' :=
  bne_iff_ne.1 (congrArg not (Text.getLast?_dropEndWhile (· == '0') _ c (by
    rw [← Decimal.fractionDigits, h, List.getLast?_concat]
    rfl)))

theorem length_fractionDigits_le (h : 0 < d.places) : d.fractionDigits.length ≤ d.places := by
  have hcut := congrArg List.length (Text.dropEndWhile_append_takeEndWhile (· == '0')
    ((Nat.toDigits 10 (d.mantissa % 10 ^ d.places)).leftpad d.places '0'))
  rw [List.length_append, List.length_leftpad,
    max_eq_left (Decimal.length_toDigits_mod_le d.mantissa h)] at hcut
  exact (Nat.le_add_right _ _).trans hcut.le

/-- No digit of a written number is superfluous. -/
theorem isTrimmed_text (h : 0 < d.places) : IsTrimmed d.places d.text := by
  have hwhole : IsWhole d.wholeDigits := isWhole_toDigits _
  have hdigit (x : Char) (hx : x ∈ d.fractionDigits) : x.isDigit = true :=
    isDigit_of_mem_fractionDigits hx
  have hlength := length_fractionDigits_le h
  unfold Decimal.text
  split
  · exact .whole hwhole
  · rcases List.eq_nil_or_concat' d.fractionDigits with hnil | ⟨f, c, hlast⟩
    · contradiction
    · rw [hlast] at hdigit hlength ⊢
      rw [List.length_append] at hlength
      exact .fraction hwhole (fun x hx => hdigit x (List.mem_append_left _ hx)) hlength
        (hdigit c (by simp)) (last_of_fractionDigits hlast)

end Text

section Value

variable {x : Float}

/-- The magnitude is rounded to the nearest multiple. -/
theorem roundsTo_roundedMagnitude (x : Float) :
    RoundsTo (magnitude (rank x)) resultPlaces (roundedMagnitude x).mantissa := by
  have hplaces : (0 : ℚ) < 10 ^ resultPlaces := by positivity
  have hnearest (j : ℤ) := roundHalfEven_nearest_int
    (Binary64.units (rank x) * Nat.pow 10 resultPlaces) Binary64.unitsPerOne_pos j
  simp only [abs_sub_units] at hnearest
  rw [roundedMagnitude_eq]
  generalize roundHalfEven _ unitsPerOne = m at hnearest ⊢
  refine ⟨fun j => ?_, fun j hj htie => ?_⟩
  · exact le_of_mul_le_mul_right (hnearest j).1 hplaces
  · exact (Int.even_coe_nat m).2 ((hnearest j).2 hj (congrArg (· * 10 ^ resultPlaces) htie))

theorem signed_cases (negative : Bool) (d : Decimal) :
    signed (negative && d.mantissa != 0) d.text = d.text ∧
        (negative = true → d.mantissa = 0) ∨
      signed (negative && d.mantissa != 0) d.text = '-' :: d.text ∧ negative = true ∧
        d.mantissa ≠ 0 := by
  cases negative with
  | false => exact Or.inl ⟨rfl, fun h => absurd h Bool.false_ne_true⟩
  | true =>
      by_cases hzero : d.mantissa = 0
      · rw [hzero]
        exact Or.inl ⟨rfl, fun _ => rfl⟩
      · rw [bne_iff_ne.2 hzero]
        exact Or.inr ⟨rfl, rfl, hzero⟩

/-- The sign is shown exactly if the value is negative and not rounded to zero. -/
theorem resultText_cases (hx : x.isFinite = true) :
    resultText x = (roundedMagnitude x).text ∧
        (isNegative x = true → (roundedMagnitude x).mantissa = 0) ∨
      resultText x = '-' :: (roundedMagnitude x).text ∧ isNegative x = true ∧
        (roundedMagnitude x).mantissa ≠ 0 := by
  rw [resultText_eq hx]
  exact signed_cases _ _

theorem numeralValue_text_roundedMagnitude (x : Float) :
    numeralValue (roundedMagnitude x).text =
      (roundedMagnitude x).mantissa / 10 ^ resultPlaces := by
  rw [Decimal.numeralValue_text, Decimal.value]
  rfl

theorem bareValue_of_isPlainNumber {n : Text} (h : IsPlainNumber n) :
    bareValue n = numeralValue n := by
  obtain ⟨c, rest, rfl, hc⟩ := h.exists_cons
  rw [bareValue]
  exact fun n heq => ne_minus_of_isDigit hc (List.head_eq_of_cons_eq heq)

/-- The text of a result stands for the rounded value, also where the sign is left away. -/
theorem exists_bareValue_resultText (hx : x.isFinite = true) :
    ∃ k : ℤ, bareValue (resultText x) = k / 10 ^ resultPlaces ∧
      RoundsTo (exactValue x) resultPlaces k := by
  have hrounds := roundsTo_roundedMagnitude x
  have hvalue := numeralValue_text_roundedMagnitude x
  have hexact := Binary64.exactValue_eq hx
  rcases resultText_cases hx with ⟨htext, hzero⟩ | ⟨htext, hnegative, -⟩
  · rw [htext, bareValue_of_isPlainNumber (isPlainNumber_text _), hvalue]
    cases hnegative : isNegative x with
    | false =>
        rw [hexact, hnegative]
        exact ⟨_, by rw [Int.cast_natCast], hrounds⟩
    | true =>
        rw [hexact, hnegative]
        refine ⟨_, ?_, hrounds.neg⟩
        rw [hzero hnegative, Nat.cast_zero, Nat.cast_zero, neg_zero, Int.cast_zero]
  · rw [htext, hexact, hnegative, bareValue, hvalue]
    exact ⟨_, by rw [Int.cast_neg, Int.cast_natCast, neg_div], hrounds.neg⟩

/-- A value that is rounded to zero has no sign. -/
theorem resultText_ne_minus_zero (hx : x.isFinite = true) : resultText x ≠ ['-', '0'] := by
  intro hminus
  rcases resultText_cases hx with ⟨htext, -⟩ | ⟨htext, -, hne⟩
  · obtain ⟨c, rest, hcons, hc⟩ := (isPlainNumber_text (roundedMagnitude x)).exists_cons
    rw [htext, hcons] at hminus
    exact ne_minus_of_isDigit hc (List.head_eq_of_cons_eq hminus)
  · have hvalue := numeralValue_text_roundedMagnitude x
    have hzero : numeralValue ['0'] = 0 :=
      (numeralValue_eq_zero_iff (List.forall_mem_singleton.2 rfl)).2 (by simp)
    rw [htext] at hminus
    rw [List.tail_eq_of_cons_eq hminus, hzero, eq_comm, div_eq_zero_iff, Nat.cast_eq_zero] at hvalue
    exact hne (hvalue.resolve_right (pow_ne_zero _ (by norm_num)))

end Value

/-- A buffer that is a number by itself has no preview, and its sign can be changed. -/
theorem Editor.preview_and_toggleSign {e : Editor} (h : isBareNumber e.buffer = true) :
    e.preview = none ∧ e.toggleSign.buffer = Buffer.toggleSign e.buffer := by
  constructor
  · unfold Editor.preview
    split
    · rw [if_pos h]
    · rfl
  · unfold Editor.toggleSign
    split
    · rfl
    · rw [if_pos h]

/-- The text of a finite value is the multiple of `10 ^ -10` nearest to it, the even one of two
that are equally near, written without a superfluous digit or sign. The editor takes it for a
number by itself. -/
theorem resultText_trimmed_and_nearest {x : Float} (hx : x.isFinite = true) :
    (∃ n : Text, IsTrimmed 10 n ∧ (resultText x = n ∨ resultText x = '-' :: n)) ∧
      resultText x ≠ ['-', '0'] ∧
      (∃ k : ℤ, bareValue (resultText x) = k / 10 ^ 10 ∧
        ∀ j : ℤ, RoundsTo (exactValue x) 10 j ↔ j = k) ∧
      isBareNumber (resultText x) = true ∧
      ∀ e : Editor, e.buffer = resultText x →
        e.preview = none ∧ e.toggleSign.buffer = Buffer.toggleSign (resultText x) := by
  have hbare := isBareNumber_resultText hx
  obtain ⟨k, hvalue, hrounds⟩ := exists_bareValue_resultText hx
  have hmultiple (j : ℤ) : RoundsTo (exactValue x) resultPlaces j ↔ j = k :=
    ⟨hrounds.eq, fun heq => heq ▸ hrounds⟩
  have htrimmed : IsTrimmed 10 (roundedMagnitude x).text :=
    isTrimmed_text (d := roundedMagnitude x) (Nat.succ_pos 9)
  refine ⟨⟨_, htrimmed, ?_⟩, resultText_ne_minus_zero hx, ⟨k, hvalue, hmultiple⟩, hbare,
    fun e he => ?_⟩
  · exact (resultText_cases hx).imp And.left And.left
  · rw [← he] at hbare ⊢
    exact Editor.preview_and_toggleSign hbare

/-- The binary64 number nearest to `-0.1` is no multiple of `10 ^ -10`. -/
theorem resultText_of_negative_tenth :
    (-0.1 : Float).isFinite = true ∧ isBareNumber (resultText (-0.1)) = true ∧
      ∃ k : ℤ, bareValue (resultText (-0.1)) = k / 10 ^ 10 ∧
        ∀ j : ℤ, RoundsTo (exactValue (-0.1)) 10 j ↔ j = k := by
  have hfinite : (-0.1 : Float).isFinite = true := by decide +kernel
  obtain ⟨-, -, hvalue, hbare, -⟩ := resultText_trimmed_and_nearest hfinite
  exact ⟨hfinite, hbare, hvalue⟩

end Calculator
