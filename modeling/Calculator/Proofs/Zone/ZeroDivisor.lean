import Mathlib
import Calculator.Proofs.Decimal.Reading
import Calculator.Proofs.Decimal.Tidy
import Calculator.Proofs.Expression.Points
import Calculator.Proofs.Zone.First

/-!
# The zone of a division by zero

Where a division by zero is shown, a division sign is marked together with a zero behind it.
That zero is the first digit of a numeral, and the numeral reads as a number
(`isNumeral_of_locate_divisionByZero`): what follows the sign is the whole run of digits and
points, and the scanner has read it. The number is zero if no other digit than `0` is in the
run. A run without superfluous zeros is the zero itself.
-/

namespace Calculator

variable {t : Text} {z : Zone}

/-- An expression that divides by zero is scanned. -/
theorem exists_tokens_of_divisionByZero (h : evaluate t = .error .divisionByZero) :
    ∃ ts : List Token, expressionTokens t = .ok ts := by
  rcases fault_of_evaluate h with hscan | ⟨ts, hts, -⟩
  · rcases Token.fault_of_ofLexemes hscan with ⟨hf, -⟩ | ⟨c, hf, -⟩ | hf
    · cases hf
    · cases hf
    · cases hf
  · exact ⟨ts, hts⟩

/-- What the rule accepts is a division sign and a zero that no point follows. -/
theorem exists_cons_of_zeroDivisorWidth {previous : Option Char} {s : Text}
    (h : 0 < zeroDivisorWidth previous s) :
    zeroDivisorWidth previous s = 2 ∧ ∃ (c : Char) (rest : Text), s = c :: '0' :: rest ∧
      Operator.ofChar? c = some .divide ∧ rest.head? ≠ some '.' := by
  unfold zeroDivisorWidth at h ⊢
  split at h
  · next c rest =>
      split at h
      · next hc => exact ⟨if_pos hc, c, rest, rfl, hc⟩
      · cases h
  · cases h

/-- A tidy numeral that starts with `0` has a point behind it or nothing. -/
theorem IsTidy.eq_zero {s : Text} (h : IsTidy ('0' :: s)) (hs : s.head? ≠ some '.') : s = [] := by
  generalize ht : '0' :: s = r at h
  cases h with
  | whole hw =>
      cases hw with
      | zero => exact List.tail_eq_of_cons_eq ht
      | digits _ hne _ => exact absurd (List.head_eq_of_cons_eq ht).symm hne
  | point hw _ =>
      cases hw with
      | zero =>
          rw [List.tail_eq_of_cons_eq ht] at hs
          exact absurd rfl hs
      | digits _ hne _ => exact absurd (List.head_eq_of_cons_eq ht).symm hne

/-- The zone of a division by zero is a division sign and the first digit of the numeral behind
it. The numeral stands for zero exactly if it has no other digit than `0`, which is so if no
numeral of the text has a superfluous zero in front. -/
theorem isNumeral_of_locate_divisionByZero (h : evaluate t = .error .divisionByZero)
    (hz : locate t .divisionByZero = some z) :
    ∃ (c : Char) (r v : Text) (d : Decimal),
      t = z.before ++ c :: (r ++ v) ∧ z.marked = [c, '0'] ∧ r.head? = some '0' ∧
      Operator.ofChar? c = some .divide ∧ IsNumeral r d ∧ (∀ x ∈ v.head?, isNumeric x = false) ∧
      (numeralValue r = 0 ↔ ∀ x ∈ r, x = '0' ∨ x = '.') ∧
      ((d.toFloat == 0.0) = true ↔ numeralValue r ≤ 1 / 2 ^ 1075) ∧
      ((∀ q ∈ runs t, IsTidy q) → r = ['0']) := by
  obtain ⟨ts, hts⟩ := exists_tokens_of_divisionByZero h
  have htext : z.before ++ (z.marked ++ z.after) = t := by
    rw [← List.append_assoc]
    exact text_of_locate hz
  obtain ⟨-, haccepts, hmarked⟩ := Zone.isFirst_of_first? (a := []) hz
  obtain ⟨hwidth, c, rest, hcons, hc, hpoint⟩ := exists_cons_of_zeroDivisorWidth haccepts
  obtain ⟨s, v, rfl, hs, hv⟩ := exists_cut_head rest
  rw [hwidth, hcons] at hmarked
  rw [hcons, ← List.cons_append] at htext
  have hr : ∀ x ∈ '0' :: s, isNumeric x = true := List.forall_mem_cons.2 ⟨rfl, hs⟩
  have hmem : '0' :: s ∈ runs t := by
    rw [← htext, runs_append_symbol (Operator.isNumeric_of_ofChar? hc), runs_append_of_head hv,
      runs_of_numeric (List.cons_ne_nil _ _) hr]
    simp
  have hliteral : isLiteral ('0' :: s) = true := by
    rw [isLiteral, Bool.and_eq_true, decide_eq_true_eq]
    exact ⟨pointsApart_of_expressionTokens hts _ hmem, rfl⟩
  obtain ⟨d, hd⟩ := exists_isNumeral (List.all_eq_true.2 hr) hliteral
  refine ⟨c, '0' :: s, v, d, htext.symm, hmarked, rfl, hc, hd, hv, numeralValue_eq_zero_iff hr, ?_,
    fun htidy => ?_⟩
  · rw [d.toFloat_beq_zero_iff, Decimal.value_of_ofRun hd.2]
  · rw [(htidy _ hmem).eq_zero fun hhead => hpoint ?_]
    rw [List.head?_append, hhead]
    rfl

/-- `1÷0.5+5÷0` divides by a half first. -/
theorem exists_locate_behind_half :
    evaluate ['1', '÷', '0', '.', '5', '+', '5', '÷', '0'] = .error .divisionByZero ∧
      ∃ z : Zone, locate ['1', '÷', '0', '.', '5', '+', '5', '÷', '0'] .divisionByZero = some z ∧
        ∃ (c : Char) (v : Text),
          ['1', '÷', '0', '.', '5', '+', '5', '÷', '0'] = z.before ++ c :: ('0' :: v) ∧
            z.marked = [c, '0'] ∧ ∀ x ∈ v.head?, isNumeric x = false := by
  have hfault :
      evaluate ['1', '÷', '0', '.', '5', '+', '5', '÷', '0'] = .error .divisionByZero := by
    decide +kernel
  have hzone : locate ['1', '÷', '0', '.', '5', '+', '5', '÷', '0'] .divisionByZero =
      some ⟨['1', '÷', '0', '.', '5', '+', '5'], ['÷', '0'], []⟩ := rfl
  have hruns : runs ['1', '÷', '0', '.', '5', '+', '5', '÷', '0'] =
      [['1'], ['0', '.', '5'], ['5'], ['0']] := rfl
  have htidy : ∀ q ∈ runs ['1', '÷', '0', '.', '5', '+', '5', '÷', '0'], IsTidy q := by
    simp only [hruns, List.forall_mem_cons]
    exact ⟨.whole (.digits rfl (by decide) (List.forall_mem_nil _)),
      .point .zero (List.forall_mem_singleton.2 rfl),
      .whole (.digits rfl (by decide) (List.forall_mem_nil _)), .whole .zero,
      List.forall_mem_nil _⟩
  obtain ⟨c, r, v, d, htext, hmarked, -, -, -, hv, -, -, hzero⟩ :=
    isNumeral_of_locate_divisionByZero hfault hzone
  rw [hzero htidy] at htext
  exact ⟨hfault, _, hzone, c, v, htext, hmarked, hv⟩

/-- In `1÷05+1÷0` the zero in front of the first divisor is marked, which is five. -/
theorem not_forall_zero_of_locate_divisionByZero :
    ¬∀ (t : Text) (z : Zone), evaluate t = .error .divisionByZero →
      locate t .divisionByZero = some z →
      ∀ (c : Char) (r v : Text), t = z.before ++ c :: (r ++ v) →
        (∀ x ∈ r, isNumeric x = true) → (∀ x ∈ v.head?, isNumeric x = false) →
        numeralValue r = 0 ∨
          ∃ d : Decimal, Decimal.ofRun r = .ok d ∧ (d.toFloat == 0.0) = true := by
  intro hall
  have hfault : evaluate ['1', '÷', '0', '5', '+', '1', '÷', '0'] = .error .divisionByZero := by
    decide +kernel
  have hzone : locate ['1', '÷', '0', '5', '+', '1', '÷', '0'] .divisionByZero =
      some ⟨['1'], ['÷', '0'], ['5', '+', '1', '÷', '0']⟩ := rfl
  have hnumeric : ∀ x ∈ ['0', '5'], isNumeric x = true := List.all_eq_true.1 rfl
  have hplus : ∀ x ∈ ['+', '1', '÷', '0'].head?, isNumeric x = false := by
    rintro x ⟨⟩
    rfl
  rcases hall _ _ hfault hzone '÷' ['0', '5'] ['+', '1', '÷', '0'] rfl hnumeric hplus with
    hzero | ⟨d, hd, hzero⟩
  · have hfive := (numeralValue_eq_zero_iff hnumeric).1 hzero '5' (by simp)
    simp at hfive
  · cases hd
    revert hzero
    decide +kernel

end Calculator
