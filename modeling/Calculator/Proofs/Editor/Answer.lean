import Calculator.Proofs.Expression.Operand
import Calculator.Proofs.Typing.Session

/-!
# The answer as an operand

The last answer is written into an expression without parentheses. Where it does not run
into what stands before it (`AnswerMerges`) the expression has the value that it has with
the answer in parentheses (`evaluate_insertAnswer`), whatever the sign and the decimals of
the answer are.
-/

namespace Calculator

open Buffer (isBareNumber)

/-- The product sign between an operand at the end of the text and one behind it. -/
def junction (t : Text) : Text :=
  if t.getLast?.any fun c => c.isDigit || c == '.' || c == ')' || c == '%' then ['×'] else []

/-- The answer runs into what stands before it: no product sign is written behind a percent
sign or a point, and a minus sign of the answer takes the operand of a sign. Behind the sign of a
factor that makes no difference. -/
def AnswerMerges (t answer : Text) : Prop :=
  t.getLast? = some '%' ∨ t.getLast? = some '.' ∨
    endsWithSign t = true ∧ signsFactor t = false ∧ answer.head? = some '-'

instance (t answer : Text) : Decidable (AnswerMerges t answer) :=
  inferInstanceAs (Decidable (_ ∨ _ ∨ _))

theorem junction_concat (t : Text) (c : Char) :
    junction (t ++ [c]) = if c.isDigit || c == '.' || c == ')' || c == '%' then ['×'] else [] := by
  rw [junction, List.getLast?_concat, Option.any_some]

/-- An answer that does not run into the text is an operand of its own. -/
theorem evaluate_buffer_insertAnswer {t answer : Text} (ht : t ≠ Text.zero)
    (hanswer : isBareNumber answer = true) (hfits : ¬AnswerMerges t answer) :
    evaluate (Buffer.insertAnswer t answer) =
      evaluate (t ++ junction t ++ ('(' :: answer ++ [')'])) := by
  obtain ⟨hpercent, hpoint, hsign⟩ : t.getLast? ≠ some '%' ∧ t.getLast? ≠ some '.' ∧
      (answer.head? = some '-' → endsWithSign t = false ∨ signsFactor t = true) := by
    rw [AnswerMerges, not_or, not_or] at hfits
    refine ⟨hfits.1, hfits.2.1, fun hhead => ?_⟩
    cases hends : endsWithSign t with
    | false => exact Or.inl rfl
    | true => exact Or.inr (Bool.of_not_eq_false fun hnone => hfits.2.2 ⟨hends, hnone, hhead⟩)
  rw [Buffer.insertAnswer, if_neg ht]
  rcases List.eq_nil_or_concat' t with rfl | ⟨t, c, rfl⟩
  · exact evaluate_append_bareNumber hanswer (by simp [OpenEnded]) hsign
  · rw [List.getLast?_concat, Ne, Option.some_inj] at hpercent hpoint
    rw [List.getLast?_concat, Option.any_some, junction_concat]
    by_cases hc : (c.isDigit || c == ')') = true
    · have hjunction : (c.isDigit || c == '.' || c == ')' || c == '%') = true := by
        rcases Bool.or_eq_true_iff.1 hc with h | h <;> simp [h]
      have hopen : OpenEnded (t ++ [c] ++ ['×']) := openEnded_concat.2 (by decide)
      have hnosign : endsWithSign (t ++ [c] ++ ['×']) = false :=
        endsWithSign_of_getLast? (by simp)
      rw [if_pos hc, if_pos hjunction, List.append_cons]
      exact evaluate_append_bareNumber hanswer hopen fun _ => Or.inl hnosign
    · obtain ⟨hdigit, hclosing⟩ : c.isDigit = false ∧ c ≠ ')' := by simpa using hc
      have hjunction : ¬(c.isDigit || c == '.' || c == ')' || c == '%') = true := by
        simp [hdigit, hpoint, hclosing, hpercent]
      have hnumeric : isNumeric c = false := by simp [isNumeric, hdigit, hpoint]
      rw [if_neg hc, if_neg hjunction, List.append_nil]
      exact evaluate_append_bareNumber hanswer
        (openEnded_concat.2 ⟨hnumeric, hpercent, hclosing⟩) hsign

/-- Behind any keys the answer is inserted as one whole operand, unless a result or `0` is
shown, in whose place it comes, or it runs into what stands before it. -/
theorem evaluate_insertAnswer {keys : List Key} (hexecuted : (typed keys).executed = false)
    (hbuffer : (typed keys).buffer ≠ Text.zero)
    (hfits : ¬AnswerMerges (typed keys).buffer (typed keys).lastAnswer) :
    evaluate (typed keys).insertAnswer.buffer =
      evaluate ((typed keys).buffer ++ junction (typed keys).buffer ++
        ('(' :: (typed keys).lastAnswer ++ [')'])) := by
  have hinsert : (typed keys).insertAnswer.buffer =
      Buffer.insertAnswer (typed keys).buffer (typed keys).lastAnswer := by
    change (if (typed keys).executed = true then _ else _) = _
    rw [hexecuted]
    rfl
  rw [hinsert]
  exact evaluate_buffer_insertAnswer hbuffer (coherent_typed keys).isBareNumber_lastAnswer hfits

/-- Behind `2-5=`, clearing and `7-` the answer makes `7--3`, which is `7-(-3)`. -/
theorem evaluate_insertAnswer_of_negative :
    let keys : List Key := [.glyph (.digit 2), .glyph (.operator .minus), .glyph (.digit 5),
      .equals, .clear, .glyph (.digit 7), .glyph (.operator .minus)]
    (typed keys).insertAnswer.buffer = ['7', '-', '-', '3'] ∧
      evaluate ['7', '-', '-', '3'] = evaluate ['7', '-', '(', '-', '3', ')'] := by
  intro keys
  have hstate : typed keys = { buffer := ['7', '-'], lastAnswer := ['-', '3'] } := by
    decide +kernel
  have hinsert : (typed keys).insertAnswer.buffer = ['7', '-', '-', '3'] := by
    rw [hstate]
    decide
  have hexecuted : (typed keys).executed = false := by rw [hstate]; rfl
  have hbuffer : (typed keys).buffer ≠ Text.zero := by rw [hstate]; decide
  have hfits : ¬AnswerMerges (typed keys).buffer (typed keys).lastAnswer := by
    rw [hstate]
    decide
  have hvalue := evaluate_insertAnswer hexecuted hbuffer hfits
  rw [hinsert, hstate] at hvalue
  exact ⟨hinsert, hvalue⟩

/-- Behind `5=`, clearing and `(2)%` the answer makes `(2)%5`, where it is part of the divisor:
the value is 2/1005, and not that of `(2)%×(5)`. -/
theorem not_forall_evaluate_insertAnswer :
    ¬∀ keys : List Key, (typed keys).executed = false → (typed keys).buffer ≠ Text.zero →
      evaluate (typed keys).insertAnswer.buffer =
        evaluate ((typed keys).buffer ++ junction (typed keys).buffer ++
          ('(' :: (typed keys).lastAnswer ++ [')'])) := by
  intro hall
  have hstate := hall [.glyph (.digit 5), .equals, .clear, .group, .glyph (.digit 2), .group,
    .glyph .percent] (by decide +kernel) (by decide +kernel)
  revert hstate
  decide +kernel

end Calculator
