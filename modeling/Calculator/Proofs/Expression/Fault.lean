import Calculator.Expression
import Calculator.Proofs.Postfix.Fault
import Calculator.Proofs.Token.Scan

/-!
# Where a fault comes from

An expression fails while it is scanned, or while it is brought into postfix order,
or while it is reduced, and each stage has faults of its own (`fault_of_evaluate`). Only
the second one knows of groups, so that an expression is unbalanced exactly if its
tokens do not close their groups (`evaluate_eq_unbalanced_iff`).
-/

namespace Calculator

/-- The three stages at which an expression fails. -/
theorem fault_of_evaluate {t : Text} {f : Fault} (h : evaluate t = .error f) :
    expressionTokens t = .error f ∨
      ∃ ts : List Token, expressionTokens t = .ok ts ∧
        (f = .unbalanced ∧ ¬Closes 0 ts ∨ f = .malformed ∨ f = .divisionByZero) := by
  rcases eq_error_of_bind_eq_error h with hscan | ⟨ts, hts, h⟩
  · exact Or.inl hscan
  · refine Or.inr ⟨ts, hts, ?_⟩
    rcases eq_error_of_bind_eq_error h with horder | ⟨out, hout, h⟩
    · exact Or.inl (toPostfix_eq_error_iff.1 horder)
    · rcases eq_error_of_bind_eq_error h with hreduce | ⟨v, -, h⟩
      · exact Or.inr (fault_of_reduce (isParenthesis_of_toPostfix hout) hreduce)
      · split at h
        · cases h
        · cases h; exact Or.inr (Or.inl rfl)

theorem ne_unbalanced_of_expressionTokens {t : Text} {f : Fault}
    (h : expressionTokens t = .error f) : f ≠ .unbalanced := by
  rintro rfl
  rcases Token.fault_of_ofLexemes h with ⟨hf, -⟩ | ⟨c, hf, -⟩ | hf
  · cases hf
  · cases hf
  · cases hf

/-- What fails while it is scanned has no value, for the same reason. -/
theorem evaluate_of_expressionTokens {t : Text} {f : Fault} (h : expressionTokens t = .error f) :
    evaluate t = .error f := by
  rw [evaluate, h]
  rfl

/-- An expression is unbalanced if it can be scanned and its tokens do not close
their groups. -/
theorem evaluate_eq_unbalanced_iff {t : Text} :
    evaluate t = .error .unbalanced ↔
      ∃ ts : List Token, expressionTokens t = .ok ts ∧ ¬Closes 0 ts := by
  constructor
  · intro h
    rcases fault_of_evaluate h with hscan | ⟨ts, hts, ⟨-, hcloses⟩ | hf | hf⟩
    · exact absurd rfl (ne_unbalanced_of_expressionTokens hscan)
    · exact ⟨ts, hts, hcloses⟩
    · cases hf
    · cases hf
  · rintro ⟨ts, hts, hcloses⟩
    rw [evaluate, hts]
    change (toPostfix ts >>= fun ordered => _) = _
    rw [toPostfix_eq_error_iff.2 ⟨rfl, hcloses⟩]
    rfl

end Calculator
