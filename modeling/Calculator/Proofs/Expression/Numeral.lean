import Calculator.Grammar
import Calculator.Text.Lexeme

/-!
# Operators and numerals as texts

The characters of an operator and those of a numeral have nothing in common, so
that a numeral is a single lexeme and never holds an operator.
-/

namespace Calculator

theorem Operator.mem_of_ofChar? {c : Char} {op : Operator} (h : ofChar? c = some op) :
    c ∈ ['+', '-', '×', '*', '÷', '/'] := by
  unfold ofChar? at h
  split at h <;> simp_all

theorem Operator.isNumeric_of_ofChar? {c : Char} {op : Operator} (h : ofChar? c = some op) :
    isNumeric c = false := by
  have hmem := mem_of_ofChar? h
  simp only [List.mem_cons, List.not_mem_nil, or_false] at hmem
  rcases hmem with rfl | rfl | rfl | rfl | rfl | rfl <;> rfl

theorem Operator.ne_of_ofChar? {c d : Char} {op : Operator} (h : ofChar? c = some op)
    (hd : d ∉ ['+', '-', '×', '*', '÷', '/']) : c ≠ d := by
  rintro rfl
  exact hd (mem_of_ofChar? h)

theorem isOperator_of_isNumeric {c : Char} (h : isNumeric c = true) : isOperator c = false := by
  cases hop : Operator.ofChar? c with
  | none => rw [isOperator, hop, Option.isSome_none]
  | some op =>
      rw [Operator.isNumeric_of_ofChar? hop] at h
      cases h

namespace IsNumeral

theorem isNumeric {n : Text} {d : Decimal} (h : IsNumeral n d) :
    ∀ c ∈ n, isNumeric c = true :=
  List.all_eq_true.1 h.1

theorem isLiteral {n : Text} {d : Decimal} (h : IsNumeral n d) : isLiteral n = true := by
  rw [← Decimal.isOk_ofRun, h.2]
  rfl

theorem ne_nil {n : Text} {d : Decimal} (h : IsNumeral n d) : n ≠ [] := by
  rintro rfl
  exact absurd h.isLiteral (by decide)

theorem lexemes_eq {n : Text} {d : Decimal} (h : IsNumeral n d) : lexemes n = [.run n] :=
  lexemes_of_numeric h.ne_nil h.isNumeric

theorem not_mem {n : Text} {d : Decimal} (h : IsNumeral n d) {c : Char}
    (hc : Calculator.isNumeric c = false) : c ∉ n := by
  intro hmem
  rw [h.isNumeric c hmem] at hc
  exact absurd hc (by decide)

end IsNumeral

/-- Every literal is the numeral of a number. -/
theorem exists_isNumeral {n : Text} (hn : n.all isNumeric = true) (h : isLiteral n = true) :
    ∃ d : Decimal, IsNumeral n d := by
  rw [← Decimal.isOk_ofRun] at h
  cases hd : Decimal.ofRun n with
  | error f => rw [hd] at h; cases h
  | ok d => exact ⟨d, hn, hd⟩

end Calculator
