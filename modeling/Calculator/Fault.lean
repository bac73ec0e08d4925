import Calculator.Text

/-!
# Faults

The ways in which an expression has no value. A fault is a cause and carries
no position: where the cause is visible in the text is a question of its own,
answered by the zone of a report.
-/

namespace Calculator

/-- The reason why an expression has no value. -/
inductive Fault
  /-- A numeral has two points or more. -/
  | decimalPoint
  /-- A character means nothing where it stands; a percent sign that follows
  no operand ends up here too. -/
  | unknownSymbol (c : Char)
  /-- An opening parenthesis is never closed, or a closing one never opened. -/
  | unbalanced
  /-- An empty group, a missing operand or operator, or a value that is not
  finite. -/
  | malformed
  /-- A divisor is zero. -/
  | divisionByZero
  deriving DecidableEq, Repr

namespace Fault

/-- The wording of a fault. -/
def message : Fault → Text
  | .decimalPoint => "point décimal invalide".toList
  | .unknownSymbol c => "symbole inconnu : '".toList ++ c :: ['\'']
  | .unbalanced => "parenthèses non équilibrées".toList
  | .malformed => "expression invalide".toList
  | .divisionByZero => "division par zéro".toList

/-- The fault comes from a percent sign that follows no operand. -/
def isStrayPercent (f : Fault) : Bool :=
  f == .unknownSymbol '%'

end Fault

/-- What succeeds in two steps succeeds in each of them. -/
theorem exists_of_bind_eq_ok {α β : Type} {x : Except Fault α} {f : α → Except Fault β} {b : β}
    (h : (x >>= f) = .ok b) : ∃ a : α, x = .ok a ∧ f a = .ok b := by
  cases x with
  | error e => cases h
  | ok a => exact ⟨a, rfl, h⟩

/-- What fails in two steps fails in the first, or in the second behind it. -/
theorem eq_error_of_bind_eq_error {α β : Type} {x : Except Fault α} {f : α → Except Fault β}
    {fault : Fault} (h : (x >>= f) = .error fault) :
    x = .error fault ∨ ∃ a : α, x = .ok a ∧ f a = .error fault := by
  cases x with
  | error e => cases h; exact Or.inl rfl
  | ok a => exact Or.inr ⟨a, rfl, h⟩

end Calculator
