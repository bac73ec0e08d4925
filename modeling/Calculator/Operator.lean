import Calculator.Fault

/-!
# Operators

The four binary operators, how they are written and what they compute.
Multiplication and division have two spellings, one for display and one from
the keyboard; `ofChar?` reads both.
-/

namespace Calculator

/-- A binary operator. -/
inductive Operator
  | plus
  | minus
  | times
  | divide
  deriving DecidableEq, Repr

namespace Operator

/-- The character an operator is displayed with. -/
def glyph : Operator → Char
  | .plus => '+'
  | .minus => '-'
  | .times => '×'
  | .divide => '÷'

/-- The operator a character stands for, in either spelling. -/
def ofChar? : Char → Option Operator
  | '+' => some .plus
  | '-' => some .minus
  | '×' => some .times
  | '*' => some .times
  | '÷' => some .divide
  | '/' => some .divide
  | _ => none

/-- How tightly an operator binds. -/
def precedence : Operator → Nat
  | .plus => 1
  | .minus => 1
  | .times => 2
  | .divide => 2

/-- What an operation computes in binary64 arithmetic. -/
def compute : Operator → Float → Float → Float
  | .plus, a, b => a + b
  | .minus, a, b => a - b
  | .times, a, b => a * b
  | .divide, a, b => a / b

/-- The value of an operation. A divisor equal to zero, of either sign, is
refused. -/
def apply (op : Operator) (a b : Float) : Except Fault Float :=
  if op = .divide ∧ b == 0.0 then .error .divisionByZero else .ok (op.compute a b)

@[simp] theorem ofChar?_glyph (op : Operator) : ofChar? op.glyph = some op := by
  cases op <;> rfl

/-- A division has two spellings. -/
theorem ofChar?_eq_divide_iff {c : Char} :
    ofChar? c = some .divide ↔ c = '÷' ∨ c = '/' := by
  constructor
  · intro h
    unfold ofChar? at h
    split at h <;> simp_all
  · rintro (rfl | rfl)
    · rfl
    · rfl

end Operator

/-- The character is an operator in one of its spellings. -/
def isOperator (c : Char) : Bool :=
  (Operator.ofChar? c).isSome

@[simp] theorem isOperator_glyph (op : Operator) : isOperator op.glyph = true := by
  cases op <;> rfl

end Calculator
