import Calculator.Postfix
import Calculator.Token.Scan

/-!
# Expressions

An expression is evaluated in five steps, each a function of its own: percent
signs become divisions, the spelling becomes canonical, the text is scanned to
tokens, the tokens are brought into postfix order, and the postfix order is
reduced to a value. A value that is not finite is no result.

A percent sign means a division by one hundred of the operand it follows. It is
spelled out in two passes: behind a numeral the quotient is put in parentheses
(`50%` becomes `(50/100)`), behind a closing parenthesis it is written as it is
(`(2+3)%` becomes `(2+3)/100`). The second pass also sees the parentheses that
the first one writes. A percent sign anywhere else stays in the text, where
scanning refuses it.

The canonical spelling has `*` for `×` and `/` for `÷`, and leaves a plus sign
out where it is unary, which is at the start of the text and behind an opening
parenthesis.
-/

namespace Calculator

/-- Spells out each percent sign that follows a literal. -/
def absorbLiteralPercent : List Lexeme → Text
  | [] => []
  | .run r :: .symbol c :: rest =>
      if c = '%' ∧ isLiteral r then
        '(' :: r ++ ['/', '1', '0', '0', ')'] ++ absorbLiteralPercent rest
      else r ++ c :: absorbLiteralPercent rest
  | l :: rest => l.text ++ absorbLiteralPercent rest

/-- Spells out each percent sign that follows a closing parenthesis. -/
def absorbGroupPercent : Text → Text
  | ')' :: '%' :: rest => [')', '/', '1', '0', '0'] ++ absorbGroupPercent rest
  | c :: rest => c :: absorbGroupPercent rest
  | [] => []

/-- Writes the percent signs that follow an operand as divisions. -/
def absorbPercent (t : Text) : Text :=
  absorbGroupPercent (absorbLiteralPercent (lexemes t))

/-- The canonical spelling of an operator character; other characters are
their own. -/
def canonicalChar : Char → Char
  | '×' => '*'
  | '÷' => '/'
  | c => c

/-- Leaves out the plus signs that stand where `due` says an operand is due. -/
def dropUnaryPlus (due : Bool) : Text → Text
  | [] => []
  | c :: rest =>
      if c = '+' ∧ due = true then dropUnaryPlus due rest
      else c :: dropUnaryPlus (c == '(') rest

/-- The canonical spelling of an expression. -/
def canonical (t : Text) : Text :=
  dropUnaryPlus true (t.map canonicalChar)

/-- The tokens of an expression as it is displayed. -/
def expressionTokens (t : Text) : Except Fault (List Token) :=
  scan (canonical (absorbPercent t))

/-- The value of an expression, or the fault that keeps it from having one. -/
def evaluate (t : Text) : Except Fault Float := do
  let tokens ← expressionTokens t
  let ordered ← toPostfix tokens
  let value ← reduce ordered
  if value.isFinite then return value else .error .malformed

end Calculator
