import Calculator.Decimal.Shortest
import Calculator.Operator

/-!
# Tokens

What an expression is made of once its numerals are read: numbers, binary
operators, the unary minus and parentheses. A token knows how tightly it binds
and whether an operand is due after it; the second is what tells the unary
minus from the binary one.
-/

namespace Calculator

/-- A piece of an expression. -/
inductive Token
  | number (value : Float)
  | operator (op : Operator)
  /-- The unary minus. -/
  | negate
  | opening
  | closing
  deriving DecidableEq

namespace Token

/-- How tightly a token holds the operands next to it. The unary minus binds
tightest; numbers and parentheses hold none. -/
def precedence : Token → Nat
  | .operator op => op.precedence
  | .negate => 3
  | .number _ => 0
  | .opening => 0
  | .closing => 0

/-- An operand is due after the token, so that a minus sign there is unary. -/
def operandDue : Token → Bool
  | .number _ => false
  | .closing => false
  | .operator _ => true
  | .negate => true
  | .opening => true

/-- How a token is written in a list of tokens. -/
def text : Token → Text
  | .number value => shortestText value
  | .operator .plus => ['+']
  | .operator .minus => ['-']
  | .operator .times => ['*']
  | .operator .divide => ['/']
  | .negate => ['n', 'e', 'g']
  | .opening => ['(']
  | .closing => [')']

/-- A list of tokens in writing, one space between neighbours. -/
def listText (tokens : List Token) : Text :=
  [' '].intercalate (tokens.map text)

/-- The token a character stands for where `operandDue` says whether an operand
is due. Only the canonical spellings of the operators are known here. -/
def ofSymbol? (operandDue : Bool) : Char → Option Token
  | '(' => some .opening
  | ')' => some .closing
  | '-' => some (if operandDue then .negate else .operator .minus)
  | '+' => some (.operator .plus)
  | '*' => some (.operator .times)
  | '/' => some (.operator .divide)
  | _ => none

end Token

end Calculator
