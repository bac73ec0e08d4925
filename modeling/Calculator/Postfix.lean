import Calculator.Token

/-!
# Postfix order

`toPostfix` brings tokens from infix order into postfix order with a stack of
the operators and parentheses whose operands are not complete yet. An operator
first releases every stacked operator that binds at least as tightly, back to
the innermost open parenthesis. The unary minus does the same, so a minus sign
directly behind another one releases the first before its operand is there.

`reduce` computes the value of tokens in postfix order with a stack of values.
Neither asks where the tokens come from, so both are total on all token lists.
-/

namespace Calculator

/-- An arriving `token` releases the operator `top` of the stack. An open
parenthesis binds less than any operator and is never released. -/
def Token.releases (token top : Token) : Bool :=
  token.precedence ≤ top.precedence

/-- The stacked operators of the innermost open group, and the stack below its
parenthesis; `none` if no group is open. -/
def closeGroup? : List Token → Option (List Token × List Token)
  | [] => none
  | .opening :: below => some ([], below)
  | top :: below => (closeGroup? below).map fun (group, rest) => (top :: group, rest)

/-- The postfix order of the tokens still to come, given the stack. -/
def toPostfixFrom (stack : List Token) : List Token → Except Fault (List Token)
  | [] => if .opening ∈ stack then .error .unbalanced else .ok stack
  | .number value :: rest => do
      let output ← toPostfixFrom stack rest
      return .number value :: output
  | .opening :: rest => toPostfixFrom (.opening :: stack) rest
  | .closing :: rest =>
      match closeGroup? stack with
      | none => .error .unbalanced
      | some (group, below) => do
          let output ← toPostfixFrom below rest
          return group ++ output
  | token :: rest => do
      let output ← toPostfixFrom (token :: stack.dropWhile token.releases) rest
      return stack.takeWhile token.releases ++ output

/-- The tokens in postfix order, without the parentheses. -/
def toPostfix (tokens : List Token) : Except Fault (List Token) :=
  toPostfixFrom [] tokens

/-- Applies one token in postfix order to a stack of values. Both operands are
asked for before a divisor is looked at. -/
def reduceStep : List Float → Token → Except Fault (List Float)
  | stack, .number value => .ok (value :: stack)
  | x :: stack, .negate => .ok (-x :: stack)
  | b :: a :: stack, .operator op => do
      let value ← op.apply a b
      return value :: stack
  | _, .negate => .error .malformed
  | _, .operator _ => .error .malformed
  | _, .opening => .error .unbalanced
  | _, .closing => .error .unbalanced

/-- The value of tokens in postfix order; exactly one value must be left. -/
def reduce (tokens : List Token) : Except Fault Float := do
  match ← tokens.foldlM reduceStep [] with
  | [value] => return value
  | _ => .error .malformed

end Calculator
