import Calculator.Token

/-!
# Trees

An arithmetic expression as a tree, apart from any way of writing it down. A
tree has a value, computed from the leaves upwards with the operations of
binary64, and an order of its tokens in which each operator follows its
operands. Whether some divisor in it is zero is a question of its own, so that
`value` need not answer it.
-/

namespace Calculator

/-- An arithmetic expression. -/
inductive Tree
  | leaf (value : Float)
  | negate (operand : Tree)
  | binary (op : Operator) (left right : Tree)

namespace Tree

/-- The value of a tree, with every division carried out. -/
def value : Tree → Float
  | .leaf v => v
  | .negate t => -t.value
  | .binary op left right => op.compute left.value right.value

/-- Some division of the tree has a divisor equal to zero. -/
def hasZeroDivisor : Tree → Bool
  | .leaf _ => false
  | .negate t => t.hasZeroDivisor
  | .binary op left right =>
      left.hasZeroDivisor || right.hasZeroDivisor || (op = .divide && right.value == 0.0)

/-- The tokens of a tree, each operator behind its operands. -/
def postorder : Tree → List Token
  | .leaf v => [.number v]
  | .negate t => t.postorder ++ [.negate]
  | .binary op left right => left.postorder ++ right.postorder ++ [.operator op]

/-- The value of a tree, or the fault of a division by zero in it. -/
def outcome (t : Tree) : Except Fault Float :=
  if t.hasZeroDivisor then .error .divisionByZero else .ok t.value

end Tree

end Calculator
