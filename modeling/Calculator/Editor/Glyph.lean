import Calculator.Operator

/-!
# Glyphs

What a key writes into the buffer: a digit, two or three zeros at once, the
point, an operator or the percent sign. A glyph is named by its text, and
`ofText?` reads the name back; the operators are also known by their canonical
spelling.
-/

namespace Calculator

/-- What is typed into the buffer by one key. -/
inductive Glyph
  /-- A digit; a number above nine is typed as nine. -/
  | digit (n : Nat)
  | doubleZero
  | tripleZero
  | point
  | operator (op : Operator)
  | percent
  deriving DecidableEq, Repr

namespace Glyph

/-- What a glyph writes. -/
def text : Glyph → Text
  | .digit n => [Char.ofNat ('0'.toNat + min n 9)]
  | .doubleZero => ['0', '0']
  | .tripleZero => ['0', '0', '0']
  | .point => ['.']
  | .operator op => [op.glyph]
  | .percent => ['%']

/-- The glyph that a character stands for. -/
def ofChar? (c : Char) : Option Glyph :=
  if c = '.' then some .point
  else if c = '%' then some .percent
  else if c.isDigit then some (.digit (c.toNat - '0'.toNat))
  else (Operator.ofChar? c).map .operator

/-- The glyph with the given name. -/
def ofText? : Text → Option Glyph
  | [c] => ofChar? c
  | ['0', '0'] => some .doubleZero
  | ['0', '0', '0'] => some .tripleZero
  | _ => none

/-- An expression can start with the glyph. -/
def canStart : Glyph → Bool
  | .operator _ => false
  | .percent => false
  | _ => true

/-- The glyph writes zeros only. -/
def isZeros : Glyph → Bool
  | .digit n => n == 0
  | .doubleZero => true
  | .tripleZero => true
  | _ => false

end Glyph

end Calculator
