import Calculator.Tree

/-!
# Grammars of expressions

Three readings of one grammar with four levels: sums of products of factors,
where a factor is a primary with minus signs before it, and a primary is a
number or a sum in parentheses. Sums and products lean to the left.

`Spells` is the grammar of token lists, with any number of minus signs before a
primary. `Writes` is the grammar of texts, with at most one minus sign and with
a percent sign behind a numeral; both relate what is written to the tree that
is meant. `Typable` is the grammar of the texts that the keys lead to, where any
number of percent signs may follow a primary; it has no trees.
-/

namespace Calculator

/-- The levels of the grammar, from the loosest to the tightest. -/
inductive Level
  | sum
  | product
  | factor
  | primary
  deriving DecidableEq, Repr

/-- The operators of a level: `+` and `-` join products, `×` and `÷` factors. -/
def Operator.level : Operator → Level
  | .plus => .sum
  | .minus => .sum
  | .times => .product
  | .divide => .product

theorem Operator.level_cases (op : Operator) : op.level = .product ∨ op.level = .sum := by
  cases op <;> simp [level]

/-- The tokens spell the tree at the level. -/
inductive Spells : Level → List Token → Tree → Prop
  | number (v : Float) : Spells .primary [.number v] (.leaf v)
  | group {ts : List Token} {t : Tree} :
      Spells .sum ts t → Spells .primary (.opening :: ts ++ [.closing]) t
  | primary {ts : List Token} {t : Tree} : Spells .primary ts t → Spells .factor ts t
  | negate {ts : List Token} {t : Tree} :
      Spells .factor ts t → Spells .factor (.negate :: ts) (.negate t)
  | factor {ts : List Token} {t : Tree} : Spells .factor ts t → Spells .product ts t
  | product {ts : List Token} {t : Tree} : Spells .product ts t → Spells .sum ts t
  | multiply {ts us : List Token} {t u : Tree} {op : Operator} :
      op.level = .product → Spells .product ts t → Spells .factor us u →
        Spells .product (ts ++ .operator op :: us) (.binary op t u)
  | add {ts us : List Token} {t u : Tree} {op : Operator} :
      op.level = .sum → Spells .sum ts t → Spells .product us u →
        Spells .sum (ts ++ .operator op :: us) (.binary op t u)

/-- The text is the numeral of the given number: digits with at most one point
among them. -/
def IsNumeral (n : Text) (d : Decimal) : Prop :=
  n.all isNumeric = true ∧ Decimal.ofRun n = .ok d

/-- One hundred, the divisor of a percentage. -/
def hundred : Float :=
  Decimal.toFloat ⟨100, 0⟩

/-- The text writes the tree at the level. An operator has any of its
spellings, and a percentage is a quotient by one hundred. -/
inductive Writes : Level → Text → Tree → Prop
  | number {n : Text} {d : Decimal} : IsNumeral n d → Writes .primary n (.leaf d.toFloat)
  | percent {n : Text} {d : Decimal} :
      IsNumeral n d →
        Writes .primary (n ++ ['%']) (.binary .divide (.leaf d.toFloat) (.leaf hundred))
  | group {s : Text} {t : Tree} : Writes .sum s t → Writes .primary ('(' :: s ++ [')']) t
  | primary {s : Text} {t : Tree} : Writes .primary s t → Writes .factor s t
  | negate {s : Text} {t : Tree} : Writes .primary s t → Writes .factor ('-' :: s) (.negate t)
  | factor {s : Text} {t : Tree} : Writes .factor s t → Writes .product s t
  | product {s : Text} {t : Tree} : Writes .product s t → Writes .sum s t
  | multiply {r s : Text} {t u : Tree} {op : Operator} {c : Char} :
      op.level = .product → Operator.ofChar? c = some op → Writes .product r t →
        Writes .factor s u → Writes .product (r ++ c :: s) (.binary op t u)
  | add {r s : Text} {t u : Tree} {op : Operator} {c : Char} :
      op.level = .sum → Operator.ofChar? c = some op → Writes .sum r t →
        Writes .product s u → Writes .sum (r ++ c :: s) (.binary op t u)

/-- The keys can lead to the text at the level. Operators have their display
spelling. -/
inductive Typable : Level → Text → Prop
  | number {n : Text} : n.all isNumeric = true → isLiteral n = true → Typable .primary n
  | group {s : Text} : Typable .sum s → Typable .primary ('(' :: s ++ [')'])
  | percent {s : Text} : Typable .primary s → Typable .primary (s ++ ['%'])
  | primary {s : Text} : Typable .primary s → Typable .factor s
  | negate {s : Text} : Typable .primary s → Typable .factor ('-' :: s)
  | factor {s : Text} : Typable .factor s → Typable .product s
  | product {s : Text} : Typable .product s → Typable .sum s
  | multiply {r s : Text} {op : Operator} :
      op.level = .product → Typable .product r → Typable .factor s →
        Typable .product (r ++ op.glyph :: s)
  | add {r s : Text} {op : Operator} :
      op.level = .sum → Typable .sum r → Typable .product s →
        Typable .sum (r ++ op.glyph :: s)

end Calculator
