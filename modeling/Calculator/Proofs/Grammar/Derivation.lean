import Mathlib.Logic.Function.Iterate
import Calculator.Grammar

/-!
# Derivations

A derivation of the grammar of token lists as a piece of data. Its leaves are its tokens, its
shape is the tree that is meant, and every spelled tree comes from a derivation
(`spells_iff_exists_derivation`).

Minus signs are brought into postfix order from the left. A sign directly before another one
does not wait for the operand behind it: it is given out at once and negates the operand that
is complete by then, which is the left one of the operator before it. `surplus` counts the
signs that a phrase gives out so before its own first operand, and `shifted` is the tree in
which every such sign has moved to the operand that it negates.
-/

namespace Calculator

/-- A derivation of the tokens of a level. -/
inductive Derivation : Level → Type
  | number (v : Float) : Derivation .primary
  | group (e : Derivation .sum) : Derivation .primary
  | primary (e : Derivation .primary) : Derivation .factor
  | negate (e : Derivation .factor) : Derivation .factor
  | factor (e : Derivation .factor) : Derivation .product
  | product (e : Derivation .product) : Derivation .sum
  | multiply (op : Operator) (hop : op.level = .product) (left : Derivation .product)
      (right : Derivation .factor) : Derivation .product
  | add (op : Operator) (hop : op.level = .sum) (left : Derivation .sum)
      (right : Derivation .product) : Derivation .sum

namespace Derivation

/-- The tokens that are derived. -/
def tokens {l : Level} : Derivation l → List Token
  | .number v => [.number v]
  | .group e => .opening :: e.tokens ++ [.closing]
  | .primary e => e.tokens
  | .negate e => .negate :: e.tokens
  | .factor e => e.tokens
  | .product e => e.tokens
  | .multiply op _ left right => left.tokens ++ .operator op :: right.tokens
  | .add op _ left right => left.tokens ++ .operator op :: right.tokens

/-- The tree that is meant: a minus sign negates the operand behind it. -/
def tree {l : Level} : Derivation l → Tree
  | .number v => .leaf v
  | .group e => e.tree
  | .primary e => e.tree
  | .negate e => .negate e.tree
  | .factor e => e.tree
  | .product e => e.tree
  | .multiply op _ left right => .binary op left.tree right.tree
  | .add op _ left right => .binary op left.tree right.tree

/-- The derivation starts with a minus sign of its own. -/
def isNegation {l : Level} : Derivation l → Bool
  | .negate _ => true
  | _ => false

/-- How many minus signs are given out before the first operand. -/
def surplus {l : Level} : Derivation l → Nat
  | .number _ => 0
  | .group e => e.surplus
  | .primary e => e.surplus
  | .negate e => if e.isNegation then e.surplus + 1 else e.surplus
  | .factor e => e.surplus
  | .product e => e.surplus
  | .multiply _ _ left _ => left.surplus
  | .add _ _ left _ => left.surplus

/-- The tree in which a minus sign directly before another one negates the operand before
it. -/
def shifted {l : Level} : Derivation l → Tree
  | .number v => .leaf v
  | .group e => e.shifted
  | .primary e => e.shifted
  | .negate e => if e.isNegation then e.shifted else .negate e.shifted
  | .factor e => e.shifted
  | .product e => e.shifted
  | .multiply op _ left right => .binary op (Tree.negate^[right.surplus] left.shifted) right.shifted
  | .add op _ left right => .binary op (Tree.negate^[right.surplus] left.shifted) right.shifted

theorem spells {l : Level} (e : Derivation l) : Spells l e.tokens e.tree := by
  induction e with
  | number v => exact .number v
  | group e ih => exact .group ih
  | primary e ih => exact .primary ih
  | negate e ih => exact .negate ih
  | factor e ih => exact .factor ih
  | product e ih => exact .product ih
  | multiply op hop left right ih ih' => exact .multiply hop ih ih'
  | add op hop left right ih ih' => exact .add hop ih ih'

end Derivation

/-- What spells a tree is derived. -/
theorem spells_iff_exists_derivation {l : Level} {ts : List Token} {t : Tree} :
    Spells l ts t ↔ ∃ e : Derivation l, e.tokens = ts ∧ e.tree = t := by
  constructor
  · intro h
    induction h with
    | number v => exact ⟨.number v, rfl, rfl⟩
    | group _ ih => obtain ⟨e, rfl, rfl⟩ := ih; exact ⟨.group e, rfl, rfl⟩
    | primary _ ih => obtain ⟨e, rfl, rfl⟩ := ih; exact ⟨.primary e, rfl, rfl⟩
    | negate _ ih => obtain ⟨e, rfl, rfl⟩ := ih; exact ⟨.negate e, rfl, rfl⟩
    | factor _ ih => obtain ⟨e, rfl, rfl⟩ := ih; exact ⟨.factor e, rfl, rfl⟩
    | product _ ih => obtain ⟨e, rfl, rfl⟩ := ih; exact ⟨.product e, rfl, rfl⟩
    | multiply hop _ _ ih ih' =>
        obtain ⟨e, rfl, rfl⟩ := ih
        obtain ⟨e', rfl, rfl⟩ := ih'
        exact ⟨.multiply _ hop e e', rfl, rfl⟩
    | add hop _ _ ih ih' =>
        obtain ⟨e, rfl, rfl⟩ := ih
        obtain ⟨e', rfl, rfl⟩ := ih'
        exact ⟨.add _ hop e e', rfl, rfl⟩
  · rintro ⟨e, rfl, rfl⟩
    exact e.spells

/-- The derivations of factors that start with a minus sign are the negations. -/
theorem Derivation.isNegation_iff {e : Derivation .factor} :
    e.isNegation = true ↔ e.tokens.head? = some .negate := by
  cases e with
  | negate e => exact iff_of_true rfl rfl
  | primary e =>
      refine iff_of_false Bool.noConfusion ?_
      cases e <;> simp [tokens]

end Calculator
