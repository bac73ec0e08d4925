import Calculator.Postfix
import Calculator.Tree

/-!
# Reducing the postorder of a tree

Reducing tokens in postfix order and evaluating a tree are one computation.
The outcome of a tree follows its shape: `outcome_negate` and `outcome_binary`
compute it from the outcomes of the operands, so that the first zero divisor in
postorder decides. With it the postorder of a tree puts the outcome of the tree
on the stack of values and leaves the stack below alone
(`foldlM_reduceStep_postorder`), whatever the stack is.
-/

namespace Calculator

namespace Tree

theorem outcome_leaf (v : Float) : (leaf v).outcome = .ok v := rfl

theorem outcome_negate (t : Tree) :
    t.negate.outcome = t.outcome.map fun x => -x := by
  unfold outcome
  by_cases h : t.hasZeroDivisor = true <;> simp [hasZeroDivisor, value, h, Except.map]

/-- The operands are evaluated from left to right, and the divisor is looked at
once both have a value. -/
theorem outcome_binary (op : Operator) (t u : Tree) :
    (binary op t u).outcome =
      t.outcome.bind fun a => u.outcome.bind fun b => op.apply a b := by
  unfold outcome Operator.apply
  by_cases ht : t.hasZeroDivisor = true
  · simp [hasZeroDivisor, ht, Except.bind]
  · by_cases hu : u.hasZeroDivisor = true
    · simp [hasZeroDivisor, ht, hu, Except.bind]
    · by_cases hop : op = .divide ∧ (u.value == 0.0) = true
      · simp [hasZeroDivisor, ht, hu, hop, Except.bind]
      · have hdiv : (decide (op = .divide) && u.value == 0.0) = false := by
          simpa using hop
        simp [hasZeroDivisor, value, ht, hu, hdiv, hop, Except.bind]

theorem reduceStep_operator (op : Operator) (a b : Float) (stack : List Float) :
    reduceStep (b :: a :: stack) (.operator op) = (op.apply a b).map fun x => x :: stack := by
  cases h : op.apply a b <;> simp [reduceStep, h, bind, Except.bind, pure, Except.pure,
    Except.map]

/-- The postorder of a tree puts the outcome of the tree on the stack. -/
theorem foldlM_reduceStep_postorder (t : Tree) (stack : List Float) :
    t.postorder.foldlM reduceStep stack = t.outcome.map fun x => x :: stack := by
  induction t generalizing stack with
  | leaf v => rfl
  | negate t ih =>
      rw [postorder, List.foldlM_append, ih, outcome_negate]
      cases t.outcome <;> rfl
  | binary op t u iht ihu =>
      rw [postorder, List.foldlM_append, List.foldlM_append, iht, outcome_binary]
      cases t.outcome with
      | error f => rfl
      | ok a =>
          change (u.postorder.foldlM reduceStep (a :: stack) >>= fun s =>
            [Token.operator op].foldlM reduceStep s) = _
          rw [ihu]
          cases u.outcome with
          | error f => rfl
          | ok b =>
              change [Token.operator op].foldlM reduceStep (b :: a :: stack) =
                (op.apply a b).map fun x => x :: stack
              rw [List.foldlM_cons, reduceStep_operator]
              cases op.apply a b <;> rfl

theorem reduce_postorder (t : Tree) : reduce t.postorder = t.outcome := by
  rw [reduce, foldlM_reduceStep_postorder]
  cases t.outcome <;> rfl

end Tree

end Calculator
