import Mathlib.Algebra.Group.Nat.Even
import Calculator.Proofs.Binary64.Sign
import Calculator.Proofs.Postfix.Innermost

/-!
# Chains of minus signs

The value of a derivation is the outcome of its shifted tree, unless a sign is given out where
no operand is complete (`value_tokens`). A sign may move through products and quotients
without a change of the value, and two signs together change nothing anywhere; so the shifted
tree and the tree that is meant have one outcome where the operands of sums and differences
start with an even number of surplus signs (`outcome_shifted`). For the same reason a signed
number may be written in parentheses behind the sign of a factor (`value_append_negated_factor`).
-/

namespace Calculator

/-- The number with `k` minus signs before it. -/
def negated (k : Nat) (x : Float) : Float :=
  if Even k then x else -x

section Negated

variable {k : Nat} (x y : Float)

theorem negated_zero : negated 0 x = x := rfl

theorem negated_of_even (h : Even k) : negated k x = x := if_pos h

theorem negated_succ (k : Nat) : negated (k + 1) x = -negated k x := by
  by_cases h : Even k
  · rw [negated, negated, if_neg (Nat.even_add_one.not.2 (not_not_intro h)), if_pos h]
  · rw [negated, negated, if_pos (Nat.even_add_one.2 h), if_neg h, Binary64.neg_neg]

theorem negated_neg (k : Nat) : negated k (-x) = -negated k x := by
  rw [negated, negated]
  split <;> rfl

theorem negated_beq_zero (k : Nat) : (negated k x == 0.0) = (x == 0.0) := by
  rw [negated]
  split
  · rfl
  · exact Binary64.neg_beq_zero x

theorem Tree.value_negate_iterate (k : Nat) (t : Tree) :
    (Tree.negate^[k] t).value = negated k t.value := by
  induction k with
  | zero => rfl
  | succ k ih => rw [Function.iterate_succ_apply', Tree.value, ih, negated_succ]

theorem Tree.hasZeroDivisor_negate_iterate (k : Nat) (t : Tree) :
    (Tree.negate^[k] t).hasZeroDivisor = t.hasZeroDivisor := by
  induction k with
  | zero => rfl
  | succ k ih => rw [Function.iterate_succ_apply', Tree.hasZeroDivisor, ih]

theorem Operator.compute_neg_left {op : Operator} (hop : op.level = .product) :
    op.compute (-x) y = -op.compute x y := by
  cases op with
  | plus => cases hop
  | minus => cases hop
  | times => exact Binary64.neg_mul x y
  | divide => exact Binary64.neg_div x y

theorem Operator.compute_neg_right {op : Operator} (hop : op.level = .product) :
    op.compute x (-y) = -op.compute x y := by
  cases op with
  | plus => cases hop
  | minus => cases hop
  | times => exact Binary64.mul_neg x y
  | divide => exact Binary64.div_neg x y

/-- A sign may stand before a product or a quotient or before the left operand. -/
theorem Operator.compute_negated_left {op : Operator} (hop : op.level = .product) (k : Nat) :
    op.compute (negated k x) y = negated k (op.compute x y) := by
  rw [negated, negated]
  split
  · rfl
  · exact compute_neg_left x y hop

/-- Signs before the right operand may move to the left one. -/
theorem Operator.compute_negated_negated {op : Operator} (hop : op.level = .product) (k : Nat) :
    op.compute (negated k x) (negated k y) = op.compute x y := by
  rw [negated, negated]
  split
  · rfl
  · rw [compute_neg_left _ _ hop, compute_neg_right _ _ hop, Binary64.neg_neg]

end Negated

namespace Derivation

/-- The operands of sums and differences start with an even number of surplus signs. -/
def Aligned {l : Level} : Derivation l → Prop
  | .number _ => True
  | .group e => e.Aligned
  | .primary e => e.Aligned
  | .negate e => e.Aligned
  | .factor e => e.Aligned
  | .product e => e.Aligned
  | .multiply _ _ left right => left.Aligned ∧ right.Aligned
  | .add _ _ left right =>
      left.Aligned ∧ right.Aligned ∧ Even left.surplus ∧ Even right.surplus

/-- The surplus signs of an aligned derivation are all that its shifted tree lacks. -/
theorem value_shifted {l : Level} (e : Derivation l) (h : e.Aligned) :
    e.shifted.value = negated e.surplus e.tree.value := by
  induction e with
  | number v => rfl
  | group e ih => exact ih h
  | primary e ih => exact ih h
  | negate e ih =>
      rw [shifted, surplus, tree, Tree.value, negated_neg]
      by_cases hsign : e.isNegation = true
      · rw [if_pos hsign, if_pos hsign, ih h, negated_succ, Binary64.neg_neg]
      · rw [if_neg hsign, if_neg hsign, Tree.value, ih h]
  | factor e ih => exact ih h
  | product e ih => exact ih h
  | multiply op hop left right ih ih' =>
      rw [shifted, surplus, tree, Tree.value, Tree.value, Tree.value_negate_iterate, ih h.1,
        ih' h.2, Operator.compute_negated_negated _ _ hop, Operator.compute_negated_left _ _ hop]
  | add op hop left right ih ih' =>
      obtain ⟨hleft, hright, heven, heven'⟩ := h
      rw [shifted, surplus, tree, Tree.value, Tree.value, Tree.value_negate_iterate, ih hleft,
        ih' hright, negated_of_even _ heven', negated_of_even _ heven', negated_of_even _ heven,
        negated_of_even _ heven]

/-- The sign of a divisor does not matter to whether it is zero. -/
theorem hasZeroDivisor_shifted {l : Level} (e : Derivation l) (h : e.Aligned) :
    e.shifted.hasZeroDivisor = e.tree.hasZeroDivisor := by
  induction e with
  | number v => rfl
  | group e ih => exact ih h
  | primary e ih => exact ih h
  | negate e ih =>
      rw [shifted, tree, Tree.hasZeroDivisor]
      split
      · exact ih h
      · exact ih h
  | factor e ih => exact ih h
  | product e ih => exact ih h
  | multiply op hop left right ih ih' =>
      rw [shifted, tree, Tree.hasZeroDivisor, Tree.hasZeroDivisor,
        Tree.hasZeroDivisor_negate_iterate, ih h.1, ih' h.2, value_shifted right h.2,
        negated_beq_zero]
  | add op hop left right ih ih' =>
      obtain ⟨hleft, hright, -⟩ := h
      rw [shifted, tree, Tree.hasZeroDivisor, Tree.hasZeroDivisor,
        Tree.hasZeroDivisor_negate_iterate, ih hleft, ih' hright, value_shifted right hright,
        negated_beq_zero]

theorem outcome_shifted {l : Level} (e : Derivation l) (h : e.Aligned) (hsurplus : e.surplus = 0) :
    e.shifted.outcome = e.tree.outcome := by
  rw [Tree.outcome, Tree.outcome, hasZeroDivisor_shifted e h, value_shifted e h, hsurplus,
    negated_zero]

/-- The value of the tokens of a derivation. A sign that is given out before any operand is
complete has nothing to negate. -/
theorem value_tokens (e : Derivation .sum) :
    Token.value e.tokens = if e.surplus = 0 then e.shifted.outcome else .error .malformed := by
  rw [Token.value, toPostfix_tokens]
  change reduce e.order = _
  split
  · next hzero =>
      rw [order, hzero]
      exact Tree.reduce_postorder e.shifted
  · next hne =>
      obtain ⟨k, hk⟩ := Nat.exists_eq_succ_of_ne_zero hne
      rw [order, hk]
      rfl

end Derivation

/-- Tokens that spell a tree have the outcome of the tree in which each minus sign directly
before another one negates the operand before it, and no value if there is none. It is the
outcome of the tree that they spell wherever the operands of sums and differences start with
an even number of such signs. -/
theorem value_of_spells {ts : List Token} {t : Tree} (h : Spells .sum ts t) :
    ∃ e : Derivation .sum, e.tokens = ts ∧ e.tree = t ∧
      (Token.value ts = if e.surplus = 0 then e.shifted.outcome else .error .malformed) ∧
      (e.Aligned → Token.value ts = if e.surplus = 0 then t.outcome else .error .malformed) := by
  obtain ⟨e, rfl, rfl⟩ := spells_iff_exists_derivation.1 h
  refine ⟨e, rfl, rfl, e.value_tokens, fun haligned => ?_⟩
  rw [e.value_tokens]
  split
  · next hzero => exact e.outcome_shifted haligned hzero
  · rfl

/-- The tokens of `2×--3`: the first sign negates the two, and the value is that of the tree. -/
theorem exists_derivation_two_times_chain :
    Spells .sum [.number 2, .operator .times, .negate, .negate, .number 3]
        (.binary .times (.leaf 2) (.negate (.negate (.leaf 3)))) ∧
      ∃ e : Derivation .sum,
        e.tokens = [.number 2, .operator .times, .negate, .negate, .number 3] ∧
        e.tree = .binary .times (.leaf 2) (.negate (.negate (.leaf 3))) ∧
        (Token.value [.number 2, .operator .times, .negate, .negate, .number 3] =
          if e.surplus = 0 then e.shifted.outcome else .error .malformed) ∧
        (e.Aligned → Token.value [.number 2, .operator .times, .negate, .negate, .number 3] =
          if e.surplus = 0 then
            (Tree.binary .times (.leaf 2) (.negate (.negate (.leaf 3)))).outcome
          else .error .malformed) := by
  have hspells : Spells .sum [.number 2, .operator .times, .negate, .negate, .number 3]
      (.binary .times (.leaf 2) (.negate (.negate (.leaf 3)))) :=
    .product (.multiply rfl (.factor (.primary (.number 2)))
      (.negate (.negate (.primary (.number 3)))))
  exact ⟨hspells, value_of_spells hspells⟩

/-- The tokens of `2+--3` have a value, which is not that of the tree: the first sign negates
the two. -/
theorem not_forall_value_eq_of_spells :
    ¬∀ (ts : List Token) (t : Tree) (v : Float), Spells .sum ts t → Token.value ts = .ok v →
      v = t.value := by
  intro hall
  have hspells : Spells .sum [.number 2, .operator .plus, .negate, .negate, .number 3]
      (.binary .plus (.leaf 2) (.negate (.negate (.leaf 3)))) :=
    .add rfl (.product (.factor (.primary (.number 2))))
      (.factor (.negate (.negate (.primary (.number 3)))))
  have hvalue := hall _ _ (-2 + -3) hspells rfl
  revert hvalue
  decide +kernel

section Factor

/-- A product or a quotient is the same if both of its operands change their sign. -/
theorem foldlM_reduceStep_signs {op : Operator} (hop : op.level = .product) (v : Float)
    (values : List Float) :
    List.foldlM reduceStep values [.negate, .number v, .negate, .operator op] =
      List.foldlM reduceStep values [.number v, .negate, .negate, .operator op] := by
  cases values with
  | nil => rfl
  | cons x values =>
      have happly : op.apply (-x) (-v) = op.apply x (- -v) := by
        rw [Operator.apply, Operator.apply, Binary64.neg_beq_zero, Binary64.neg_neg,
          Operator.compute_neg_left _ _ hop, Operator.compute_neg_right _ _ hop, Binary64.neg_neg]
      change (reduceStep (-v :: -x :: values) (.operator op)).bind _ =
        (reduceStep (- -v :: x :: values) (.operator op)).bind _
      rw [Tree.reduceStep_operator, Tree.reduceStep_operator, happly]

/-- A number with a sign may be written in parentheses behind the sign of a factor: the sign
before it negates the other factor then, and that does not change the product. -/
theorem value_append_negated_factor {op : Operator} (hop : op.level = .product)
    (ts : List Token) (v : Float) :
    Token.value (ts ++ [Token.operator op, .negate, .negate, .number v]) =
      Token.value (ts ++ [Token.operator op, .negate, .opening, .negate, .number v, .closing]) := by
  have hreads : (∃ given below : List Token, Reads [] (ts ++ [Token.operator op]) given
      (.operator op :: below)) ∨ ∃ f : Fault, ∀ rest : List Token,
        toPostfixFrom [] (ts ++ [Token.operator op] ++ rest) = .error f := by
    rcases reads_or_fails [] (fun _ _ => True) trivial (fun _ _ => trivial) ts with
      ⟨given, after, hreads, -⟩ | ⟨f, hf⟩
    · exact Or.inl ⟨_, _, hreads.append (.of_arrive? rfl)⟩
    · exact Or.inr ⟨f, fun rest => by rw [List.append_assoc]; exact hf _⟩
  rw [Token.value, Token.value, toPostfix, toPostfix, List.append_cons,
    List.append_cons ts _ [.negate, .opening, .negate, .number v, .closing]]
  rcases hreads with ⟨given, below, hreads⟩ | ⟨f, hf⟩
  · have hstack : ∀ x ∈ (Token.operator op :: below).head?, x.precedence < 3 := by
      rintro x ⟨⟩
      cases op <;> decide
    have hsign : Reads (.operator op :: below) [.negate] [] (.negate :: .operator op :: below) :=
      .negate hstack
    have hnumber : Reads (.negate :: .operator op :: below) [.number v] [.number v]
        (.negate :: .operator op :: below) := .of_arrive? rfl
    have horder : toPostfix [.negate, .number v] = .ok [.number v, .negate] := rfl
    have hchain : Reads [] (ts ++ [Token.operator op] ++ [Token.negate, .negate, .number v])
        (given ++ [Token.negate, .number v]) (.negate :: .operator op :: below) :=
      hreads.append (hsign.append (hsign.append hnumber).behind_negate)
    have hgroup : Reads [] (ts ++ [Token.operator op] ++
          [Token.negate, .opening, .negate, .number v, .closing])
        (given ++ [Token.number v, .negate]) (.negate :: .operator op :: below) :=
      hreads.append (hsign.append (reads_group horder _))
    have hleft := hchain []
    have hright := hgroup []
    rw [List.append_nil] at hleft hright
    rw [hleft, hright]
    by_cases hopening : .opening ∈ below
    · simp [toPostfixFrom, hopening, Except.map]
    · have hend : toPostfixFrom (.negate :: .operator op :: below) [] =
          .ok (.negate :: .operator op :: below) := if_neg (by simpa using hopening)
      have hcongr := reduce_append_congr (foldlM_reduceStep_signs hop v) given below
      rw [hend]
      change reduce (given ++ [Token.negate, .number v] ++ Token.negate :: .operator op :: below) =
        reduce (given ++ [Token.number v, .negate] ++ Token.negate :: .operator op :: below)
      simpa using hcongr
  · rw [hf, hf]

end Factor

end Calculator
