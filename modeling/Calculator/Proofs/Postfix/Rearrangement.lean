import Mathlib.Data.List.Infix
import Calculator.Proofs.Expression.Fault

/-!
# The postfix order as a rearrangement

The conversion into postfix order moves the operators and drops the parentheses, and that is
all it does. It fails exactly where the parentheses do not match, as told by their counts in
the beginnings of the list (`closes_iff`). What it gives out holds each of the other tokens as
often as the list does (`perm_of_toPostfix`), and the numbers in the order in which they come:
a number is given out at once and never waits on the stack (`filter_isNumber_of_arrive?`).

So no evaluation of a text ever applies a parenthesis to a stack of values, and that a text is
unbalanced is found out before the reduction begins (`toPostfix_rearranges`).
-/

namespace Calculator

/-- The groups are closed if no beginning of the list closes more than are open, and all of it
closes every one. -/
theorem closes_iff {d : Nat} {ts : List Token} :
    Closes d ts ↔
      (∀ p : List Token, p <+: ts → p.count .closing ≤ d + p.count .opening) ∧
        ts.count .closing = d + ts.count .opening := by
  simp only [← List.mem_inits]
  induction ts generalizing d with
  | nil => simp [Closes, eq_comm]
  | cons token ts ih =>
      rw [List.inits_cons, List.forall_mem_cons, List.forall_mem_map]
      cases token with
      | opening => simp [Closes, ih, Nat.add_assoc, Nat.add_comm 1]
      | closing =>
          cases d with
          | zero =>
              refine iff_of_false id fun h => ?_
              have hfirst := h.1.2 [] ((List.mem_inits _ _).2 List.nil_prefix)
              simp at hfirst
          | succ d => simp [Closes, ih, Nat.add_right_comm _ 1]
      | _ => simp [Closes, ih]

section Numbers

variable {stack given after ts out : List Token}

/-- A number that arrives is given out, and no other one is on the way. -/
theorem filter_isNumber_of_arrive? {token : Token}
    (h : arrive? stack token = some (given, after))
    (hstack : ∀ x ∈ stack, x.isNumber = false) :
    given.filter Token.isNumber = [token].filter Token.isNumber ∧
      ∀ x ∈ after, x.isNumber = false := by
  cases htoken : token.isNumber with
  | true =>
      cases token with
      | number v => cases h; exact ⟨rfl, hstack⟩
      | _ => cases htoken
  | false =>
      -- what is given out or stays on the stack comes from the stack or is the token itself
      have hnone : ∀ x ∈ given ++ after, x.isNumber = false := by
        intro x hx
        by_contra hnumber
        rw [Bool.not_eq_false] at hnumber
        have hkept : x ∈ (given ++ after).filter (!·.isParenthesis) :=
          List.mem_filter.2 ⟨hx, by simp [Token.isParenthesis_of_isNumber hnumber]⟩
        have hbefore := (List.mem_filter.1 ((perm_of_arrive? h).subset hkept)).1
        rcases List.mem_cons.1 hbefore with rfl | hmem
        · rw [htoken] at hnumber
          cases hnumber
        · rw [hstack x hmem] at hnumber
          cases hnumber
      obtain ⟨hgiven, hafter⟩ := List.forall_mem_append.1 hnone
      refine ⟨?_, hafter⟩
      rw [List.filter_singleton, htoken, List.filter_eq_nil_iff.2 fun x hx => by simp [hgiven x hx]]
      rfl

theorem filter_isNumber_of_toPostfixFrom (h : toPostfixFrom stack ts = .ok out)
    (hstack : ∀ x ∈ stack, x.isNumber = false) :
    out.filter Token.isNumber = ts.filter Token.isNumber := by
  induction ts generalizing stack out with
  | nil =>
      rw [toPostfixFrom] at h
      split at h
      · cases h
      · cases h
        exact List.filter_eq_nil_iff.2 fun x hx => by simp [hstack x hx]
  | cons token ts ih =>
      obtain ⟨given, after, out', hstep, hrest, rfl⟩ := exists_arrive?_of_toPostfixFrom_cons h
      obtain ⟨hgiven, hafter⟩ := filter_isNumber_of_arrive? hstep hstack
      rw [List.filter_append, hgiven, ih hrest hafter, ← List.filter_append,
        List.singleton_append]

/-- The numbers keep their order. -/
theorem filter_isNumber_of_toPostfix (h : toPostfix ts = .ok out) :
    out.filter Token.isNumber = ts.filter Token.isNumber :=
  filter_isNumber_of_toPostfixFrom h (by simp)

end Numbers

/-- The evaluation of the text comes to the point where `token` is applied to `values`. -/
def EvaluationReaches (t : Text) (values : List Float) (token : Token) : Prop :=
  ∃ ts done rest : List Token, expressionTokens t = .ok ts ∧
    toPostfix ts = .ok (done ++ token :: rest) ∧ done.foldlM reduceStep [] = .ok values

theorem isParenthesis_of_evaluationReaches {t : Text} {values : List Float} {token : Token}
    (h : EvaluationReaches t values token) : token.isParenthesis = false := by
  obtain ⟨ts, done, rest, -, horder, -⟩ := h
  exact isParenthesis_of_toPostfix horder token (by simp)

/-- A conversion into postfix order fails exactly if the parentheses do not match, and for that
reason only. Otherwise it rearranges all other tokens and leaves the numbers in their order. No
evaluation applies a parenthesis. -/
theorem toPostfix_rearranges :
    (∀ (ts : List Token) (f : Fault), toPostfix ts = .error f ↔
        f = .unbalanced ∧
          ((∃ p : List Token, p <+: ts ∧ p.count .opening < p.count .closing) ∨
            ts.count .opening ≠ ts.count .closing)) ∧
      (∀ ts out : List Token, toPostfix ts = .ok out →
        (∀ x ∈ out, x.isParenthesis = false) ∧
          out.Perm (ts.filter (!·.isParenthesis)) ∧
          out.filter Token.isNumber = ts.filter Token.isNumber) ∧
      ∀ t : Text,
        (evaluate t = .error .unbalanced ↔
          ∃ ts : List Token, expressionTokens t = .ok ts ∧ toPostfix ts = .error .unbalanced) ∧
        ∀ (values : List Float) (token : Token), EvaluationReaches t values token →
          token.isParenthesis = false := by
  refine ⟨fun ts f => ?_, fun ts out h => ?_, fun t => ⟨?_, ?_⟩⟩
  · rw [toPostfix_eq_error_iff, closes_iff, not_and_or]
    simp [eq_comm]
  · exact ⟨isParenthesis_of_toPostfix h, perm_of_toPostfix h, filter_isNumber_of_toPostfix h⟩
  · simp only [evaluate_eq_unbalanced_iff, toPostfix_eq_error_iff, true_and]
  · exact fun values token => isParenthesis_of_evaluationReaches

/-- In `)(` the counts of parentheses agree, and the first beginning is at fault. In `2×(3+4)` the
numbers keep their order, and the sum is the first operation to be reached. -/
theorem toPostfix_rearranges_product :
    let two := Decimal.toFloat ⟨2, 0⟩
    let three := Decimal.toFloat ⟨3, 0⟩
    let four := Decimal.toFloat ⟨4, 0⟩
    let product : List Token := [.number two, .operator .times, .opening, .number three,
      .operator .plus, .number four, .closing]
    toPostfix [.closing, .opening] = .error .unbalanced ∧
      (∃ out : List Token, toPostfix product = .ok out ∧
        out.filter Token.isNumber = [.number two, .number three, .number four]) ∧
      EvaluationReaches ['2', '×', '(', '3', '+', '4', ')'] [four, three, two]
        (.operator .plus) ∧
      (Token.operator .plus).isParenthesis = false := by
  intro two three four product
  obtain ⟨hfault, hrearranged, hreached⟩ := toPostfix_rearranges
  have hpostfix : toPostfix product = .ok [.number two, .number three, .number four,
      .operator .plus, .operator .times] := rfl
  have hsum : EvaluationReaches ['2', '×', '(', '3', '+', '4', ')'] [four, three, two]
      (.operator .plus) :=
    ⟨product, [.number two, .number three, .number four], [.operator .times], rfl, hpostfix, rfl⟩
  refine ⟨(hfault _ _).2 ⟨rfl, Or.inl ⟨[.closing], ⟨[.opening], rfl⟩, by simp⟩⟩, ?_, hsum, ?_⟩
  · exact ⟨_, hpostfix, (hrearranged _ _ hpostfix).2.2⟩
  · exact (hreached _).2 _ _ hsum

end Calculator
