import Calculator.Proofs.Binary64.Sign
import Calculator.Proofs.Postfix.Acceptance
import Calculator.Proofs.Postfix.Group

/-!
# The operator of the innermost group

`openOperators ts` lists the last binary operator of every group that is open behind the
tokens. It is read off the tokens alone, and the stack of the conversion agrees with it
(`stackOperators_of_arrive?`): of a group only its last operator and the minus signs behind it
can bind as tightly as a product.

A quotient behind the tokens may be written with parentheses around it or around its dividend
only. In the second case the operators that bind as tightly are given out before the divisor
is read. If these are minus signs, that makes no difference (`value_append_quotient`).
-/

namespace Calculator

/-- The last binary operator of each group that is open, where one more token follows. -/
def openOperatorsStep : List (Option Operator) → Token → List (Option Operator)
  | ops, .number _ => ops
  | ops, .operator op => some op :: ops.tail
  | ops, .negate => ops
  | ops, .opening => none :: ops
  | ops, .closing => ops.tail

/-- The last binary operator of each group that is open behind the tokens, the innermost group
first. -/
def openOperators (ts : List Token) : List (Option Operator) :=
  ts.foldl openOperatorsStep [none]

theorem Operator.precedence_le_two (op : Operator) : op.precedence ≤ 2 := by
  cases op <;> decide

section Stack

variable {p stack given after ts us : List Token} {token : Token}

theorem openOperators_concat (ts : List Token) (token : Token) :
    openOperators (ts ++ [token]) = openOperatorsStep (openOperators ts) token := by
  rw [openOperators, List.foldl_append]
  rfl

/-- The operators of a stack, which has its last token on top. -/
def stackOperators (stack : List Token) : List (Option Operator) :=
  openOperators stack.reverse

theorem stackOperators_cons (token : Token) (stack : List Token) :
    stackOperators (token :: stack) = openOperatorsStep (stackOperators stack) token := by
  rw [stackOperators, List.reverse_cons, openOperators_concat, stackOperators]

/-- Outside of the innermost group nothing is changed but by parentheses. -/
theorem tail_stackOperators_append (hp : ∀ x ∈ p, x.isParenthesis = false) (stack : List Token) :
    (stackOperators (p ++ stack)).tail = (stackOperators stack).tail := by
  induction p with
  | nil => rfl
  | cons x p ih =>
      obtain ⟨hx, hrest⟩ := List.forall_mem_cons.1 hp
      rw [List.cons_append, stackOperators_cons]
      cases x with
      | number v => exact ih hrest
      | operator op => exact ih hrest
      | negate => exact ih hrest
      | opening => cases hx
      | closing => cases hx

theorem stackOperators_negates_append (hp : ∀ x ∈ p, x = .negate) (stack : List Token) :
    stackOperators (p ++ stack) = stackOperators stack := by
  induction p with
  | nil => rfl
  | cons x p ih =>
      obtain ⟨rfl, hrest⟩ := List.forall_mem_cons.1 hp
      rw [List.cons_append, stackOperators_cons, ih hrest]
      rfl

theorem eq_negate_of_releases (h : Token.negate.releases token = true) : token = .negate := by
  rw [Token.releases, decide_eq_true_eq] at h
  cases token with
  | negate => rfl
  | operator op => cases op <;> exact absurd h (by decide)
  | number v => exact absurd h (Nat.not_succ_le_zero 2)
  | opening => exact absurd h (by decide)
  | closing => exact absurd h (by decide)

/-- The stack follows the tokens. -/
theorem stackOperators_of_arrive? (h : arrive? stack token = some (given, after))
    (hstack : .closing ∉ stack) :
    stackOperators after = openOperatorsStep (stackOperators stack) token := by
  have hcut (token : Token) : stack.takeWhile token.releases ++ stack.dropWhile token.releases =
      stack := List.takeWhile_append_dropWhile
  cases token with
  | number v => cases h; rfl
  | opening => cases h; exact stackOperators_cons _ _
  | closing =>
      obtain ⟨rfl, hopening⟩ := closeGroup?_eq_some_iff.1 h
      rw [List.mem_append, List.mem_cons, not_or, not_or] at hstack
      have hgiven : ∀ x ∈ given, x.isParenthesis = false := by
        intro x hx
        cases x with
        | opening => exact absurd hx hopening
        | closing => exact absurd hx hstack.1
        | _ => rfl
      rw [openOperatorsStep, tail_stackOperators_append hgiven, stackOperators_cons]
      rfl
  | operator op =>
      cases h
      have hall : ∀ x ∈ stack.takeWhile (Token.operator op).releases, x.isParenthesis = false :=
        isParenthesis_of_mem_takeWhile (Token.precedence_operator_pos op)
      have htail := tail_stackOperators_append hall (stack.dropWhile (Token.operator op).releases)
      rw [hcut] at htail
      rw [stackOperators_cons, openOperatorsStep, openOperatorsStep, htail]
  | negate =>
      cases h
      have hall : ∀ x ∈ stack.takeWhile Token.negate.releases, x = .negate := fun x hx =>
        eq_negate_of_releases (List.mem_takeWhile_imp hx)
      have hnegates := stackOperators_negates_append hall (stack.dropWhile Token.negate.releases)
      rw [hcut] at hnegates
      rw [stackOperators_cons, openOperatorsStep, openOperatorsStep, hnegates]

/-- The last binary operator of the innermost group, if there is one, joins factors. -/
def joinsFactors (ops : List (Option Operator)) : Bool :=
  ops.head?.join.any fun op => op.level = .product

/-- What a quotient releases where no product is open are minus signs. -/
theorem exists_negates (h : joinsFactors (stackOperators stack) = false) :
    ∃ (k : Nat) (below : List Token), stack = List.replicate k .negate ++ below ∧
      ∀ x ∈ below.head?, x.precedence < 2 := by
  induction stack with
  | nil => exact ⟨0, [], rfl, by simp⟩
  | cons x stack ih =>
      cases x with
      | negate =>
          rw [stackOperators_cons] at h
          obtain ⟨k, below, rfl, hbelow⟩ := ih h
          exact ⟨k + 1, below, rfl, hbelow⟩
      | operator op =>
          rw [stackOperators_cons] at h
          have hsum : op.level = .sum := op.level_cases.resolve_left (of_decide_eq_false h)
          refine ⟨0, _, rfl, ?_⟩
          rintro x ⟨⟩
          rw [Token.precedence, ← op.precedence_level, hsum]
          decide
      | number v => exact ⟨0, _, rfl, by rintro x ⟨⟩; exact Nat.two_pos⟩
      | opening => exact ⟨0, _, rfl, by rintro x ⟨⟩; exact Nat.two_pos⟩
      | closing => exact ⟨0, _, rfl, by rintro x ⟨⟩; exact Nat.two_pos⟩

/-- What stands in the group that is closed is given out first. -/
theorem closeGroup?_append_of_not_mem (h : .opening ∉ p) (stack : List Token) :
    closeGroup? (p ++ stack) = (closeGroup? stack).map fun step => (p ++ step.1, step.2) := by
  induction p with
  | nil =>
      rw [List.nil_append]
      cases closeGroup? stack <;> rfl
  | cons x p ih =>
      rw [List.mem_cons, not_or] at h
      have hrest := ih h.2
      cases x with
      | opening => exact absurd rfl h.1
      | _ => cases hstack : closeGroup? stack <;> simp [closeGroup?, hrest, hstack]

/-- What binds at least like a product is given out first where no operand begins. -/
theorem toPostfixFrom_append (hp : ∀ x ∈ p, 2 ≤ x.precedence)
    (hus : ∀ x ∈ us.head?, x.startsOperand = false) (stack : List Token) :
    toPostfixFrom (p ++ stack) us = (toPostfixFrom stack us).map (p ++ ·) := by
  have hopening : .opening ∉ p := fun hmem => absurd (hp _ hmem) (by decide)
  cases us with
  | nil =>
      have hmem : .opening ∈ p ++ stack ↔ .opening ∈ stack := by
        rw [List.mem_append, or_iff_right hopening]
      simp only [toPostfixFrom, hmem]
      split <;> rfl
  | cons token us =>
      have hstep : arrive? (p ++ stack) token =
          (arrive? stack token).map fun step => (p ++ step.1, step.2) := by
        cases token with
        | number v => cases hus _ rfl
        | negate => cases hus _ rfl
        | opening => cases hus _ rfl
        | closing => exact closeGroup?_append_of_not_mem hopening stack
        | operator op =>
            have hreleased : ∀ x ∈ p, (Token.operator op).releases x = true := by
              intro x hx
              rw [Token.releases, decide_eq_true_eq]
              exact (op.precedence_le_two).trans (hp x hx)
            simp only [arrive?, List.takeWhile_append_of_pos hreleased,
              List.dropWhile_append_of_pos hreleased, Option.map_some]
      rw [toPostfixFrom_cons, toPostfixFrom_cons, hstep]
      cases arrive? stack token with
      | none => rfl
      | some step =>
          change (toPostfixFrom step.2 us).map (p ++ step.1 ++ ·) =
            ((toPostfixFrom step.2 us).map (step.1 ++ ·)).map (p ++ ·)
          cases toPostfixFrom step.2 us with
          | error f => rfl
          | ok out => exact congrArg Except.ok (List.append_assoc ..)

/-- The stack that the tokens leave has their operators, or they are refused. -/
theorem reads_openOperators_or_fails (ts : List Token) :
    (∃ given after : List Token, Reads [] ts given after ∧
      stackOperators after = openOperators ts) ∨
      ∃ f : Fault, ∀ rest : List Token, toPostfixFrom [] (ts ++ rest) = .error f := by
  have hreads := reads_or_fails []
    (fun ts after => stackOperators after = openOperators ts ∧ .closing ∉ after)
    ⟨rfl, List.not_mem_nil⟩ (fun {ts after given next token} hafter harrival => by
      rw [stackOperators_of_arrive? harrival hafter.2, hafter.1, openOperators_concat]
      exact ⟨rfl, (isParenthesis_of_arrive? harrival hafter.2).2⟩) ts
  exact hreads.imp (fun ⟨given, after, h, hafter, _⟩ => ⟨given, after, h, hafter⟩) id

end Stack

section Value

variable {ts us : List Token}

/-- What is reduced alike over all values is reduced alike wherever it stands. -/
theorem reduce_append_congr {vs ws : List Token}
    (h : ∀ values : List Float, vs.foldlM reduceStep values = ws.foldlM reduceStep values)
    (ts us : List Token) : reduce (ts ++ vs ++ us) = reduce (ts ++ ws ++ us) := by
  rw [reduce, reduce]
  simp only [List.foldlM_append, h]

/-- Minus signs may stand before a dividend or before the quotient. -/
theorem foldlM_reduceStep_negates {y : Float} (hy : (y == 0.0) = false) (k : Nat) (x : Float)
    (values : List Float) :
    List.foldlM reduceStep (x :: values)
        (List.replicate k Token.negate ++ [Token.number y, .operator .divide]) =
      List.foldlM reduceStep (x :: values)
        ([Token.number y, .operator .divide] ++ List.replicate k Token.negate) := by
  have hquotient : ∀ x : Float, [Token.number y, .operator .divide].foldlM reduceStep
      (x :: values) = .ok (x / y :: values) := by
    intro x
    have happly : Operator.divide.apply x y = .ok (x / y) := by
      rw [Operator.apply, hy, if_neg (by simp)]
      rfl
    change (reduceStep (y :: x :: values) (.operator .divide)).bind _ = _
    rw [Tree.reduceStep_operator, happly]
    rfl
  induction k generalizing x with
  | zero => rw [List.replicate_zero, List.nil_append, List.append_nil]
  | succ k ih =>
      rw [List.replicate_succ, List.cons_append]
      change List.foldlM reduceStep (-x :: values)
        (List.replicate k Token.negate ++ [Token.number y, .operator .divide]) = _
      rw [ih, List.foldlM_append, List.foldlM_append, hquotient, hquotient, Binary64.neg_div]
      rfl

/-- A quotient behind the tokens has the parentheses around it or around its dividend only,
where no product is open. -/
theorem value_append_quotient (hts : joinsFactors (openOperators ts) = false)
    (hus : ∀ x ∈ us.head?, x.startsOperand = false) (x : Float) {y : Float}
    (hy : (y == 0.0) = false) :
    Token.value
        (ts ++ ([Token.opening, .number x, .operator .divide, .number y, .closing] ++ us)) =
      Token.value
        (ts ++ ([Token.opening, .number x, .closing, .operator .divide, .number y] ++ us)) := by
  rcases reads_openOperators_or_fails ts with ⟨given, after, hreads, hafter⟩ | ⟨f, hf⟩
  · rw [← hafter] at hts
    obtain ⟨k, below, rfl, hbelow⟩ := exists_negates hts
    have hnegates : ∀ x ∈ List.replicate k Token.negate, 2 ≤ x.precedence := by
      intro x hx
      rw [List.eq_of_mem_replicate hx]
      decide
    have hnumber : toPostfix [.number x] = .ok [.number x] := rfl
    have hdivided : toPostfix [.number x, .operator .divide, .number y] =
        .ok [.number x, .number y, .operator .divide] := rfl
    have hquotient := reads_group hdivided (List.replicate k Token.negate ++ below)
    have hdividend := reads_group hnumber (List.replicate k Token.negate ++ below)
    have hdivision : Reads (List.replicate k Token.negate ++ below) [.operator .divide]
        (List.replicate k Token.negate) (.operator .divide :: below) := .operator hnegates hbelow
    have hdivisor : Reads (.operator .divide :: below) [.number y] [.number y]
        (.operator .divide :: below) := .of_arrive? rfl
    have hparts := (hdividend.append hdivision).append hdivisor
    have horder : toPostfix (ts ++
        ([Token.opening, .number x, .operator .divide, .number y, .closing] ++ us)) =
        (toPostfixFrom below us).map
          (given ++ ([Token.number x] ++ ([Token.number y, .operator .divide] ++
            List.replicate k Token.negate)) ++ ·) := by
      have hread := (hreads.append hquotient) us
      rw [toPostfixFrom_append hnegates hus] at hread
      rw [toPostfix, ← List.append_assoc ts]
      refine hread.trans ?_
      cases toPostfixFrom below us <;> simp [Except.map]
    have horder' : toPostfix (ts ++
        ([Token.opening, .number x, .closing, .operator .divide, .number y] ++ us)) =
        (toPostfixFrom below us).map
          (given ++ ([Token.number x] ++ (List.replicate k Token.negate ++
            [Token.number y, .operator .divide])) ++ ·) := by
      have hread := (hreads.append hparts) us
      have hbinds : ∀ x ∈ [Token.operator .divide], 2 ≤ x.precedence := by decide
      have hrelease : toPostfixFrom (.operator .divide :: below) us =
          (toPostfixFrom below us).map ([Token.operator .divide] ++ ·) :=
        toPostfixFrom_append hbinds hus below
      rw [hrelease] at hread
      rw [toPostfix, ← List.append_assoc ts]
      refine hread.trans ?_
      cases toPostfixFrom below us <;> simp [Except.map]
    rw [Token.value, Token.value, horder, horder']
    cases toPostfixFrom below us with
    | error f => rfl
    | ok out =>
        refine reduce_append_congr (fun values => ?_) given out
        exact (foldlM_reduceStep_negates hy k x values).symm
  · rw [Token.value, Token.value, toPostfix, toPostfix, hf, hf]

end Value

end Calculator
