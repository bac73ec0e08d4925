import Calculator.Proofs.Postfix.Order
import Calculator.Proofs.Tree.Reduction

/-!
# Groups as operands

What has a value by itself has the same one in parentheses, wherever they stand. An open
parenthesis keeps what is below it on the stack out of reach (`arrive?_over_opening`), so
that the tokens behind it are brought into the order that they have by themselves
(`reads_group`); and a reduction that succeeds leaves alone the values below it
(`foldlM_reduceStep_over`). `Denotes` says both of a list of tokens. Nothing is asked of
the tokens but that they have a value; they need not spell a tree.
-/

namespace Calculator

section Order

variable {stack below given after ts out : List Token}

/-- No parenthesis is released, and so nothing below one. -/
theorem takeWhile_over_opening {token : Token} (h : 0 < token.precedence)
    (stack below : List Token) :
    (stack ++ .opening :: below).takeWhile token.releases = stack.takeWhile token.releases ∧
      (stack ++ .opening :: below).dropWhile token.releases =
        stack.dropWhile token.releases ++ .opening :: below := by
  have hopening : ¬token.releases .opening = true := by
    rw [Token.releases, decide_eq_true_eq]
    exact Nat.not_le_of_lt h
  induction stack with
  | nil =>
      rw [List.nil_append, List.takeWhile_cons_of_neg hopening,
        List.dropWhile_cons_of_neg hopening]
      exact ⟨rfl, rfl⟩
  | cons x stack ih =>
      rw [List.cons_append]
      by_cases hx : token.releases x = true
      · rw [List.takeWhile_cons_of_pos hx, List.dropWhile_cons_of_pos hx,
          List.takeWhile_cons_of_pos hx, List.dropWhile_cons_of_pos hx, ih.1]
        exact ⟨rfl, ih.2⟩
      · rw [List.takeWhile_cons_of_neg hx, List.dropWhile_cons_of_neg hx,
          List.takeWhile_cons_of_neg hx, List.dropWhile_cons_of_neg hx]
        exact ⟨rfl, rfl⟩

/-- What arrives does the same above an open parenthesis as on a stack of its own. -/
theorem arrive?_over_opening {token : Token} (h : arrive? stack token = some (given, after)) :
    arrive? (stack ++ .opening :: below) token = some (given, after ++ .opening :: below) := by
  cases token with
  | number v => cases h; rfl
  | opening => cases h; rfl
  | closing =>
      obtain ⟨rfl, hgroup⟩ := closeGroup?_eq_some_iff.1 h
      rw [List.append_assoc, List.cons_append]
      exact closeGroup?_append hgroup
  | operator op =>
      cases h
      obtain ⟨htake, hdrop⟩ :=
        takeWhile_over_opening (Token.precedence_operator_pos op) stack below
      exact congrArg some (Prod.ext htake (congrArg (Token.operator op :: ·) hdrop))
  | negate =>
      cases h
      have hsign : 0 < Token.negate.precedence := by decide
      obtain ⟨htake, hdrop⟩ := takeWhile_over_opening hsign stack below
      exact congrArg some (Prod.ext htake (congrArg (Token.negate :: ·) hdrop))

/-- Tokens that can be converted by themselves are converted alike above an open
parenthesis; what their end would give out is left on the stack. -/
theorem exists_reads_over_opening (h : toPostfixFrom stack ts = .ok out) :
    ∃ given after : List Token, out = given ++ after ∧ .opening ∉ after ∧
      ∀ below : List Token,
        Reads (stack ++ .opening :: below) ts given (after ++ .opening :: below) := by
  induction ts generalizing stack out with
  | nil =>
      rw [toPostfixFrom] at h
      split at h
      · cases h
      · next hopening =>
          cases h
          refine ⟨[], stack, rfl, hopening, fun below rest => ?_⟩
          rw [List.nil_append]
          cases toPostfixFrom (stack ++ .opening :: below) rest <;> rfl
  | cons token ts ih =>
      obtain ⟨given, next, out', hstep, hrest, rfl⟩ := exists_arrive?_of_toPostfixFrom_cons h
      obtain ⟨given', after, rfl, hafter, hreads⟩ := ih hrest
      refine ⟨given ++ given', after, (List.append_assoc ..).symm, hafter, fun below => ?_⟩
      exact (Reads.of_arrive? (arrive?_over_opening hstep)).append (hreads below)

/-- A group gives out what its tokens give out by themselves. -/
theorem reads_group (h : toPostfix ts = .ok out) (stack : List Token) :
    Reads stack (.opening :: ts ++ [.closing]) out stack := by
  obtain ⟨given, after, rfl, hafter, hreads⟩ := exists_reads_over_opening h
  have hopening : Reads stack [.opening] [] (.opening :: stack) := .of_arrive? rfl
  have hclosing : Reads (after ++ .opening :: stack) [.closing] after stack :=
    .of_arrive? (closeGroup?_append hafter)
  simpa using (hopening.append (hreads stack)).append hclosing

/-- Tokens are converted up to their end, or up to a fault that nothing behind them changes.
What holds of the stack before them and is kept whenever a token arrives holds of the stack
that they leave. -/
theorem reads_or_fails (stack : List Token) (P : List Token → List Token → Prop)
    (hnil : P [] stack)
    (hstep : ∀ {ts after given next : List Token} {token : Token}, P ts after →
      arrive? after token = some (given, next) → P (ts ++ [token]) next) (ts : List Token) :
    (∃ given after : List Token, Reads stack ts given after ∧ P ts after) ∨
      ∃ f : Fault, ∀ rest : List Token, toPostfixFrom stack (ts ++ rest) = .error f := by
  induction ts using List.reverseRecOn with
  | nil =>
      refine Or.inl ⟨[], stack, fun rest => ?_, hnil⟩
      rw [List.nil_append]
      cases toPostfixFrom stack rest <;> rfl
  | append_singleton ts token ih =>
      rcases ih with ⟨given, after, hreads, hP⟩ | ⟨f, hf⟩
      · cases harrival : arrive? after token with
        | none =>
            refine Or.inr ⟨.unbalanced, fun rest => ?_⟩
            rw [List.append_assoc, hreads, List.singleton_append, toPostfixFrom_cons, harrival]
            rfl
        | some step =>
            exact Or.inl ⟨given ++ step.1, step.2, hreads.append (.of_arrive? harrival),
              hstep hP harrival⟩
      · refine Or.inr ⟨f, fun rest => ?_⟩
        rw [List.append_assoc]
        exact hf _

/-- A token behind which an operand is due is on top of the stack once it has arrived. -/
theorem head?_of_arrive? {token : Token} (h : arrive? stack token = some (given, after))
    (hdue : token.operandDue = true) : after.head? = some token := by
  cases token with
  | number v => cases hdue
  | closing => cases hdue
  | opening => cases h; rfl
  | operator op => cases h; rfl
  | negate => cases h; rfl

/-- What is done alike over every stack that the tokens can leave is done alike behind
them. -/
theorem toPostfix_append_congr {us vs : List Token}
    (h : ∀ after : List Token, (ts = [] → after = []) →
      (∀ x ∈ ts.getLast?, x.operandDue = true → after.head? = some x) →
        toPostfixFrom after us = toPostfixFrom after vs) :
    toPostfix (ts ++ us) = toPostfix (ts ++ vs) := by
  have hreads := reads_or_fails []
    (fun ts after => (ts = [] → after = []) ∧
      ∀ x ∈ ts.getLast?, x.operandDue = true → after.head? = some x)
    ⟨fun _ => rfl, by simp⟩ (fun _ harrival => by simpa using head?_of_arrive? harrival) ts
  rcases hreads with ⟨given, after, hreads, hnil, htop⟩ | ⟨f, hf⟩
  · rw [toPostfix, toPostfix, hreads, hreads, h after hnil htop]
  · rw [toPostfix, toPostfix, hf, hf]

/-- A number at the end may be written in parentheses. -/
theorem toPostfix_append_number (ts : List Token) (v : Float) :
    toPostfix (ts ++ [.number v]) = toPostfix (ts ++ [.opening, .number v, .closing]) := by
  refine toPostfix_append_congr fun after _ _ => ?_
  have hnumber : Reads after [.number v] [.number v] after := .of_arrive? rfl
  have horder : toPostfix [.number v] = .ok [.number v] := rfl
  exact (hnumber []).trans (reads_group horder after []).symm

/-- A number with a sign at the end may be written in parentheses, if no sign stands before
it. -/
theorem toPostfix_append_negated {ts : List Token}
    (hts : ∀ x ∈ ts.getLast?, x.operandDue = true ∧ x ≠ .negate) (v : Float) :
    toPostfix (ts ++ [.negate, .number v]) =
      toPostfix (ts ++ [.opening, .negate, .number v, .closing]) := by
  refine toPostfix_append_congr fun after hnil htop => ?_
  have hstack : ∀ x ∈ after.head?, x.precedence < 3 := by
    rcases List.eq_nil_or_concat' ts with rfl | ⟨ts, token, rfl⟩
    · rw [hnil rfl]
      simp
    · obtain ⟨hdue, hnegate⟩ := hts token (by simp)
      rw [htop token (by simp) hdue]
      rintro x ⟨⟩
      cases token with
      | operator op => cases op <;> decide
      | opening => decide
      | negate => exact absurd rfl hnegate
      | number v => cases hdue
      | closing => cases hdue
  have hnumber : Reads (.negate :: after) [.number v] [.number v] (.negate :: after) :=
    .of_arrive? rfl
  have hsigned := ((Reads.negate hstack).append hnumber) []
  have horder : toPostfix [.negate, .number v] = .ok [.number v, .negate] := rfl
  have hgroup := reads_group horder after []
  simp only [List.append_nil, List.singleton_append, List.nil_append] at hsigned hgroup
  refine hsigned.trans (Eq.trans ?_ hgroup.symm)
  by_cases hopening : .opening ∈ after
  · simp [toPostfixFrom, hopening, Except.map]
  · simp [toPostfixFrom, hopening, Except.map]

/-- What is read over the empty stack is the postfix order. -/
theorem Reads.toPostfix_eq (h : Reads [] ts out after) (hafter : .opening ∉ after) :
    toPostfix ts = .ok (out ++ after) := by
  have hall := h []
  rw [List.append_nil] at hall
  rw [toPostfix, hall, toPostfixFrom, if_neg hafter]
  rfl

end Order

section Reduction

variable {ts : List Token} {stack after : List Float}

theorem reduceStep_over {token : Token} (h : reduceStep stack token = .ok after)
    (below : List Float) : reduceStep (stack ++ below) token = .ok (after ++ below) := by
  cases token with
  | number v => cases h; rfl
  | negate =>
      cases stack with
      | nil => cases h
      | cons x stack => cases h; rfl
  | operator op =>
      rcases stack with _ | ⟨b, _ | ⟨a, stack⟩⟩
      · cases h
      · cases h
      · rw [Tree.reduceStep_operator] at h
        rw [List.cons_append, List.cons_append, Tree.reduceStep_operator]
        cases hvalue : op.apply a b with
        | error f => rw [hvalue] at h; cases h
        | ok v => rw [hvalue] at h; cases h; rfl
  | opening => cases stack <;> cases h
  | closing => cases stack <;> cases h

/-- A reduction that succeeds leaves alone the values below it. -/
theorem foldlM_reduceStep_over (h : ts.foldlM reduceStep stack = .ok after)
    (below : List Float) : ts.foldlM reduceStep (stack ++ below) = .ok (after ++ below) := by
  induction ts generalizing stack with
  | nil => cases h; rfl
  | cons token ts ih =>
      rw [List.foldlM_cons] at h
      obtain ⟨next, hstep, hrest⟩ := exists_of_bind_eq_ok h
      rw [List.foldlM_cons, reduceStep_over hstep below]
      exact ih hrest

theorem reduce_eq_ok_iff {v : Float} :
    reduce ts = .ok v ↔ ts.foldlM reduceStep [] = .ok [v] := by
  rw [reduce]
  constructor
  · intro h
    obtain ⟨after, hafter, hvalue⟩ := exists_of_bind_eq_ok h
    rcases after with _ | ⟨x, _ | ⟨y, after⟩⟩
    · cases hvalue
    · cases hvalue
      exact hafter
    · cases hvalue
  · intro h
    rw [h]
    rfl

end Reduction

/-- The tokens are an operand with the value `v`: over every stack they give out the same
tokens and leave the stack, and these put the value on the values before it. -/
def Denotes (ts : List Token) (v : Float) : Prop :=
  ∃ out : List Token, (∀ stack : List Token, Reads stack ts out stack) ∧
    ∀ values : List Float, out.foldlM reduceStep values = .ok (v :: values)

/-- The value of tokens, or the fault that they have none. -/
def Token.value (ts : List Token) : Except Fault Float :=
  toPostfix ts >>= reduce

namespace Denotes

variable {ts us : List Token} {x y : Float}

theorem number (v : Float) : Denotes [.number v] v :=
  ⟨[.number v], fun _ => .of_arrive? rfl, fun _ => rfl⟩

/-- Tokens with a value are an operand once they stand in parentheses. -/
theorem group (h : Token.value ts = .ok x) : Denotes (.opening :: ts ++ [.closing]) x := by
  obtain ⟨out, hout, hvalue⟩ := exists_of_bind_eq_ok h
  refine ⟨out, reads_group hout, fun values => ?_⟩
  exact foldlM_reduceStep_over (reduce_eq_ok_iff.1 hvalue) values

theorem value_eq (h : Denotes ts x) : Token.value ts = .ok x := by
  obtain ⟨out, hreads, hvalue⟩ := h
  have horder := (hreads []).toPostfix_eq List.not_mem_nil
  rw [List.append_nil] at horder
  rw [Token.value, horder]
  exact reduce_eq_ok_iff.2 (hvalue [])

theorem value_negate (h : Denotes ts x) : Token.value (.negate :: ts) = .ok (-x) := by
  obtain ⟨out, hreads, hvalue⟩ := h
  have hsign : Reads [] [.negate] [] [.negate] := .of_arrive? rfl
  have horder := (hsign.append (hreads [.negate])).toPostfix_eq (by decide)
  rw [List.singleton_append, List.nil_append] at horder
  rw [Token.value, horder]
  refine reduce_eq_ok_iff.2 ?_
  rw [List.foldlM_append, hvalue]
  rfl

theorem value_binary (hts : Denotes ts x) (hus : Denotes us y) (op : Operator) :
    Token.value (ts ++ .operator op :: us) = op.apply x y := by
  obtain ⟨out, hreads, hvalue⟩ := hts
  obtain ⟨out', hreads', hvalue'⟩ := hus
  have hop : Reads [] [.operator op] [] [.operator op] := .of_arrive? rfl
  have horder := (((hreads []).append hop).append (hreads' [.operator op])).toPostfix_eq (by simp)
  rw [List.append_nil, List.append_assoc, List.singleton_append] at horder
  rw [Token.value, horder]
  change reduce (out ++ out' ++ [.operator op]) = _
  rw [reduce, List.foldlM_append, List.foldlM_append, hvalue]
  change ((out'.foldlM reduceStep [x] >>= fun values =>
    [Token.operator op].foldlM reduceStep values) >>= _) = _
  rw [hvalue']
  change ([Token.operator op].foldlM reduceStep [y, x] >>= _) = _
  rw [List.foldlM_cons, Tree.reduceStep_operator]
  cases op.apply x y <;> rfl

end Denotes

end Calculator
