import Calculator.Proofs.Postfix.Acceptance

/-!
# The faults of the postfix order

The conversion into postfix order fails exactly on the token lists that do not close
their groups, and knows no other fault (`toPostfix_eq_error_iff`). What it gives out
holds no parentheses, so that the reduction never meets one and fails for two reasons
only (`fault_of_reduce`).
-/

namespace Calculator

/-- Only a closing parenthesis can fail to arrive. -/
theorem exists_arrive? {stack : List Token} {token : Token}
    (h : token = .closing → .opening ∈ stack) :
    ∃ given after : List Token, arrive? stack token = some (given, after) := by
  cases token with
  | closing =>
      obtain ⟨group, below, rfl, hgroup⟩ := List.eq_append_cons_of_mem (h rfl)
      exact ⟨group, below, closeGroup?_append hgroup⟩
  | _ => exact ⟨_, _, rfl⟩

/-- Tokens that close the groups on the stack can be converted. -/
theorem exists_toPostfixFrom_of_closes (stack : List Token) {ts : List Token}
    (h : Closes (stack.count .opening) ts) :
    ∃ out : List Token, toPostfixFrom stack ts = .ok out := by
  induction ts generalizing stack with
  | nil =>
      refine ⟨stack, ?_⟩
      rw [toPostfixFrom, if_neg (List.count_eq_zero.1 h)]
  | cons token rest ih =>
      have hclosing : token = .closing → .opening ∈ stack := by
        rintro rfl
        refine List.count_pos_iff.1 (Nat.pos_of_ne_zero fun hzero => ?_)
        rw [hzero] at h
        exact h
      obtain ⟨given, after, hstep⟩ := exists_arrive? hclosing
      have hcount := count_opening_of_arrive? hstep
      have hrest : Closes (after.count .opening) rest := by
        cases token with
        | opening =>
            rw [List.count_singleton_self] at hcount
            rwa [show after.count .opening = stack.count .opening + 1 from hcount]
        | closing =>
            rw [List.count_singleton_self] at hcount
            rw [show stack.count .opening = after.count .opening + 1 from hcount.symm] at h
            exact h
        | _ =>
            have heq : after.count .opening = stack.count .opening := hcount
            rwa [heq]
      obtain ⟨out, hout⟩ := ih after hrest
      refine ⟨given ++ out, ?_⟩
      rw [toPostfixFrom_cons, hstep, Option.elim_some, hout]
      rfl

theorem fault_of_toPostfixFrom {stack ts : List Token} {f : Fault}
    (h : toPostfixFrom stack ts = .error f) : f = .unbalanced := by
  induction ts generalizing stack with
  | nil =>
      rw [toPostfixFrom] at h
      split at h
      · cases h; rfl
      · cases h
  | cons token rest ih =>
      rw [toPostfixFrom_cons] at h
      cases hstep : arrive? stack token with
      | none => rw [hstep] at h; cases h; rfl
      | some step =>
          rw [hstep, Option.elim_some] at h
          cases hrest : toPostfixFrom step.2 rest with
          | ok out => rw [hrest] at h; cases h
          | error g =>
              rw [hrest] at h
              cases h
              exact ih hrest

/-- The conversion fails exactly if a group is not closed or closed without having
been opened, and then with that fault. -/
theorem toPostfix_eq_error_iff {ts : List Token} {f : Fault} :
    toPostfix ts = .error f ↔ f = .unbalanced ∧ ¬Closes 0 ts := by
  constructor
  · refine fun h => ⟨fault_of_toPostfixFrom h, fun hcloses => ?_⟩
    obtain ⟨out, hout⟩ := exists_toPostfixFrom_of_closes [] hcloses
    rw [toPostfix, hout] at h
    cases h
  · rintro ⟨rfl, hcloses⟩
    cases hout : toPostfix ts with
    | ok out => exact absurd (closes_of_toPostfix hout) hcloses
    | error g => rw [fault_of_toPostfixFrom hout]

theorem fault_of_reduceStep {stack : List Float} {token : Token} {f : Fault}
    (htoken : token.isParenthesis = false) (h : reduceStep stack token = .error f) :
    f = .malformed ∨ f = .divisionByZero := by
  cases token with
  | number v => cases h
  | negate =>
      cases stack with
      | nil => cases h; exact Or.inl rfl
      | cons x stack => cases h
  | operator op =>
      rcases stack with _ | ⟨b, _ | ⟨a, stack⟩⟩
      · cases h; exact Or.inl rfl
      · cases h; exact Or.inl rfl
      · rw [reduceStep, Operator.apply] at h
        split at h
        · cases h; exact Or.inr rfl
        · cases h
  | opening => cases htoken
  | closing => cases htoken

theorem fault_of_foldlM_reduceStep {ts : List Token} {stack : List Float} {f : Fault}
    (hts : ∀ x ∈ ts, x.isParenthesis = false) (h : ts.foldlM reduceStep stack = .error f) :
    f = .malformed ∨ f = .divisionByZero := by
  induction ts generalizing stack with
  | nil => cases h
  | cons token ts ih =>
      rw [List.foldlM_cons] at h
      cases hstep : reduceStep stack token with
      | error g =>
          rw [hstep] at h
          cases h
          exact fault_of_reduceStep (hts token (List.mem_cons_self ..)) hstep
      | ok next =>
          rw [hstep] at h
          exact ih (fun x hx => hts x (List.mem_cons_of_mem token hx)) h

/-- Without parentheses a reduction has two faults only. -/
theorem fault_of_reduce {ts : List Token} {f : Fault}
    (hts : ∀ x ∈ ts, x.isParenthesis = false) (h : reduce ts = .error f) :
    f = .malformed ∨ f = .divisionByZero := by
  rw [reduce] at h
  cases hfold : ts.foldlM reduceStep [] with
  | error g =>
      rw [hfold] at h
      cases h
      exact fault_of_foldlM_reduceStep hts hfold
  | ok after =>
      rw [hfold] at h
      rcases after with _ | ⟨x, _ | ⟨y, after⟩⟩
      · cases h; exact Or.inl rfl
      · cases h
      · cases h; exact Or.inl rfl

/-- The postfix order holds no parentheses. -/
theorem isParenthesis_of_toPostfix {ts out : List Token} (h : toPostfix ts = .ok out) :
    ∀ x ∈ out, x.isParenthesis = false := by
  intro x hx
  have hmem := (perm_of_toPostfix h).subset hx
  simpa using (List.mem_filter.1 hmem).2

end Calculator
