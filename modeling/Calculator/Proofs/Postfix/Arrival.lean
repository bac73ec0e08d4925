import Mathlib.Data.List.Perm.Basic
import Mathlib.Data.List.TakeWhile
import Calculator.Postfix

/-!
# The arrival of one token

`arrive? stack token` says all that one token does to the conversion into
postfix order: which tokens it gives out, and which stack it leaves. Only a
closing parenthesis without an open group has no answer. The conversion of a
list is the composition of its arrivals (`toPostfixFrom_cons`), so that what
holds of every arrival holds of the conversion: no token but the parentheses is
lost or made up (`perm_of_toPostfix`).
-/

namespace Calculator

namespace Token

/-- The token is a parenthesis. -/
def isParenthesis : Token → Bool
  | .opening => true
  | .closing => true
  | _ => false

end Token

/-- The tokens that are given out when a token arrives, and the stack after it;
`none` if it closes a group that is not open. -/
def arrive? (stack : List Token) : Token → Option (List Token × List Token)
  | .number v => some ([.number v], stack)
  | .opening => some ([], .opening :: stack)
  | .closing => closeGroup? stack
  | token => some (stack.takeWhile token.releases, token :: stack.dropWhile token.releases)

theorem toPostfixFrom_cons (stack : List Token) (token : Token) (rest : List Token) :
    toPostfixFrom stack (token :: rest) =
      (arrive? stack token).elim (.error .unbalanced) fun step =>
        (toPostfixFrom step.2 rest).map (step.1 ++ ·) := by
  cases token with
  | number v =>
      change (toPostfixFrom stack rest >>= fun out => pure (.number v :: out)) =
        (toPostfixFrom stack rest).map _
      cases toPostfixFrom stack rest <;> rfl
  | opening =>
      change toPostfixFrom (.opening :: stack) rest =
        (toPostfixFrom (.opening :: stack) rest).map _
      cases toPostfixFrom (.opening :: stack) rest <;> rfl
  | closing =>
      rw [toPostfixFrom, arrive?]
      cases closeGroup? stack with
      | none => rfl
      | some step =>
          change (toPostfixFrom step.2 rest >>= fun out => pure (step.1 ++ out)) =
            (toPostfixFrom step.2 rest).map _
          cases toPostfixFrom step.2 rest <;> rfl
  | operator op =>
      let after := Token.operator op :: stack.dropWhile (Token.operator op).releases
      change (toPostfixFrom after rest >>= fun out => pure (_ ++ out)) =
        (toPostfixFrom after rest).map _
      cases toPostfixFrom after rest <;> rfl
  | negate =>
      let after := Token.negate :: stack.dropWhile Token.negate.releases
      change (toPostfixFrom after rest >>= fun out => pure (_ ++ out)) =
        (toPostfixFrom after rest).map _
      cases toPostfixFrom after rest <;> rfl

/-- A conversion that succeeds begins with an arrival and goes on from there. -/
theorem exists_arrive?_of_toPostfixFrom_cons {stack rest out : List Token} {token : Token}
    (h : toPostfixFrom stack (token :: rest) = .ok out) :
    ∃ given after out' : List Token, arrive? stack token = some (given, after) ∧
      toPostfixFrom after rest = .ok out' ∧ out = given ++ out' := by
  rw [toPostfixFrom_cons] at h
  cases hstep : arrive? stack token with
  | none => rw [hstep] at h; cases h
  | some step =>
      rw [hstep, Option.elim_some] at h
      cases hrest : toPostfixFrom step.2 rest with
      | error f => rw [hrest] at h; cases h
      | ok out' =>
          rw [hrest] at h
          cases h
          exact ⟨step.1, step.2, out', rfl, hrest, rfl⟩

theorem closeGroup?_append {group below : List Token} (h : .opening ∉ group) :
    closeGroup? (group ++ .opening :: below) = some (group, below) := by
  induction group with
  | nil => rfl
  | cons x group ih =>
      rw [List.mem_cons, not_or] at h
      have hrest := ih h.2
      cases x with
      | opening => exact absurd rfl h.1
      | _ => simp [closeGroup?, hrest]

/-- The group that is closed is what stands on the stack above the innermost
open parenthesis. -/
theorem closeGroup?_eq_some_iff {stack group below : List Token} :
    closeGroup? stack = some (group, below) ↔
      stack = group ++ .opening :: below ∧ .opening ∉ group := by
  constructor
  · intro h
    induction stack generalizing group with
    | nil => cases h
    | cons x stack ih =>
        cases x with
        | opening =>
            cases h
            exact ⟨rfl, by simp⟩
        | _ =>
            rw [closeGroup?] at h
            · obtain ⟨⟨group', rest⟩, hrest, heq⟩ := Option.map_eq_some_iff.1 h
              cases heq
              obtain ⟨hstack, hmem⟩ := ih hrest
              exact ⟨by rw [hstack, List.cons_append], by simp [hmem]⟩
            · simp
  · rintro ⟨rfl, hmem⟩
    exact closeGroup?_append hmem

/-- An arrival passes on what is on the stack and the token itself, except for
the parentheses. -/
theorem perm_of_arrive? {stack given after : List Token} {token : Token}
    (h : arrive? stack token = some (given, after)) :
    ((given ++ after).filter (!·.isParenthesis)).Perm
      ((token :: stack).filter (!·.isParenthesis)) := by
  cases token with
  | number v => cases h; rfl
  | opening => cases h; rfl
  | closing =>
      obtain ⟨rfl, -⟩ := closeGroup?_eq_some_iff.1 h
      simp [Token.isParenthesis]
  | operator op =>
      cases h
      refine (List.perm_middle.trans ?_).filter _
      rw [List.takeWhile_append_dropWhile]
  | negate =>
      cases h
      refine (List.perm_middle.trans ?_).filter _
      rw [List.takeWhile_append_dropWhile]

/-- What binds to operands is no parenthesis. -/
theorem Token.isParenthesis_of_precedence_pos {token : Token} (h : 0 < token.precedence) :
    token.isParenthesis = false := by
  cases token with
  | opening => cases h
  | closing => cases h
  | _ => rfl

theorem Token.precedence_operator_pos (op : Operator) : 0 < (Token.operator op).precedence := by
  cases op <;> decide

/-- What is released is no parenthesis. -/
theorem isParenthesis_of_mem_takeWhile {token : Token} (htoken : 0 < token.precedence)
    {stack : List Token} : ∀ x ∈ stack.takeWhile token.releases, x.isParenthesis = false := by
  intro x hx
  have hle : token.precedence ≤ x.precedence := by
    simpa [Token.releases] using List.mem_takeWhile_imp hx
  exact Token.isParenthesis_of_precedence_pos (Nat.lt_of_lt_of_le htoken hle)

/-- An arrival gives out no parentheses, and puts no closing one on the stack. -/
theorem isParenthesis_of_arrive? {stack given after : List Token} {token : Token}
    (h : arrive? stack token = some (given, after)) (hstack : .closing ∉ stack) :
    (∀ x ∈ given, x.isParenthesis = false) ∧ .closing ∉ after := by
  have hkept : ∀ token : Token, .closing ∉ stack.dropWhile token.releases := by
    intro token hmem
    exact hstack ((List.dropWhile_sublist _).subset hmem)
  cases token with
  | number v => cases h; exact ⟨by simp [Token.isParenthesis], hstack⟩
  | opening => cases h; exact ⟨by simp, by simpa using hstack⟩
  | closing =>
      obtain ⟨rfl, hopening⟩ := closeGroup?_eq_some_iff.1 h
      rw [List.mem_append, List.mem_cons, not_or, not_or] at hstack
      refine ⟨?_, hstack.2.2⟩
      intro x hx
      cases x with
      | opening => exact absurd hx hopening
      | closing => exact absurd hx hstack.1
      | _ => rfl
  | operator op =>
      cases h
      refine ⟨isParenthesis_of_mem_takeWhile (Token.precedence_operator_pos op), ?_⟩
      simpa using hkept _
  | negate =>
      cases h
      exact ⟨isParenthesis_of_mem_takeWhile (by decide), by simpa using hkept _⟩

/-- The conversion passes on what is on the stack and what is still to come,
except for the parentheses. -/
theorem perm_of_toPostfixFrom {stack ts out : List Token}
    (h : toPostfixFrom stack ts = .ok out) (hstack : .closing ∉ stack) :
    out.Perm ((stack ++ ts).filter (!·.isParenthesis)) := by
  induction ts generalizing stack out with
  | nil =>
      rw [toPostfixFrom] at h
      split at h
      · cases h
      · next hopening =>
          cases h
          have hall : ∀ x ∈ stack, (!x.isParenthesis) = true := by
            intro x hx
            cases x with
            | opening => exact absurd hx hopening
            | closing => exact absurd hx hstack
            | _ => rfl
          rw [List.append_nil, List.filter_eq_self.2 hall]
  | cons token rest ih =>
      obtain ⟨given, after, out', hstep, hrest, rfl⟩ :=
        exists_arrive?_of_toPostfixFrom_cons h
      obtain ⟨hgiven, hafter⟩ := isParenthesis_of_arrive? hstep hstack
      have hkept : given.filter (!·.isParenthesis) = given :=
        List.filter_eq_self.2 fun x hx => by simp [hgiven x hx]
      have hout := (ih hrest hafter).append_left given
      have harrival := (perm_of_arrive? hstep).append_right (rest.filter (!·.isParenthesis))
      rw [List.filter_append, hkept] at harrival
      rw [List.filter_append, ← List.append_assoc] at hout
      refine hout.trans (harrival.trans ?_)
      rw [← List.filter_append]
      exact List.perm_middle.symm.filter _

/-- The postfix order holds exactly the tokens besides the parentheses. -/
theorem perm_of_toPostfix {ts out : List Token} (h : toPostfix ts = .ok out) :
    out.Perm (ts.filter (!·.isParenthesis)) :=
  perm_of_toPostfixFrom h (by simp)

/-- Only the parentheses change the number of open groups. -/
theorem count_opening_of_arrive? {stack given after : List Token} {token : Token}
    (h : arrive? stack token = some (given, after)) :
    after.count .opening + [token].count .closing =
      stack.count .opening + [token].count .opening := by
  have hkept : ∀ token : Token, 0 < token.precedence →
      (stack.dropWhile token.releases).count .opening = stack.count .opening := by
    intro token htoken
    have hnone : (stack.takeWhile token.releases).count .opening = 0 := by
      rw [List.count_eq_zero]
      intro hmem
      exact absurd (isParenthesis_of_mem_takeWhile htoken _ hmem) (by decide)
    have hcut := congrArg (List.count Token.opening)
      (List.takeWhile_append_dropWhile (p := token.releases) (l := stack))
    rwa [List.count_append, hnone, Nat.zero_add] at hcut
  cases token with
  | number v => cases h; simp
  | opening => cases h; simp
  | closing =>
      obtain ⟨rfl, hopening⟩ := closeGroup?_eq_some_iff.1 h
      rw [List.count_append, List.count_eq_zero.2 hopening]
      simp
  | operator op =>
      cases h
      simpa using hkept _ (Token.precedence_operator_pos op)
  | negate =>
      cases h
      simpa using hkept _ (by decide)

end Calculator
