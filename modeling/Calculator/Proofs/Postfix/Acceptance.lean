import Mathlib.Data.List.Chain
import Calculator.Proofs.Grammar.Recognition
import Calculator.Proofs.Postfix.Arrival

/-!
# The token lists that have a value

The postfix order forgets where the tokens stood, and its reduction only counts:
a list that has a value holds one number more than it holds binary operators
(`countP_isNumber_of_reduce`), and its groups are closed in order
(`closes_of_toPostfix`). Whether operands and operators take turns in it is
another question. An operand directly behind a complete one can make up for an
operator that lacks an operand elsewhere, and nothing else can
(`countP_isNumber_le`). So a list that has a value spells a tree exactly if no
operand in it directly follows another one.
-/

namespace Calculator

namespace Token

/-- The token is a number. -/
def isNumber : Token → Bool
  | .number _ => true
  | _ => false

/-- The token is a binary operator. -/
def isBinary : Token → Bool
  | .operator _ => true
  | _ => false

theorem isParenthesis_of_isNumber {x : Token} (h : x.isNumber = true) :
    x.isParenthesis = false := by
  cases x <;> first | rfl | cases h

theorem isParenthesis_of_isBinary {x : Token} (h : x.isBinary = true) :
    x.isParenthesis = false := by
  cases x <;> first | rfl | cases h

/-- A number ends an operand and a binary operator asks for one; no other token
changes how many are due. -/
theorem toNat_isNumber_add (x : Token) :
    x.isNumber.toNat + x.operandDue.toNat = x.isBinary.toNat + x.startsOperand.toNat := by
  cases x <;> rfl

end Token

/-- No operand begins directly behind a complete one. -/
def Separate (ts : List Token) : Prop :=
  ts.IsChain fun a b => ¬(a.operandDue = false ∧ b.startsOperand = true)

/-- The groups on the stack and those still to come are closed. -/
theorem closes_of_toPostfixFrom {stack ts out : List Token}
    (h : toPostfixFrom stack ts = .ok out) : Closes (stack.count .opening) ts := by
  induction ts generalizing stack out with
  | nil =>
      rw [toPostfixFrom] at h
      split at h
      · cases h
      · next hopening => exact List.count_eq_zero.2 hopening
  | cons token rest ih =>
      obtain ⟨given, after, out', hstep, hrest, -⟩ := exists_arrive?_of_toPostfixFrom_cons h
      have hcount := count_opening_of_arrive? hstep
      have hcloses := ih hrest
      cases token with
      | opening =>
          rw [List.count_singleton_self] at hcount
          rwa [Closes, ← hcount]
      | closing =>
          rw [List.count_singleton_self] at hcount
          rw [show stack.count .opening = after.count .opening + 1 from hcount.symm]
          exact hcloses
      | _ =>
          have heq : after.count .opening = stack.count .opening := hcount
          rwa [heq] at hcloses

theorem closes_of_toPostfix {ts out : List Token} (h : toPostfix ts = .ok out) : Closes 0 ts :=
  closes_of_toPostfixFrom h

/-- A number makes the stack of values longer by one, and a binary operator makes
it shorter by one. -/
theorem length_of_reduceStep {stack after : List Float} {token : Token}
    (h : reduceStep stack token = .ok after) :
    after.length + [token].countP Token.isBinary =
      stack.length + [token].countP Token.isNumber := by
  cases token with
  | number v => cases h; rfl
  | negate =>
      cases stack with
      | nil => cases h
      | cons x stack => cases h; rfl
  | operator op =>
      rcases stack with _ | ⟨b, _ | ⟨a, stack⟩⟩
      · cases h
      · cases h
      · obtain ⟨x, -, hx⟩ := exists_of_bind_eq_ok h
        cases hx
        rfl
  | opening => cases stack <;> cases h
  | closing => cases stack <;> cases h

theorem length_of_foldlM_reduceStep {ts : List Token} {stack after : List Float}
    (h : ts.foldlM reduceStep stack = .ok after) :
    after.length + ts.countP Token.isBinary = stack.length + ts.countP Token.isNumber := by
  induction ts generalizing stack with
  | nil => cases h; rfl
  | cons token ts ih =>
      rw [List.foldlM_cons] at h
      obtain ⟨next, hstep, hrest⟩ := exists_of_bind_eq_ok h
      have hhead := length_of_reduceStep hstep
      have htail := ih hrest
      rw [← List.singleton_append, List.countP_append, List.countP_append]
      omega

/-- A reduction ends with one value: all numbers but one are used up. -/
theorem countP_isNumber_of_reduce {ts : List Token} {v : Float} (h : reduce ts = .ok v) :
    ts.countP Token.isNumber = ts.countP Token.isBinary + 1 := by
  obtain ⟨after, hfold, hafter⟩ := exists_of_bind_eq_ok h
  have hlength := length_of_foldlM_reduceStep hfold
  rcases after with _ | ⟨x, _ | ⟨y, after⟩⟩
  · cases hafter
  · rw [List.length_singleton, List.length_nil] at hlength
    omega
  · cases hafter

/-- What is no parenthesis is as often in the postfix order as in the list. -/
theorem countP_of_toPostfix {ts out : List Token} {p : Token → Bool}
    (hp : ∀ x : Token, p x = true → x.isParenthesis = false) (h : toPostfix ts = .ok out) :
    out.countP p = ts.countP p := by
  rw [(perm_of_toPostfix h).countP_eq, List.countP_filter]
  refine List.countP_congr fun x _ => ?_
  constructor
  · intro hx
    exact (Bool.and_eq_true_iff.1 hx).1
  · intro hx
    simp [hx, hp x hx]

/-- Where no operand directly follows another one, there are at most as many
numbers as the operators have room for; if there are as many, then operands and
operators take turns. -/
theorem countP_isNumber_le {due : Bool} {ts : List Token} (hsep : Separate ts)
    (hhead : due = false → ∀ x ∈ ts.head?, x.startsOperand = false) :
    ts.countP Token.isNumber ≤ ts.countP Token.isBinary + due.toNat ∧
      (ts.countP Token.isNumber = ts.countP Token.isBinary + due.toNat →
        Alternates due ts) := by
  induction ts generalizing due with
  | nil =>
      refine ⟨Nat.zero_le _, ?_⟩
      cases due with
      | false => exact fun _ => rfl
      | true => exact fun heq => absurd heq (by decide)
  | cons x ts ih =>
      obtain ⟨hnext, hrest⟩ := List.isChain_cons.1 hsep
      have hstarts : x.operandDue = false → ∀ y ∈ ts.head?, y.startsOperand = false := by
        intro hx y hy
        have hne := hnext y hy
        simpa [hx] using hne
      obtain ⟨hle, halt⟩ := ih hrest hstarts
      have hturn := x.toNat_isNumber_add
      have hdue : x.startsOperand.toNat ≤ due.toNat := by
        cases due with
        | true => exact Bool.toNat_le _
        | false => rw [hhead rfl x (by simp)]
      have hnumber : (x :: ts).countP Token.isNumber =
          ts.countP Token.isNumber + x.isNumber.toNat := by
        cases h : x.isNumber <;> simp [h]
      have hbinary : (x :: ts).countP Token.isBinary =
          ts.countP Token.isBinary + x.isBinary.toNat := by
        cases h : x.isBinary <;> simp [h]
      rw [hnumber, hbinary]
      refine ⟨by omega, fun heq => ⟨?_, halt (by omega)⟩⟩
      have hsame : x.startsOperand.toNat = due.toNat := by omega
      cases due with
      | false => exact Bool.toNat_eq_zero.1 hsame
      | true => exact Bool.toNat_eq_one.1 hsame

/-- The tokens of a spelled tree take turns, so no operand directly follows
another one. -/
theorem separate_of_alternates {due : Bool} {ts : List Token} (h : Alternates due ts) :
    Separate ts := by
  induction ts generalizing due with
  | nil => exact .nil
  | cons x ts ih =>
      obtain ⟨-, hrest⟩ := h
      refine List.isChain_cons.2 ⟨?_, ih hrest⟩
      intro y hy hjuxtaposed
      cases ts with
      | nil => cases hy
      | cons z ts =>
          obtain rfl : z = y := by simpa using hy
          have hstarts : z.startsOperand = x.operandDue := hrest.1
          rw [hjuxtaposed.1, hjuxtaposed.2] at hstarts
          cases hstarts

/-- A list of tokens that has a value spells a tree exactly if no operand begins
directly behind a complete one. In particular no operator of it lacks an operand
then. -/
theorem spells_iff_separate_of_value {ts : List Token} {v : Float}
    (h : (toPostfix ts >>= reduce) = .ok v) :
    (∃ t : Tree, Spells .sum ts t) ↔ Separate ts := by
  obtain ⟨out, horder, hreduce⟩ := exists_of_bind_eq_ok h
  have hcount := countP_isNumber_of_reduce hreduce
  rw [countP_of_toPostfix (fun _ => Token.isParenthesis_of_isNumber) horder,
    countP_of_toPostfix (fun _ => Token.isParenthesis_of_isBinary) horder] at hcount
  refine spellsSome_iff.trans ⟨fun hspells => separate_of_alternates hspells.1, fun hsep => ?_⟩
  have hhead : true = false → ∀ x ∈ ts.head?, x.startsOperand = false := fun heq => by cases heq
  have halt := countP_isNumber_le hsep hhead
  exact ⟨halt.2 hcount, closes_of_toPostfix horder⟩

/-- `2-(3)` has a value and spells a tree. -/
theorem exists_spells_two_minus_group :
    ∃ t : Tree, Spells .sum [.number (Decimal.toFloat ⟨2, 0⟩), .operator .minus, .opening,
      .number (Decimal.toFloat ⟨3, 0⟩), .closing] t := by
  refine (spells_iff_separate_of_value (v := Decimal.toFloat ⟨2, 0⟩ - Decimal.toFloat ⟨3, 0⟩)
    rfl).2 ?_
  simp [Separate, Token.operandDue, Token.startsOperand]

/-- The tokens of `(2)3+` have the value of `2+3` and spell no tree: the operator
lacks an operand, and one operand follows another. -/
theorem not_forall_spells_of_value :
    ¬∀ (ts : List Token) (v : Float), (toPostfix ts >>= reduce) = .ok v →
      ∃ t : Tree, Spells .sum ts t := by
  intro hall
  let two := Decimal.toFloat ⟨2, 0⟩
  let three := Decimal.toFloat ⟨3, 0⟩
  have hvalue : (toPostfix [.opening, .number two, .closing, .number three, .operator .plus] >>=
      reduce) = .ok (two + three) := rfl
  have hspells := hall _ _ hvalue
  have halt := (spellsSome_iff.1 hspells).1
  simp [Alternates, Token.operandDue, Token.startsOperand] at halt

end Calculator
