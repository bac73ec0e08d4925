import Mathlib.Data.List.Chain
import Calculator.Proofs.Grammar.Derivation
import Calculator.Proofs.Postfix.Arrival

/-!
# The postfix order of a derivation

`Reads stack ts out after` says what a stretch of tokens does wherever it
stands: over `stack` it gives out `out` and leaves `after`. Stretches compose
(`Reads.append`), so that the tokens of a derivation are followed along its shape.

A phrase of a level leaves nothing on the stack that binds less than the level,
and what it gives out and what it leaves are together its `order`
(`readsAs_tokens`): the minus signs that it gives out before its first operand, and then the
postorder of its shifted tree. The stack below may hold nothing that the phrase would
release, but for a unary minus, which another one releases (`Reads.behind_negate`). Where
every sign is single, that order is the postorder of the tree (`toPostfix_of_spells`).
-/

namespace Calculator

/-- How tightly a phrase of a level holds together: outside of its parentheses
no operator of it binds less. -/
def Level.precedence : Level → Nat
  | .sum => 1
  | .product => 2
  | .factor => 3
  | .primary => 4

/-- No unary minus directly follows another. -/
def SingleSigns (ts : List Token) : Prop :=
  ts.IsChain fun a b => ¬(a = .negate ∧ b = .negate)

theorem singleSigns_binary_iff {ts us : List Token} {op : Operator} :
    SingleSigns (ts ++ .operator op :: us) ↔ SingleSigns ts ∧ SingleSigns us := by
  rw [SingleSigns, List.isChain_append, List.isChain_cons]
  simp [SingleSigns]

/-- Over `stack` the tokens give out `out` and leave `after`. -/
def Reads (stack ts out after : List Token) : Prop :=
  ∀ rest : List Token,
    toPostfixFrom stack (ts ++ rest) = (toPostfixFrom after rest).map (out ++ ·)

theorem Token.precedence_le (token : Token) : token.precedence ≤ 3 := by
  rcases token with v | op | _ | _ | _
  case operator => cases op <;> simp [Token.precedence, Operator.precedence]
  all_goals simp [Token.precedence]

theorem Operator.precedence_level (op : Operator) :
    op.level.precedence = op.precedence := by
  cases op <;> rfl

theorem takeWhile_releases {token : Token} {p stack : List Token}
    (hp : ∀ x ∈ p, token.precedence ≤ x.precedence)
    (hstack : ∀ x ∈ stack.head?, x.precedence < token.precedence) :
    (p ++ stack).takeWhile token.releases = p := by
  rw [List.takeWhile_append_of_pos fun x hx => by simpa [Token.releases] using hp x hx]
  cases stack with
  | nil => simp
  | cons x stack =>
      have hx : ¬token.releases x = true := by
        simpa [Token.releases] using hstack x (by simp)
      rw [List.takeWhile_cons_of_neg hx, List.append_nil]

theorem dropWhile_releases {token : Token} {p stack : List Token}
    (hp : ∀ x ∈ p, token.precedence ≤ x.precedence)
    (hstack : ∀ x ∈ stack.head?, x.precedence < token.precedence) :
    (p ++ stack).dropWhile token.releases = stack := by
  have hcut := List.takeWhile_append_dropWhile (p := token.releases) (l := p ++ stack)
  rw [takeWhile_releases hp hstack] at hcut
  exact List.append_cancel_left hcut

namespace Reads

theorem append {s s' s'' ts us out out' : List Token}
    (h : Reads s ts out s') (h' : Reads s' us out' s'') :
    Reads s (ts ++ us) (out ++ out') s'' := by
  intro rest
  rw [List.append_assoc, h, h']
  cases toPostfixFrom s'' rest <;> simp [Except.map]

theorem of_arrive? {stack given after : List Token} {token : Token}
    (h : arrive? stack token = some (given, after)) : Reads stack [token] given after := by
  intro rest
  rw [List.singleton_append, toPostfixFrom_cons, h]
  rfl

/-- An operator gives out the operators that it releases. -/
theorem operator {op : Operator} {p stack : List Token}
    (hp : ∀ x ∈ p, op.precedence ≤ x.precedence)
    (hstack : ∀ x ∈ stack.head?, x.precedence < op.precedence) :
    Reads (p ++ stack) [.operator op] p (.operator op :: stack) := by
  apply of_arrive?
  rw [arrive?, takeWhile_releases hp hstack, dropWhile_releases hp hstack]
  all_goals simp

/-- A unary minus gives out nothing unless it stands behind another one. -/
theorem negate {stack : List Token} (hstack : ∀ x ∈ stack.head?, x.precedence < 3) :
    Reads stack [.negate] [] (.negate :: stack) := by
  have hnone : ∀ x ∈ ([] : List Token), Token.negate.precedence ≤ x.precedence := by simp
  have htake := takeWhile_releases hnone hstack
  have hdrop := dropWhile_releases hnone hstack
  rw [List.nil_append] at htake hdrop
  apply of_arrive?
  rw [arrive?, htake, hdrop]
  all_goals simp

/-- A unary minus is given out by another one. -/
theorem behind_negate {stack ts out after : List Token}
    (h : Reads stack (.negate :: ts) out after) :
    Reads (.negate :: stack) (.negate :: ts) (.negate :: out) after := by
  have hsign : arrive? (.negate :: stack) .negate =
      some (.negate :: stack.takeWhile Token.negate.releases,
        .negate :: stack.dropWhile Token.negate.releases) := rfl
  intro rest
  have hrest := h rest
  rw [List.cons_append, toPostfixFrom_cons] at hrest ⊢
  rw [hsign]
  calc (toPostfixFrom (.negate :: stack.dropWhile Token.negate.releases) (ts ++ rest)).map
        (.negate :: stack.takeWhile Token.negate.releases ++ ·)
    _ = ((toPostfixFrom (.negate :: stack.dropWhile Token.negate.releases) (ts ++ rest)).map
          (stack.takeWhile Token.negate.releases ++ ·)).map (Token.negate :: ·) := by
        cases toPostfixFrom (.negate :: stack.dropWhile Token.negate.releases) (ts ++ rest) <;> rfl
    _ = ((toPostfixFrom after rest).map (out ++ ·)).map (Token.negate :: ·) :=
        congrArg (Except.map (Token.negate :: ·)) hrest
    _ = (toPostfixFrom after rest).map (.negate :: out ++ ·) := by
        cases toPostfixFrom after rest <;> rfl

end Reads

/-- Over `stack` the tokens give out a part of the order and leave the other part,
which binds at least as tightly as the level. -/
def ReadsAs (l : Level) (stack ts order : List Token) : Prop :=
  ∃ out p : List Token, out ++ p = order ∧
    (∀ x ∈ p, l.precedence ≤ x.precedence) ∧ Reads stack ts out (p ++ stack)

namespace ReadsAs

variable {l m : Level} {stack ts us order order' : List Token}

theorem mono (hlm : m.precedence ≤ l.precedence) (h : ReadsAs l stack ts order) :
    ReadsAs m stack ts order := by
  obtain ⟨out, p, hpost, hp, hreads⟩ := h
  exact ⟨out, p, hpost, fun x hx => hlm.trans (hp x hx), hreads⟩

/-- A phrase leaves no open parenthesis. -/
theorem exists_reads (h : ReadsAs l stack ts order) :
    ∃ out p : List Token, out ++ p = order ∧ .opening ∉ p ∧ Reads stack ts out (p ++ stack) := by
  obtain ⟨out, p, hpost, hp, hreads⟩ := h
  refine ⟨out, p, hpost, ?_, hreads⟩
  intro hmem
  have hle : l.precedence ≤ 0 := hp _ hmem
  cases l <;> simp [Level.precedence] at hle

/-- A group gives out the whole order. -/
theorem group (h : ReadsAs l (.opening :: stack) ts order) :
    ReadsAs .primary stack (.opening :: ts ++ [.closing]) order := by
  obtain ⟨out, p, hpost, hp, hreads⟩ := h.exists_reads
  have hopening : Reads stack [.opening] [] (.opening :: stack) := .of_arrive? rfl
  have hclosing : Reads (p ++ .opening :: stack) [.closing] p stack :=
    .of_arrive? (closeGroup?_append hp)
  have hread := (hopening.append hreads).append hclosing
  refine ⟨out ++ p, [], ?_, by simp, ?_⟩
  · rw [List.append_nil, hpost]
  · simpa using hread

theorem negate (hstack : ∀ x ∈ stack.head?, x.precedence < 3)
    (h : ReadsAs .factor (.negate :: stack) ts order) :
    ReadsAs .factor stack (.negate :: ts) (order ++ [.negate]) := by
  obtain ⟨out, p, hpost, hp, hreads⟩ := h
  refine ⟨out, p ++ [.negate], ?_, ?_, ?_⟩
  · rw [← hpost, List.append_assoc]
  · intro x hx
    rcases List.mem_append.1 hx with hx | hx
    · exact hp x hx
    · rw [List.mem_singleton.1 hx]
      exact Nat.le_refl 3
  · simpa using (Reads.negate hstack).append hreads

/-- The first of two signs is given out before everything else. -/
theorem negate_negate (hstack : ∀ x ∈ stack.head?, x.precedence < 3)
    (h : ReadsAs l stack (.negate :: ts) order) :
    ReadsAs l stack (.negate :: .negate :: ts) (.negate :: order) := by
  obtain ⟨out, p, rfl, hp, hreads⟩ := h
  refine ⟨.negate :: out, p, rfl, hp, ?_⟩
  simpa using (Reads.negate hstack).append hreads.behind_negate

/-- Two operands and the operator between them. What the left operand leaves is
given out before the right one is read. -/
theorem binary {op : Operator} (hop : op.level = l) (hlm : l.precedence ≤ m.precedence)
    (hstack : ∀ x ∈ stack.head?, x.precedence < l.precedence)
    (hts : ReadsAs l stack ts order) (hus : ReadsAs m (.operator op :: stack) us order') :
    ReadsAs l stack (ts ++ .operator op :: us) (order ++ order' ++ [.operator op]) := by
  subst hop
  obtain ⟨out, p, hpost, hp, hreads⟩ := hts
  obtain ⟨out', p', hpost', hp', hreads'⟩ := hus
  rw [op.precedence_level] at hp hstack
  have hread := (hreads.append (Reads.operator hp hstack)).append hreads'
  refine ⟨out ++ p ++ out', p' ++ [.operator op], ?_, ?_, ?_⟩
  · rw [← hpost, ← hpost']; simp
  · intro x hx
    rcases List.mem_append.1 hx with hx | hx
    · exact hlm.trans (hp' x hx)
    · rw [List.mem_singleton.1 hx, op.precedence_level, Token.precedence]
  · simpa using hread

end ReadsAs

/-- The token on top of the stack is not released by a phrase of the level. A
phrase that starts with no sign is also safe behind a unary minus. -/
def Unreleased (l : Level) (stack ts : List Token) : Prop :=
  ∀ x ∈ stack.head?,
    x.precedence < l.precedence ∨ l = .factor ∧ ts.head? ≠ some .negate

namespace Unreleased

variable {l : Level} {x : Token} {stack ts : List Token}

theorem of_precedence_lt (h : x.precedence < l.precedence) : Unreleased l (x :: stack) ts := by
  intro y hy
  obtain rfl : x = y := by simpa using hy
  exact Or.inl h

theorem lt (h : Unreleased l stack ts) (hl : l ≠ .factor) :
    ∀ x ∈ stack.head?, x.precedence < l.precedence := by
  intro x hx
  rcases h x hx with hlt | ⟨heq, -⟩
  · exact hlt
  · exact absurd heq hl

theorem lt_of_negate (h : Unreleased l stack (.negate :: ts)) (hl : l = .factor) :
    ∀ x ∈ stack.head?, x.precedence < 3 := by
  intro x hx
  rcases h x hx with hlt | ⟨-, hne⟩
  · rw [hl] at hlt
    exact hlt
  · exact absurd rfl hne

end Unreleased

theorem Tree.postorder_negate_iterate (k : Nat) (t : Tree) :
    (Tree.negate^[k] t).postorder = t.postorder ++ List.replicate k .negate := by
  induction k with
  | zero => rw [Function.iterate_zero_apply, List.replicate_zero, List.append_nil]
  | succ k ih =>
      rw [Function.iterate_succ_apply', Tree.postorder, ih, List.append_assoc,
        List.replicate_succ']

/-- The tokens of a derivation in postfix order. -/
def Derivation.order {l : Level} (e : Derivation l) : List Token :=
  List.replicate e.surplus .negate ++ e.shifted.postorder

/-- The signs that the right operand gives out first negate the left operand. -/
theorem Derivation.order_binary {l m : Level} (op : Operator) (left : Derivation l)
    (right : Derivation m) :
    left.order ++ right.order ++ [.operator op] =
      List.replicate left.surplus .negate ++
        (Tree.binary op (Tree.negate^[right.surplus] left.shifted) right.shifted).postorder := by
  rw [order, order, Tree.postorder, Tree.postorder_negate_iterate]
  simp

/-- The operator on the stack is not released by its right operand. -/
theorem binary_of_unreleased {l m : Level} {op : Operator} {stack : List Token}
    {left : Derivation l} {right : Derivation m} (hop : op.level = l)
    (hlm : l.precedence < m.precedence) (hstack : ∀ x ∈ stack.head?, x.precedence < l.precedence)
    (hleft : ∀ stack : List Token, Unreleased l stack left.tokens →
      ReadsAs l stack left.tokens left.order)
    (hright : ∀ stack : List Token, Unreleased m stack right.tokens →
      ReadsAs m stack right.tokens right.order) :
    ReadsAs l stack (left.tokens ++ .operator op :: right.tokens)
      (left.order ++ right.order ++ [.operator op]) := by
  have hnext : (Token.operator op).precedence < m.precedence := by
    rw [Token.precedence, ← op.precedence_level, hop]
    exact hlm
  have hleft := hleft stack fun x hx => Or.inl (hstack x hx)
  have hright := hright (.operator op :: stack) (.of_precedence_lt hnext)
  exact hleft.binary hop hlm.le hstack hright

/-- A phrase of a level gives out a part of its order and leaves the rest on the
stack, if the stack below has nothing to release. -/
theorem readsAs_tokens {l : Level} (e : Derivation l) (stack : List Token)
    (hstack : Unreleased l stack e.tokens) : ReadsAs l stack e.tokens e.order := by
  induction e generalizing stack with
  | number v => exact ⟨[.number v], [], rfl, by simp, .of_arrive? rfl⟩
  | group e ih => exact (ih (.opening :: stack) (.of_precedence_lt Nat.one_pos)).group
  | primary e ih =>
      refine (ih stack ?_).mono (by decide)
      intro x _
      exact Or.inl (Nat.lt_succ_of_le x.precedence_le)
  | negate e ih =>
      have htop := hstack.lt_of_negate rfl
      by_cases hsign : e.isNegation = true
      · -- the tokens of the operand start with the sign that gives this one out
        obtain ⟨ts, hts⟩ := List.head?_eq_some_iff.1 (Derivation.isNegation_iff.1 hsign)
        have horder : e.negate.order = .negate :: e.order := by
          rw [Derivation.order, Derivation.surplus, Derivation.shifted, if_pos hsign, if_pos hsign]
          rfl
        have hread := ih stack fun x hx => Or.inl (htop x hx)
        rw [hts] at hread
        rw [horder, Derivation.tokens, hts]
        exact hread.negate_negate htop
      · have horder : e.negate.order = e.order ++ [.negate] := by
          rw [Derivation.order, Derivation.surplus, Derivation.shifted, if_neg hsign, if_neg hsign,
            Tree.postorder, ← List.append_assoc]
          rfl
        rw [horder]
        refine (ih (.negate :: stack) ?_).negate htop
        intro x _
        exact Or.inr ⟨rfl, mt Derivation.isNegation_iff.2 hsign⟩
  | factor e ih =>
      refine (ih stack ?_).mono (by decide)
      intro x hx
      exact Or.inl (Nat.lt_succ_of_lt (hstack.lt (by decide) x hx))
  | product e ih =>
      refine (ih stack ?_).mono (by decide)
      intro x hx
      exact Or.inl (Nat.lt_succ_of_lt (hstack.lt (by decide) x hx))
  | multiply op hop left right ih ih' =>
      have hread := binary_of_unreleased hop (by decide) (hstack.lt (by decide)) ih ih'
      rwa [Derivation.order_binary] at hread
  | add op hop left right ih ih' =>
      have hread := binary_of_unreleased hop (by decide) (hstack.lt (by decide)) ih ih'
      rwa [Derivation.order_binary] at hread

/-- The postfix order of the tokens of a derivation. -/
theorem toPostfix_tokens (e : Derivation .sum) : toPostfix e.tokens = .ok e.order := by
  obtain ⟨out, p, hpost, hp, hreads⟩ :=
    (readsAs_tokens e [] (by simp [Unreleased])).exists_reads
  have hread := hreads []
  rw [List.append_nil, List.append_nil] at hread
  rw [toPostfix, hread, toPostfixFrom, if_neg hp]
  exact congrArg Except.ok hpost

/-- Single signs negate what is behind them. -/
theorem shifted_of_singleSigns {l : Level} (e : Derivation l) (h : SingleSigns e.tokens) :
    e.surplus = 0 ∧ e.shifted = e.tree := by
  induction e with
  | number v => exact ⟨rfl, rfl⟩
  | group e ih =>
      rw [SingleSigns, Derivation.tokens, List.cons_append, List.isChain_cons,
        List.isChain_append] at h
      exact ih h.2.1
  | primary e ih => exact ih h
  | negate e ih =>
      rw [SingleSigns, Derivation.tokens, List.isChain_cons] at h
      have hsign : ¬e.isNegation = true := fun hsign =>
        h.1 _ (Derivation.isNegation_iff.1 hsign) ⟨rfl, rfl⟩
      obtain ⟨hsurplus, hshifted⟩ := ih h.2
      rw [Derivation.surplus, Derivation.shifted, Derivation.tree, if_neg hsign, if_neg hsign,
        hsurplus, hshifted]
      exact ⟨rfl, rfl⟩
  | factor e ih => exact ih h
  | product e ih => exact ih h
  | multiply op hop left right ih ih' =>
      obtain ⟨hleft, hright⟩ := singleSigns_binary_iff.1 h
      rw [Derivation.surplus, Derivation.shifted, Derivation.tree, (ih' hright).1,
        (ih' hright).2, (ih hleft).2]
      exact ⟨(ih hleft).1, rfl⟩
  | add op hop left right ih ih' =>
      obtain ⟨hleft, hright⟩ := singleSigns_binary_iff.1 h
      rw [Derivation.surplus, Derivation.shifted, Derivation.tree, (ih' hright).1,
        (ih' hright).2, (ih hleft).2]
      exact ⟨(ih hleft).1, rfl⟩

/-- The postfix order of the tokens that spell a tree is the postorder of the
tree, if no unary minus directly follows another. -/
theorem toPostfix_of_spells {ts : List Token} {t : Tree} (h : Spells .sum ts t)
    (hsigns : SingleSigns ts) : toPostfix ts = .ok t.postorder := by
  obtain ⟨e, rfl, rfl⟩ := spells_iff_exists_derivation.1 h
  obtain ⟨hsurplus, hshifted⟩ := shifted_of_singleSigns e hsigns
  rw [toPostfix_tokens, Derivation.order, hsurplus, hshifted]
  rfl

end Calculator
