import Calculator.Proofs.Binary64.Division
import Calculator.Proofs.Decimal.BareNumber
import Calculator.Proofs.Expression.Ending
import Calculator.Proofs.Expression.Nesting
import Calculator.Proofs.Postfix.Group

/-!
# Expressions made of groups

An expression with a value stands for that value once it is put in parentheses: the
passes write a group anew without looking at what is around it (`canonical_group`), the
scanner reads it as one piece, and its tokens denote the value wherever they stand
(`isOperand_group`). So what is composed of groups has the value of the operation on
their values (`evaluate_composed`). Nothing is asked of the expressions but that they
have a value; they need not be of the grammar.
-/

namespace Calculator

section Passes

variable {c : Char} {u v : Text}

/-- The first character behind a group stays where it is, unless it is part of a numeral. -/
theorem head?_absorbLiteralPercent (hv : ∀ d ∈ v.head?, isNumeric d = false) :
    (absorbLiteralPercent (lexemes v)).head? = v.head? := by
  cases v with
  | nil => rfl
  | cons d v => rw [lexemes_cons_symbol (hv d rfl), absorbLiteralPercent_symbol]; rfl

/-- The percent signs of a group are spelled out by themselves. -/
theorem absorbPercent_group (hv : ∀ d ∈ v.head?, isNumeric d = false)
    (hpercent : v.head? ≠ some '%') (u : Text) :
    absorbPercent ('(' :: u ++ ')' :: v) = '(' :: absorbPercent u ++ ')' :: absorbPercent v := by
  have hhead : (absorbLiteralPercent (lexemes v)).head? ≠ some '%' := by
    rwa [head?_absorbLiteralPercent hv]
  rw [absorbPercent, List.cons_append, lexemes_cons_symbol rfl, lexemes_append_symbol rfl,
    absorbLiteralPercent_symbol, absorbLiteralPercent_append (by simp),
    absorbLiteralPercent_symbol, absorbGroupPercent_cons_of_ne (by decide),
    absorbGroupPercent_append (by simp), absorbGroupPercent_cons_of_head hhead]
  rfl

/-- A percent sign behind a group is a divisor behind it. -/
theorem absorbPercent_group_percent (u : Text) :
    absorbPercent ('(' :: u ++ [')', '%']) =
      '(' :: absorbPercent u ++ ')' :: '/' :: ['1', '0', '0'] := by
  rw [absorbPercent, List.cons_append, lexemes_cons_symbol rfl, lexemes_append_symbol rfl,
    absorbLiteralPercent_symbol, absorbLiteralPercent_append (by simp),
    absorbLiteralPercent_symbol, absorbGroupPercent_cons_of_ne (by decide),
    absorbGroupPercent_append (by simp)]
  rfl

/-- The canonical spelling of a group is that of its content in parentheses. -/
theorem dropUnaryPlus_group (due : Bool) (u v : Text) :
    dropUnaryPlus due (('(' :: u ++ ')' :: v).map canonicalChar) =
      ('(' :: canonical u ++ [')']) ++ dropUnaryPlus false (v.map canonicalChar) := by
  rw [List.map_append, List.map_cons, List.map_cons, List.cons_append, dropUnaryPlus,
    if_neg fun h => absurd h.1 (by decide), dropUnaryPlus_append_cons (by decide)]
  simp [canonical, canonicalChar]

theorem dropUnaryPlus_operator_group {op : Operator} (hc : Operator.ofChar? c = some op)
    (u : Text) :
    dropUnaryPlus false ((c :: ('(' :: u ++ [')'])).map canonicalChar) =
      canonicalChar c :: ('(' :: canonical u ++ [')']) := by
  have hgroup := dropUnaryPlus_group false u []
  have hopening : (canonicalChar c == '(') = false := by
    rw [beq_eq_false_iff_ne]
    exact Operator.ne_of_ofChar? ((ofChar?_canonicalChar c).trans hc) (by decide)
  rw [List.map_cons, dropUnaryPlus, if_neg (by simp), hopening, hgroup]
  simp [dropUnaryPlus]

end Passes

section Value

/-- What is not finite is no value. -/
def finiteValue (v : Float) : Except Fault Float :=
  if v.isFinite then .ok v else .error .malformed

theorem finiteValue_of_isFinite {v : Float} (hv : v.isFinite = true) : finiteValue v = .ok v :=
  if_pos hv

/-- The text is an operand with the value `v` as it stands: its tokens are, and they are
the same whatever is written behind it. -/
def IsOperand (s : Text) (v : Float) : Prop :=
  ∃ ts : List Token, ScansTo s ts ∧ Denotes ts v

variable {s t u : Text} {x y : Float}

theorem evaluate_eq_bind (t : Text) :
    evaluate t = (expressionTokens t).bind fun ts => (Token.value ts).bind finiteValue := by
  rw [evaluate]
  cases expressionTokens t with
  | error f => rfl
  | ok ts =>
      change (toPostfix ts >>= _) = (toPostfix ts >>= reduce).bind finiteValue
      cases toPostfix ts <;> rfl

theorem evaluate_of_scansTo {ts : List Token} (ht : canonical (absorbPercent t) = s)
    (h : ScansTo s ts) : evaluate t = (Token.value ts).bind finiteValue := by
  have hscan := h []
  rw [List.append_nil] at hscan
  rw [evaluate_eq_bind, expressionTokens, ht, scan, hscan]
  simp [Token.ofLexemes, Except.map, Except.bind]

/-- An expression with a value has tokens with this value. -/
theorem exists_tokens_of_evaluate (h : evaluate t = .ok x) :
    ∃ ts : List Token, expressionTokens t = .ok ts ∧ Token.value ts = .ok x := by
  rw [evaluate_eq_bind] at h
  obtain ⟨ts, hts, h⟩ := exists_of_bind_eq_ok h
  obtain ⟨v, hv, h⟩ := exists_of_bind_eq_ok h
  refine ⟨ts, hts, ?_⟩
  unfold finiteValue at h
  split at h
  · cases h
    exact hv
  · cases h

/-- An expression with a value closes its groups. -/
theorem openGroups?_of_evaluate (h : evaluate t = .ok x) : openGroups? 0 t = some 0 := by
  obtain ⟨ts, hts, -⟩ := exists_tokens_of_evaluate h
  by_contra hopen
  rw [evaluate_eq_unbalanced_iff_openGroups?.2 ⟨⟨ts, hts⟩, hopen⟩] at h
  cases h

/-- An expression with a value is an operand once it is written in parentheses. -/
theorem isOperand_group (h : evaluate t = .ok x) :
    IsOperand ('(' :: canonical (absorbPercent t) ++ [')']) x := by
  obtain ⟨ts, hscan, hvalue⟩ := exists_tokens_of_evaluate h
  have hgroups := openGroups?_of_evaluate h
  rw [← openGroups?_canonical] at hgroups
  rw [expressionTokens] at hscan
  generalize canonical (absorbPercent t) = s at hscan hgroups
  have hne : s ≠ [] := by
    rintro rfl
    cases hscan
    cases hvalue
  have hhead : s.head? ≠ some ')' := by
    intro hclosing
    obtain ⟨v, rfl⟩ := List.head?_eq_some_iff.1 hclosing
    cases hgroups
  have hlast : s.getLast? ≠ some '(' := by
    intro hopening
    obtain ⟨v, rfl⟩ := List.getLast?_eq_some_iff.1 hopening
    rw [openGroups?_append] at hgroups
    obtain ⟨k, -, hk⟩ := Option.bind_eq_some_iff.1 hgroups
    cases hk
  have hlexemes : lexemes s ≠ [] := by
    intro hnil
    rw [← text_lexemes s, hnil] at hne
    exact hne rfl
  refine ⟨.opening :: ts ++ [.closing], fun rest => ?_, Denotes.group hvalue⟩
  have hgroup : ¬OpensEmptyGroup (.symbol '(') (lexemes s ++ .symbol ')' :: rest) := by
    rw [Token.opensEmptyGroup_append_iff hlexemes]
    exact fun hempty => hhead (head?_of_head?_lexemes hempty.2)
  have hinner := Token.ofLexemes_append_closing hscan
    (fun hl => hlast ((getLast?_lexemes_eq_symbol_iff rfl).1 hl)) rest
  rw [List.cons_append, lexemes_cons_symbol rfl, lexemes_append_symbol rfl, lexemes_nil,
    List.cons_append, List.append_assoc, List.singleton_append, Token.ofLexemes_cons,
    if_neg hgroup]
  change (Token.ofLexemes true _).map _ = _
  rw [hinner]
  cases Token.ofLexemes false rest <;> simp [Except.map]

theorem hundred_eq : hundred = (100 : Float) := by
  decide +kernel

theorem isOperand_hundred : IsOperand ['1', '0', '0'] 100 := by
  have hnumeral : IsNumeral ['1', '0', '0'] ⟨100, 0⟩ := ⟨by decide, by decide⟩
  rw [← hundred_eq]
  exact ⟨_, .number hnumeral, .number _⟩

/-- Operands with an operator between them have the value of the operation. -/
theorem evaluate_of_binary {c : Char} {op : Operator} (hc : Operator.ofChar? c = some op)
    (hs : IsOperand s x) (hu : IsOperand u y)
    (ht : canonical (absorbPercent t) = s ++ canonicalChar c :: u) :
    evaluate t = (op.apply x y).bind finiteValue := by
  obtain ⟨ts, hts, hx⟩ := hs
  obtain ⟨us, hus, hy⟩ := hu
  have hscan := hts.binary ((ofChar?_canonicalChar c).trans hc) (canonicalChar_canonicalChar c) hus
  rw [evaluate_of_scansTo ht hscan, hx.value_binary hy]

end Value

section Composition

variable {a b : Text} {x y : Float}

theorem canonical_group (a : Text) :
    canonical (absorbPercent ('(' :: a ++ [')'])) =
      '(' :: canonical (absorbPercent a) ++ [')'] := by
  rw [absorbPercent_group (by simp) (by simp)]
  exact (dropUnaryPlus_group true (absorbPercent a) []).trans (List.append_nil _)

theorem canonical_negated_group (a : Text) :
    canonical (absorbPercent ('-' :: '(' :: a ++ [')'])) =
      '-' :: '(' :: canonical (absorbPercent a) ++ [')'] := by
  have hsign : absorbPercent ('-' :: '(' :: a ++ [')']) =
      '-' :: absorbPercent ('(' :: a ++ [')']) := by
    rw [absorbPercent, List.cons_append, lexemes_cons_symbol rfl, absorbLiteralPercent_symbol,
      absorbGroupPercent_cons_of_ne (by decide), absorbPercent]
  rw [hsign, absorbPercent_group (by simp) (by simp)]
  exact congrArg ('-' :: ·)
    ((dropUnaryPlus_group false (absorbPercent a) []).trans (List.append_nil _))

theorem canonical_group_percent (a : Text) :
    canonical (absorbPercent ('(' :: a ++ [')', '%'])) =
      ('(' :: canonical (absorbPercent a) ++ [')']) ++ '/' :: ['1', '0', '0'] := by
  rw [absorbPercent_group_percent]
  exact dropUnaryPlus_group true (absorbPercent a) ['/', '1', '0', '0']

theorem canonical_group_operator_group {c : Char} {op : Operator}
    (hc : Operator.ofChar? c = some op) (a b : Text) :
    canonical (absorbPercent (('(' :: a ++ [')']) ++ c :: ('(' :: b ++ [')']))) =
      ('(' :: canonical (absorbPercent a) ++ [')']) ++
        canonicalChar c :: ('(' :: canonical (absorbPercent b) ++ [')']) := by
  have hc' := Operator.isNumeric_of_ofChar? hc
  have hpercent : c ≠ '%' := Operator.ne_of_ofChar? hc (by decide)
  have hclosing : c ≠ ')' := Operator.ne_of_ofChar? hc (by decide)
  have hbehind : absorbPercent (c :: ('(' :: b ++ [')'])) =
      c :: ('(' :: absorbPercent b ++ [')']) := by
    have hgroup := absorbPercent_group (v := []) (by simp) (by simp) b
    rw [absorbPercent] at hgroup ⊢
    rw [lexemes_cons_symbol hc', absorbLiteralPercent_symbol,
      absorbGroupPercent_cons_of_ne hclosing, hgroup]
    rfl
  have htext : ('(' :: a ++ [')']) ++ c :: ('(' :: b ++ [')']) =
      '(' :: a ++ ')' :: (c :: ('(' :: b ++ [')'])) := by simp
  rw [htext, absorbPercent_group (by simpa using hc') (by simpa using hpercent), hbehind,
    canonical, dropUnaryPlus_group, dropUnaryPlus_operator_group hc]

/-- An expression with a value has this value in parentheses, its negation behind a minus
sign and its hundredth before a percent sign, and two of them with an operator between
have the value of the operation: a zero divisor and a value that is not finite are the
faults there are. -/
theorem evaluate_composed (ha : evaluate a = .ok x) (hb : evaluate b = .ok y) :
    evaluate ('(' :: a ++ [')']) = .ok x ∧
      evaluate ('-' :: '(' :: a ++ [')']) = .ok (-x) ∧
      evaluate ('(' :: a ++ [')', '%']) = .ok (x / 100) ∧
      ∀ (c : Char) (op : Operator), Operator.ofChar? c = some op →
        evaluate (('(' :: a ++ [')']) ++ c :: ('(' :: b ++ [')'])) =
          if op = .divide ∧ y == 0.0 then .error .divisionByZero
          else if (op.compute x y).isFinite then .ok (op.compute x y)
          else .error .malformed := by
  have hx := isFinite_of_evaluate ha
  have hgroup := isOperand_group ha
  obtain ⟨ts, hscan, hvalue⟩ := hgroup
  refine ⟨?_, ?_, ?_, fun c op hc => ?_⟩
  · rw [evaluate_of_scansTo (canonical_group a) hscan, hvalue.value_eq]
    exact finiteValue_of_isFinite hx
  · rw [evaluate_of_scansTo (canonical_negated_group a) hscan.negate, hvalue.value_negate]
    exact finiteValue_of_isFinite ((Binary64.isFinite_neg x).trans hx)
  · have hnonzero : ¬(Operator.divide = .divide ∧ (100 : Float) == 0.0) := by decide +kernel
    rw [evaluate_of_binary (c := '/') rfl ⟨ts, hscan, hvalue⟩ isOperand_hundred
      (canonical_group_percent a), Operator.apply, if_neg hnonzero]
    exact finiteValue_of_isFinite (Binary64.isFinite_div_hundred hx)
  · rw [evaluate_of_binary hc ⟨ts, hscan, hvalue⟩ (isOperand_group hb)
      (canonical_group_operator_group hc a b), Operator.apply]
    split
    · rfl
    · rfl

/-- `((2)3+)÷(+50%)` is 10: the first group is no expression of the grammar, but it has
the value 5. -/
theorem evaluate_quotient_of_ungrammatical_group :
    evaluate ['(', '2', ')', '3', '+'] = .ok 5 ∧ evaluate ['+', '5', '0', '%'] = .ok 0.5 ∧
      evaluate (('(' :: ['(', '2', ')', '3', '+'] ++ [')']) ++
        '÷' :: ('(' :: ['+', '5', '0', '%'] ++ [')'])) = .ok 10 := by
  have ha : evaluate ['(', '2', ')', '3', '+'] = .ok 5 := by decide +kernel
  have hb : evaluate ['+', '5', '0', '%'] = .ok 0.5 := by decide +kernel
  have hnonzero : ¬(Operator.divide = .divide ∧ (0.5 : Float) == 0.0) := by decide +kernel
  have hquotient : Operator.compute .divide 5 0.5 = 10 := by decide +kernel
  refine ⟨ha, hb, ?_⟩
  rw [(evaluate_composed ha hb).2.2.2 '÷' .divide rfl, if_neg hnonzero, hquotient]
  exact if_pos (by decide +kernel)

end Composition

end Calculator
