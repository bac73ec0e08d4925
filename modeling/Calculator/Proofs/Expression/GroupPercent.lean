import Calculator.Proofs.Expression.Group
import Calculator.Proofs.Postfix.Innermost

/-!
# The percent sign of a group

Behind a numeral a percent sign is spelled out with parentheses around the quotient, behind a
group without. Both spellings have the same text around them (`canonical_percent`,
`canonical_percent_of_group`), and the same tokens but for one parenthesis
(`expressionTokens_percent`). Whether they have the same value is decided by the operator that
the innermost group has open: the hundred behind a group divides a product or quotient that
began before it, and an operand else (`evaluate_percent_of_group`).
-/

namespace Calculator

/-- The text leaves a product or quotient open: the last binary operator of its innermost open
group joins factors. -/
def leavesProduct (p : Text) : Bool :=
  match expressionTokens p with
  | .ok ts => joinsFactors (openOperators ts)
  | .error _ => false

section Texts

variable {n p s : Text} {d : Decimal}

theorem head?_absorbGroupPercent (t : Text) : (absorbGroupPercent t).head? = t.head? := by
  cases t using absorbGroupPercent.fun_cases with
  | case1 rest => rfl
  | case2 c rest h => rw [absorbGroupPercent]; rfl; exact h
  | case3 => rfl

/-- What a percent sign stands before goes on as it is written anew by itself. -/
theorem head?_absorbLiteralPercent_ne (hs : ∀ c ∈ s.head?, isNumeric c = false ∧ c ≠ '%') :
    (absorbLiteralPercent (lexemes s)).head? ≠ some '%' := by
  rw [head?_absorbLiteralPercent fun c hc => (hs c hc).1]
  exact fun hpercent => (hs '%' hpercent).2 rfl

/-- What is written for the percent sign of a numeral. -/
theorem absorbPercent_percent (hn : IsNumeral n d) (hp : ∀ c ∈ p.getLast?, isNumeric c = false)
    (hs : ∀ c ∈ s.head?, isNumeric c = false ∧ c ≠ '%') :
    absorbPercent (p ++ (n ++ '%' :: s)) =
      absorbPercent p ++ '(' :: (n ++ ('/' :: '1' :: '0' :: '0' :: ')' :: absorbPercent s)) := by
  rw [absorbPercent, lexemes_append_of_getLast hp, lexemes_append_symbol rfl, hn.lexemes_eq,
    List.singleton_append, absorbLiteralPercent_append (by simp), absorbLiteralPercent,
    if_pos ⟨rfl, hn.isLiteral⟩, absorbGroupPercent_append (by simp)]
  simp only [List.cons_append, List.append_assoc, List.nil_append]
  rw [absorbGroupPercent_cons_of_ne (by decide), absorbGroupPercent_numeric hn.isNumeric,
    absorbGroupPercent_cons_of_ne (by decide), absorbGroupPercent_cons_of_ne (by decide),
    absorbGroupPercent_cons_of_ne (by decide), absorbGroupPercent_cons_of_ne (by decide),
    absorbGroupPercent_cons_of_head (head?_absorbLiteralPercent_ne hs)]
  rfl

/-- What is written for the percent sign of a numeral in parentheses. -/
theorem absorbPercent_percent_of_group (hn : IsNumeral n d)
    (hp : ∀ c ∈ p.getLast?, isNumeric c = false) (s : Text) :
    absorbPercent (p ++ ('(' :: n ++ ')' :: '%' :: s)) =
      absorbPercent p ++ '(' :: (n ++ (')' :: '/' :: '1' :: '0' :: '0' :: absorbPercent s)) := by
  rw [absorbPercent, lexemes_append_of_getLast hp, List.cons_append, lexemes_cons_symbol rfl,
    lexemes_append_symbol rfl, lexemes_cons_symbol rfl, hn.lexemes_eq, List.singleton_append,
    absorbLiteralPercent_append (by simp), absorbLiteralPercent_symbol,
    absorbLiteralPercent_run (by simp), absorbLiteralPercent_symbol, absorbLiteralPercent_symbol,
    absorbGroupPercent_append (by simp), absorbGroupPercent_cons_of_ne (by decide),
    absorbGroupPercent_numeric hn.isNumeric]
  rfl

/-- A division by one hundred is written as it is. -/
theorem absorbPercent_division (hn : IsNumeral n d) (hp : ∀ c ∈ p.getLast?, isNumeric c = false)
    (hs : ∀ c ∈ s.head?, isNumeric c = false ∧ c ≠ '%') :
    absorbPercent (p ++ ('(' :: n ++ ')' :: '÷' :: '1' :: '0' :: '0' :: s)) =
      absorbPercent p ++ '(' :: (n ++ (')' :: '÷' :: '1' :: '0' :: '0' :: absorbPercent s)) := by
  have hnumeric : ∀ c ∈ ['1', '0', '0'], isNumeric c = true := List.all_eq_true.1 rfl
  have hhead : (lexemes s).head? ≠ some (.symbol '%') := fun h =>
    (hs '%' (head?_of_head?_lexemes h)).2 rfl
  have hlexemes : lexemes ('1' :: '0' :: '0' :: s) = .run ['1', '0', '0'] :: lexemes s :=
    lexemes_append_of_head (fun c hc => (hs c hc).1) ['1', '0', '0']
  rw [absorbPercent, lexemes_append_of_getLast hp, List.cons_append, lexemes_cons_symbol rfl,
    lexemes_append_symbol rfl, lexemes_cons_symbol rfl, hn.lexemes_eq, List.singleton_append,
    hlexemes, absorbLiteralPercent_append (by simp), absorbLiteralPercent_symbol,
    absorbLiteralPercent_run (by simp), absorbLiteralPercent_symbol, absorbLiteralPercent_symbol,
    absorbLiteralPercent_run hhead, absorbGroupPercent_append (by simp),
    absorbGroupPercent_cons_of_ne (by decide), absorbGroupPercent_numeric hn.isNumeric,
    absorbGroupPercent_cons_of_head (by simp), absorbGroupPercent_cons_of_ne (by decide),
    absorbGroupPercent_numeric hnumeric]
  rfl

/-- The canonical spelling of what stands behind a complete operand. -/
def canonicalRest (s : Text) : Text :=
  dropUnaryPlus false ((absorbPercent s).map canonicalChar)

/-- An open parenthesis and a numeral part the canonical spelling. -/
theorem canonical_append_numeral (hn : IsNumeral n d) (u v : Text) :
    canonical (u ++ '(' :: (n ++ v)) =
      canonical u ++ '(' :: (n ++ dropUnaryPlus false (v.map canonicalChar)) := by
  rw [canonical, List.map_append, List.map_cons, List.map_append,
    map_canonicalChar_numeric hn.isNumeric]
  refine (dropUnaryPlus_append_cons (by decide) true _ _).trans ?_
  rw [← dropUnaryPlus_numeric hn.ne_nil hn.isNumeric]
  rfl

theorem canonical_percent (hn : IsNumeral n d) (hp : ∀ c ∈ p.getLast?, isNumeric c = false)
    (hs : ∀ c ∈ s.head?, isNumeric c = false ∧ c ≠ '%') :
    canonical (absorbPercent (p ++ (n ++ '%' :: s))) =
      canonical (absorbPercent p) ++
        '(' :: (n ++ ('/' :: '1' :: '0' :: '0' :: ')' :: canonicalRest s)) := by
  rw [absorbPercent_percent hn hp hs, canonical_append_numeral hn]
  simp [dropUnaryPlus, canonicalChar, canonicalRest]

theorem canonical_percent_of_group (hn : IsNumeral n d)
    (hp : ∀ c ∈ p.getLast?, isNumeric c = false) (s : Text) :
    canonical (absorbPercent (p ++ ('(' :: n ++ ')' :: '%' :: s))) =
      canonical (absorbPercent p) ++
        '(' :: (n ++ (')' :: '/' :: '1' :: '0' :: '0' :: canonicalRest s)) := by
  rw [absorbPercent_percent_of_group hn hp, canonical_append_numeral hn]
  simp [dropUnaryPlus, canonicalChar, canonicalRest]

theorem canonical_division (hn : IsNumeral n d) (hp : ∀ c ∈ p.getLast?, isNumeric c = false)
    (hs : ∀ c ∈ s.head?, isNumeric c = false ∧ c ≠ '%') :
    canonical (absorbPercent (p ++ ('(' :: n ++ ')' :: '÷' :: '1' :: '0' :: '0' :: s))) =
      canonical (absorbPercent p) ++
        '(' :: (n ++ (')' :: '/' :: '1' :: '0' :: '0' :: canonicalRest s)) := by
  rw [absorbPercent_division hn hp hs, canonical_append_numeral hn]
  simp [dropUnaryPlus, canonicalChar, canonicalRest]

/-- The rest begins as it is typed. -/
theorem head?_canonicalRest (hs : ∀ c ∈ s.head?, isNumeric c = false) :
    (canonicalRest s).head? = s.head?.map canonicalChar := by
  rw [canonicalRest, head?_dropUnaryPlus_false, List.head?_map, absorbPercent,
    head?_absorbGroupPercent, head?_absorbLiteralPercent hs]

end Texts

section Tokens

variable {n p s : Text} {d : Decimal}

/-- The tokens of a quotient by one hundred in parentheses. -/
theorem ofLexemes_quotient (hd : Decimal.ofRun n = .ok d) (due : Bool) (rest : List Lexeme) :
    Token.ofLexemes due (.symbol '(' :: .run n :: .symbol '/' :: .run ['1', '0', '0'] ::
        .symbol ')' :: rest) =
      (Token.ofLexemes false rest).map
        ([Token.opening, .number d.toFloat, .operator .divide, .number hundred, .closing] ++ ·) := by
  have hhundred : Decimal.ofRun ['1', '0', '0'] = .ok ⟨100, 0⟩ := by decide
  cases hrest : Token.ofLexemes false rest <;>
    simp [Token.ofLexemes, Token.ofSymbol?, Token.operandDue, hd, hhundred, hrest, hundred,
      Except.map, bind, Except.bind, pure, Except.pure]

/-- The tokens of a number in parentheses that is divided by one hundred. -/
theorem ofLexemes_divided_group (hd : Decimal.ofRun n = .ok d) (due : Bool)
    (rest : List Lexeme) :
    Token.ofLexemes due (.symbol '(' :: .run n :: .symbol ')' :: .symbol '/' ::
        .run ['1', '0', '0'] :: rest) =
      (Token.ofLexemes false rest).map
        ([Token.opening, .number d.toFloat, .closing, .operator .divide, .number hundred] ++ ·) := by
  have hhundred : Decimal.ofRun ['1', '0', '0'] = .ok ⟨100, 0⟩ := by decide
  cases hrest : Token.ofLexemes false rest <;>
    simp [Token.ofLexemes, Token.ofSymbol?, hd, hhundred, hrest, hundred, Except.map, bind,
      Except.bind, pure, Except.pure]

/-- No operand begins behind a complete one that neither a numeral nor an open parenthesis
follows. -/
theorem startsOperand_of_canonicalRest (hs : ∀ c ∈ s.head?, isNumeric c = false)
    (hgroup : s.head? ≠ some '(') {us : List Token}
    (h : Token.ofLexemes false (lexemes (canonicalRest s)) = .ok us) :
    ∀ x ∈ us.head?, x.startsOperand = false := by
  have hhead := head?_canonicalRest hs
  cases hrest : canonicalRest s with
  | nil =>
      rw [hrest] at h
      cases h
      simp
  | cons c v =>
      rw [hrest] at hhead h
      obtain ⟨b, hb, hcb⟩ := Option.map_eq_some_iff.1 hhead.symm
      have hc : isNumeric c = false := by
        rw [← hcb, isNumeric_canonicalChar, hs b hb]
      have hopening : c ≠ '(' := by
        rintro rfl
        rcases canonicalChar_cases b with heq | heq | heq
        · exact hgroup (by rw [hb, ← heq, hcb])
        · rw [heq] at hcb; cases hcb
        · rw [heq] at hcb; cases hcb
      rw [lexemes_cons_symbol hc] at h
      obtain ⟨-, token, vs, htoken, -, rfl⟩ := Token.ofLexemes_cons_eq_ok_iff.1 h
      rintro x ⟨⟩
      rcases Token.symbol_cases (Token.ofLexeme_symbol_eq_ok_iff.1 htoken) with
        ⟨heq, -⟩ | ⟨-, rfl⟩ | ⟨-, hdue, -⟩ | ⟨op, -, rfl⟩
      · exact absurd heq hopening
      · rfl
      · cases hdue
      · rfl

/-- A text is scanned piece by piece at an open parenthesis. -/
theorem expressionTokens_of_canonical {t v : Text} {middle : List Token}
    {rest : Except Fault (List Token)}
    (ht : canonical (absorbPercent t) = canonical (absorbPercent p) ++ '(' :: v)
    (hv : ∀ due : Bool, Token.ofLexemes due (.symbol '(' :: lexemes v) =
      rest.map (middle ++ ·)) :
    expressionTokens t =
      (expressionTokens p).bind fun ts => rest.map fun us => ts ++ (middle ++ us) := by
  rw [expressionTokens, scan, ht, lexemes_append_symbol rfl, expressionTokens, scan]
  cases hts : Token.ofLexemes true (lexemes (canonical (absorbPercent p))) with
  | error f => exact Token.ofLexemes_append_of_error hts _
  | ok ts =>
      rw [Token.ofLexemes_append hts (by simp), hv]
      cases rest <;> rfl

theorem expressionTokens_percent (hn : IsNumeral n d)
    (hp : ∀ c ∈ p.getLast?, isNumeric c = false)
    (hs : ∀ c ∈ s.head?, isNumeric c = false ∧ c ≠ '%') :
    expressionTokens (p ++ (n ++ '%' :: s)) =
      (expressionTokens p).bind fun ts =>
        (Token.ofLexemes false (lexemes (canonicalRest s))).map fun us => ts ++
          ([Token.opening, .number d.toFloat, .operator .divide, .number hundred, .closing] ++ us) := by
  have hhundred : lexemes ['1', '0', '0'] = [.run ['1', '0', '0']] := rfl
  refine expressionTokens_of_canonical (canonical_percent hn hp hs) fun due => ?_
  have htext : '/' :: '1' :: '0' :: '0' :: ')' :: canonicalRest s =
      '/' :: (['1', '0', '0'] ++ ')' :: canonicalRest s) := rfl
  rw [htext, lexemes_append_symbol rfl, lexemes_append_symbol rfl, hn.lexemes_eq, hhundred]
  exact ofLexemes_quotient hn.2 due _

theorem expressionTokens_percent_of_group (hn : IsNumeral n d)
    (hp : ∀ c ∈ p.getLast?, isNumeric c = false) (hs : ∀ c ∈ s.head?, isNumeric c = false) :
    expressionTokens (p ++ ('(' :: n ++ ')' :: '%' :: s)) =
      (expressionTokens p).bind fun ts =>
        (Token.ofLexemes false (lexemes (canonicalRest s))).map fun us => ts ++
          ([Token.opening, .number d.toFloat, .closing, .operator .divide, .number hundred] ++ us) := by
  have hhead : ∀ c ∈ (canonicalRest s).head?, isNumeric c = false := by
    rw [head?_canonicalRest hs]
    intro c hc
    obtain ⟨b, hb, rfl⟩ := Option.map_eq_some_iff.1 hc
    rw [isNumeric_canonicalChar, hs b hb]
  have hhundred : lexemes ('1' :: '0' :: '0' :: canonicalRest s) =
      .run ['1', '0', '0'] :: lexemes (canonicalRest s) :=
    lexemes_append_of_head hhead ['1', '0', '0']
  refine expressionTokens_of_canonical (canonical_percent_of_group hn hp s) fun due => ?_
  rw [lexemes_append_symbol rfl, lexemes_cons_symbol rfl, hn.lexemes_eq, hhundred]
  exact ofLexemes_divided_group hn.2 due _

end Tokens

section Value

variable {n p s : Text}

theorem evaluate_eq_of_canonical {a b : Text}
    (h : canonical (absorbPercent a) = canonical (absorbPercent b)) : evaluate a = evaluate b := by
  rw [evaluate_eq_bind, evaluate_eq_bind, expressionTokens, expressionTokens, h]

/-- The percent sign of a numeral in parentheses is a division by one hundred. It has the
value of the percent sign of the numeral itself, unless the text before it leaves a product or
quotient open or a parenthesis is opened directly behind it. -/
theorem evaluate_percent_of_group (hn : n.all isNumeric = true) (hliteral : isLiteral n = true)
    (hp : ∀ c ∈ p.getLast?, isNumeric c = false)
    (hs : ∀ c ∈ s.head?, isNumeric c = false ∧ c ≠ '%') :
    evaluate (p ++ ('(' :: n ++ ')' :: '%' :: s)) =
        evaluate (p ++ ('(' :: n ++ ')' :: '÷' :: '1' :: '0' :: '0' :: s)) ∧
      (leavesProduct p = false → s.head? ≠ some '(' →
        evaluate (p ++ (n ++ '%' :: s)) = evaluate (p ++ ('(' :: n ++ ')' :: '%' :: s))) := by
  obtain ⟨d, hd⟩ := exists_isNumeral hn hliteral
  have hs' : ∀ c ∈ s.head?, isNumeric c = false := fun c hc => (hs c hc).1
  refine ⟨evaluate_eq_of_canonical ?_, fun hproduct hgroup => ?_⟩
  · rw [canonical_percent_of_group hd hp, canonical_division hd hp hs]
  · rw [evaluate_eq_bind, evaluate_eq_bind, expressionTokens_percent hd hp hs,
      expressionTokens_percent_of_group hd hp hs']
    rw [leavesProduct] at hproduct
    cases hts : expressionTokens p with
    | error f => rfl
    | ok ts =>
        rw [hts] at hproduct
        cases hus : Token.ofLexemes false (lexemes (canonicalRest s)) with
        | error f => rfl
        | ok us =>
            have hstarts := startsOperand_of_canonicalRest hs' hgroup hus
            have hzero : (hundred == 0.0) = false := by decide +kernel
            exact congrArg (Except.bind · finiteValue)
              (value_append_quotient hproduct hstarts d.toFloat hzero)

/-- `2×(3-50%` has no product open behind the last parenthesis. -/
theorem evaluate_difference_of_group_percent :
    leavesProduct ['2', '×', '(', '3', '-'] = false ∧
      evaluate ['2', '×', '(', '3', '-', '5', '0', '%', ')'] =
        evaluate ['2', '×', '(', '3', '-', '(', '5', '0', ')', '%', ')'] := by
  have hproduct : leavesProduct ['2', '×', '(', '3', '-'] = false := by decide +kernel
  have hlast : ∀ c ∈ ['2', '×', '(', '3', '-'].getLast?, isNumeric c = false := by
    rintro c ⟨⟩
    rfl
  have hhead : ∀ c ∈ [')'].head?, isNumeric c = false ∧ c ≠ '%' := by
    rintro c ⟨⟩
    exact ⟨rfl, by decide⟩
  exact ⟨hproduct, (evaluate_percent_of_group (n := ['5', '0']) rfl rfl hlast hhead).2 hproduct
    (by decide)⟩

/-- `8÷50%` is 16, and in `8÷(50)%` the hundred divides the quotient. -/
theorem not_forall_evaluate_percent_of_group :
    ¬∀ (n p s : Text) (v : Float), n.all isNumeric = true → isLiteral n = true →
      (∀ c ∈ p.getLast?, isNumeric c = false) →
      (∀ c ∈ s.head?, isNumeric c = false ∧ c ≠ '%') →
      evaluate (p ++ (n ++ '%' :: s)) = .ok v →
        evaluate (p ++ ('(' :: n ++ ')' :: '%' :: s)) = .ok v := by
  intro hall
  have hlast : ∀ c ∈ ['8', '÷'].getLast?, isNumeric c = false := by
    rintro c ⟨⟩
    rfl
  have hvalue : evaluate ['8', '÷', '5', '0', '%'] = .ok 16 := by decide +kernel
  have hgroup := hall ['5', '0'] ['8', '÷'] [] 16 rfl rfl hlast (by simp) hvalue
  revert hgroup
  decide +kernel

end Value

end Calculator
