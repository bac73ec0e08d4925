import Calculator.Grammar
import Calculator.Proofs.Expression.Numeral
import Calculator.Proofs.Expression.Passes
import Calculator.Proofs.Postfix.Order
import Calculator.Proofs.Tree.Reduction

/-!
# The value of a written expression

A text of the grammar has the value of its tree. The passes are followed along
the derivation: spelling out the percent signs and turning to the canonical
spelling lead from a text of the grammar to another one that writes the same
tree (`writes_absorbLiteralPercent`, `writes_map_canonicalChar`), and scanning
leads from a canonical text to tokens that spell the tree
(`exists_spells_of_writes`). From there the postfix order and its reduction do
the rest.
-/

namespace Calculator

theorem ofChar?_canonicalChar (c : Char) :
    Operator.ofChar? (canonicalChar c) = Operator.ofChar? c := by
  unfold canonicalChar
  split <;> rfl

/-- A canonical operator character is read as the operator where no operand is
due. -/
theorem ofSymbol?_of_ofChar? {c : Char} {op : Operator} (h : Operator.ofChar? c = some op)
    (hc : canonicalChar c = c) : Token.ofSymbol? false c = some (.operator op) := by
  have hmem := Operator.mem_of_ofChar? h
  simp only [List.mem_cons, List.not_mem_nil, or_false] at hmem
  rcases hmem with rfl | rfl | rfl | rfl | rfl | rfl
  case inr.inr.inl => exact absurd hc (by decide)
  case inr.inr.inr.inr.inl => exact absurd hc (by decide)
  all_goals
    cases h
    rfl

theorem absorbLiteralPercent_lexemes_operator {c : Char} {op : Operator}
    (hc : Operator.ofChar? c = some op) (r s : Text) :
    absorbLiteralPercent (lexemes (r ++ c :: s)) =
      absorbLiteralPercent (lexemes r) ++ c :: absorbLiteralPercent (lexemes s) := by
  have hpercent : c ≠ '%' := Operator.ne_of_ofChar? hc (by decide)
  rw [lexemes_append_symbol (Operator.isNumeric_of_ofChar? hc),
    absorbLiteralPercent_append (by simpa using hpercent), absorbLiteralPercent_symbol]

/-- An operator between two texts that are kept is kept with them. -/
theorem dropUnaryPlus_operator {c : Char} {r s : Text}
    (hr : ∀ (due : Bool) (rest : Text),
      dropUnaryPlus due (r ++ rest) = r ++ dropUnaryPlus false rest)
    (hs : ∀ (due : Bool) (rest : Text),
      dropUnaryPlus due (s ++ rest) = s ++ dropUnaryPlus false rest)
    (due : Bool) (rest : Text) :
    dropUnaryPlus due ((r ++ c :: s) ++ rest) = (r ++ c :: s) ++ dropUnaryPlus false rest := by
  rw [List.append_assoc, hr, List.cons_append, dropUnaryPlus, if_neg (by simp), hs,
    List.append_assoc, List.cons_append]

/-- A percentage spelled out is a quotient in parentheses. -/
theorem writes_quotient {n : Text} {d : Decimal} (h : IsNumeral n d) :
    Writes .primary ('(' :: (n ++ '/' :: ['1', '0', '0']) ++ [')'])
      (.binary .divide (.leaf d.toFloat) (.leaf hundred)) := by
  have hhundred : IsNumeral ['1', '0', '0'] ⟨100, 0⟩ := ⟨by decide, by decide⟩
  refine .group (.product (.multiply rfl rfl ?_ ?_))
  · exact .factor (.primary (.number h))
  · exact .primary (.number hhundred)

/-- The first pass leads from a text of the grammar to one without percent
signs that writes the same tree. -/
theorem writes_absorbLiteralPercent {l : Level} {s : Text} {t : Tree} (h : Writes l s t) :
    Writes l (absorbLiteralPercent (lexemes s)) t ∧
      '%' ∉ absorbLiteralPercent (lexemes s) := by
  induction h with
  | @number n d hn =>
      rw [hn.lexemes_eq, absorbLiteralPercent_run (by simp), absorbLiteralPercent,
        List.append_nil]
      exact ⟨.number hn, hn.not_mem (by decide)⟩
  | @percent n d hn =>
      have hlex : lexemes (n ++ ['%']) = [.run n, .symbol '%'] := by
        rw [lexemes_append_symbol (by decide), hn.lexemes_eq]; rfl
      rw [hlex, absorbLiteralPercent, if_pos ⟨rfl, hn.isLiteral⟩, absorbLiteralPercent]
      refine ⟨by simpa using writes_quotient hn, ?_⟩
      have hmem : '%' ∉ n := hn.not_mem (by decide)
      simp [hmem]
  | @group s t hsum ih =>
      have hlex : lexemes ('(' :: s ++ [')']) =
          .symbol '(' :: (lexemes s ++ [.symbol ')']) := by
        rw [List.cons_append, lexemes_cons_symbol (by decide),
          lexemes_append_symbol (by decide)]
        rfl
      rw [hlex, absorbLiteralPercent_symbol, absorbLiteralPercent_append (by simp)]
      refine ⟨.group ih.1, ?_⟩
      simpa [absorbLiteralPercent, Lexeme.text] using ih.2
  | primary _ ih => exact ⟨.primary ih.1, ih.2⟩
  | @negate s t hprimary ih =>
      rw [lexemes_cons_symbol (by decide), absorbLiteralPercent_symbol]
      exact ⟨.negate ih.1, by simpa using ih.2⟩
  | factor _ ih => exact ⟨.factor ih.1, ih.2⟩
  | product _ ih => exact ⟨.product ih.1, ih.2⟩
  | @multiply r s t u op c hop hc _ _ ih ih' =>
      rw [absorbLiteralPercent_lexemes_operator hc]
      refine ⟨.multiply hop hc ih.1 ih'.1, ?_⟩
      have hpercent : '%' ≠ c := (Operator.ne_of_ofChar? hc (by decide)).symm
      simp [ih.2, ih'.2, hpercent]
  | @add r s t u op c hop hc _ _ ih ih' =>
      rw [absorbLiteralPercent_lexemes_operator hc]
      refine ⟨.add hop hc ih.1 ih'.1, ?_⟩
      have hpercent : '%' ≠ c := (Operator.ne_of_ofChar? hc (by decide)).symm
      simp [ih.2, ih'.2, hpercent]

/-- The canonical spelling of the operators writes the same tree. -/
theorem writes_map_canonicalChar {l : Level} {s : Text} {t : Tree} (h : Writes l s t) :
    Writes l (s.map canonicalChar) t := by
  induction h with
  | number hn => rw [map_canonicalChar_numeric hn.isNumeric]; exact .number hn
  | percent hn =>
      rw [List.map_append, map_canonicalChar_numeric hn.isNumeric]
      exact .percent hn
  | group _ ih =>
      rw [List.map_append, List.map_cons]
      exact .group ih
  | primary _ ih => exact .primary ih
  | negate _ ih => exact .negate ih
  | factor _ ih => exact .factor ih
  | product _ ih => exact .product ih
  | multiply hop hc _ _ ih ih' =>
      rw [List.map_append, List.map_cons]
      exact .multiply hop ((ofChar?_canonicalChar _).trans hc) ih ih'
  | add hop hc _ _ ih ih' =>
      rw [List.map_append, List.map_cons]
      exact .add hop ((ofChar?_canonicalChar _).trans hc) ih ih'

/-- No plus sign of a written text is unary, so all of it is kept. -/
theorem dropUnaryPlus_of_writes {l : Level} {s : Text} {t : Tree} (h : Writes l s t)
    (due : Bool) (rest : Text) :
    dropUnaryPlus due (s ++ rest) = s ++ dropUnaryPlus false rest := by
  induction h generalizing due rest with
  | number hn => exact dropUnaryPlus_numeric hn.ne_nil hn.isNumeric due rest
  | percent hn =>
      rw [List.append_assoc, dropUnaryPlus_numeric hn.ne_nil hn.isNumeric]
      simp [dropUnaryPlus]
  | group _ ih =>
      rw [List.cons_append, List.cons_append, List.append_assoc, dropUnaryPlus,
        if_neg (by simp), ih]
      simp [dropUnaryPlus]
  | primary _ ih => exact ih due rest
  | negate _ ih =>
      rw [List.cons_append, dropUnaryPlus, if_neg (by simp), ih, List.cons_append]
  | factor _ ih => exact ih due rest
  | product _ ih => exact ih due rest
  | multiply _ _ _ _ ih ih' => exact dropUnaryPlus_operator ih ih' due rest
  | add _ _ _ _ ih ih' => exact dropUnaryPlus_operator ih ih' due rest

/-- The text is free of percent signs and has the canonical spelling. -/
def Plain (s : Text) : Prop :=
  ∀ c ∈ s, c ≠ '%' ∧ canonicalChar c = c

theorem plain_append {r s : Text} : Plain (r ++ s) ↔ Plain r ∧ Plain s :=
  List.forall_mem_append

theorem plain_cons {c : Char} {s : Text} :
    Plain (c :: s) ↔ (c ≠ '%' ∧ canonicalChar c = c) ∧ Plain s :=
  List.forall_mem_cons

theorem plain_map_canonicalChar {s : Text} (h : '%' ∉ s) : Plain (s.map canonicalChar) := by
  intro c hc
  obtain ⟨d, hd, rfl⟩ := List.mem_map.1 hc
  have hpercent : d ≠ '%' := by
    rintro rfl
    exact h hd
  rcases canonicalChar_cases d with heq | heq | heq
  · rw [heq]; exact ⟨hpercent, heq⟩
  · rw [heq]; exact ⟨by decide, rfl⟩
  · rw [heq]; exact ⟨by decide, rfl⟩

/-- Where an operand is due the text is scanned to the tokens, and behind it no
operand is due. -/
def ScansTo (s : Text) (ts : List Token) : Prop :=
  ∀ rest : List Lexeme,
    Token.ofLexemes true (lexemes s ++ rest) =
      (Token.ofLexemes false rest).map (ts ++ ·)

namespace ScansTo

theorem number {n : Text} {d : Decimal} (hn : IsNumeral n d) :
    ScansTo n [.number d.toFloat] := by
  intro rest
  rw [hn.lexemes_eq, List.singleton_append, Token.ofLexemes, hn.2]
  cases Token.ofLexemes false rest <;> rfl

/-- A group is scanned from its parenthesis on, as it does not begin with a
closing one. -/
theorem group {s : Text} {ts : List Token} (h : ScansTo s ts)
    (hhead : ∀ rest : List Lexeme, (lexemes s ++ rest).head? ≠ some (.symbol ')')) :
    ScansTo ('(' :: s ++ [')']) (.opening :: ts ++ [.closing]) := by
  intro rest
  have hlex : lexemes ('(' :: s ++ [')']) ++ rest =
      .symbol '(' :: (lexemes s ++ .symbol ')' :: rest) := by
    rw [List.cons_append, lexemes_cons_symbol (by decide), lexemes_append_symbol (by decide)]
    simp
  have hclosing : Token.ofLexemes false (.symbol ')' :: rest) =
      (Token.ofLexemes false rest).map (.closing :: ·) := by
    rw [Token.ofLexemes, if_neg (by simp)]
    cases h : Token.ofLexemes false rest <;> simp [Token.ofSymbol?, Token.operandDue, h] <;> rfl
  rw [hlex, Token.ofLexemes, if_neg (fun hempty => hhead _ hempty.2)]
  simp only [Token.ofSymbol?, Token.operandDue]
  rw [h, hclosing]
  cases Token.ofLexemes false rest <;> simp [Except.map, bind, Except.bind, pure, Except.pure]

theorem negate {s : Text} {ts : List Token} (h : ScansTo s ts) :
    ScansTo ('-' :: s) (.negate :: ts) := by
  intro rest
  rw [lexemes_cons_symbol (by decide), List.cons_append, Token.ofLexemes, if_neg (by simp)]
  simp only [Token.ofSymbol?, Token.operandDue, if_true]
  rw [h]
  cases Token.ofLexemes false rest <;> rfl

theorem binary {c : Char} {op : Operator} {r s : Text} {ts us : List Token}
    (hc : Operator.ofChar? c = some op) (hcanonical : canonicalChar c = c)
    (hr : ScansTo r ts) (hs : ScansTo s us) :
    ScansTo (r ++ c :: s) (ts ++ .operator op :: us) := by
  intro rest
  have hopening : c ≠ '(' := Operator.ne_of_ofChar? hc (by decide)
  rw [lexemes_append_symbol (Operator.isNumeric_of_ofChar? hc), List.append_assoc, hr,
    List.cons_append, Token.ofLexemes, if_neg (by simp [hopening]),
    ofSymbol?_of_ofChar? hc hcanonical]
  simp only [Token.operandDue]
  rw [hs]
  cases Token.ofLexemes false rest <;> simp [Except.map, bind, Except.bind, pure, Except.pure]

end ScansTo

/-- A written text does not begin with a closing parenthesis. -/
theorem head?_lexemes_of_writes {l : Level} {s : Text} {t : Tree} (h : Writes l s t)
    (rest : List Lexeme) : (lexemes s ++ rest).head? ≠ some (.symbol ')') := by
  induction h generalizing rest with
  | number hn => rw [hn.lexemes_eq]; simp
  | percent hn => rw [lexemes_append_symbol (by decide), hn.lexemes_eq]; simp
  | group _ _ => rw [List.cons_append, lexemes_cons_symbol (by decide)]; simp
  | primary _ ih => exact ih rest
  | negate _ _ => rw [lexemes_cons_symbol (by decide)]; simp
  | factor _ ih => exact ih rest
  | product _ ih => exact ih rest
  | multiply _ hc _ _ ih _ =>
      rw [lexemes_append_symbol (Operator.isNumeric_of_ofChar? hc), List.append_assoc]
      exact ih _
  | add _ hc _ _ ih _ =>
      rw [lexemes_append_symbol (Operator.isNumeric_of_ofChar? hc), List.append_assoc]
      exact ih _

theorem head?_ne_negate_of_spells {ts : List Token} {t : Tree}
    (h : Spells .primary ts t) : ts.head? ≠ some .negate := by
  cases h <;> simp

/-- A plain text of the grammar is scanned to tokens that spell its tree, with
single signs. -/
theorem exists_spells_of_writes {l : Level} {s : Text} {t : Tree} (h : Writes l s t)
    (hplain : Plain s) :
    ∃ ts : List Token, Spells l ts t ∧ SingleSigns ts ∧ ScansTo s ts := by
  induction h with
  | @number n d hn =>
      exact ⟨[.number d.toFloat], .number _, List.isChain_singleton _, .number hn⟩
  | percent hn =>
      rw [plain_append, plain_cons] at hplain
      exact absurd rfl hplain.2.1.1
  | @group s t hsum ih =>
      rw [List.cons_append, plain_cons, plain_append] at hplain
      obtain ⟨ts, hspells, hsigns, hscan⟩ := ih hplain.2.1
      refine ⟨_, .group hspells, ?_, hscan.group (head?_lexemes_of_writes hsum)⟩
      rw [SingleSigns, List.cons_append, List.isChain_cons, List.isChain_append]
      exact ⟨by simp, hsigns, List.isChain_singleton _, by simp⟩
  | primary _ ih =>
      obtain ⟨ts, hspells, hsigns, hscan⟩ := ih hplain
      exact ⟨ts, .primary hspells, hsigns, hscan⟩
  | negate _ ih =>
      obtain ⟨ts, hspells, hsigns, hscan⟩ := ih (plain_cons.1 hplain).2
      refine ⟨_, .negate (.primary hspells), List.isChain_cons.2 ⟨?_, hsigns⟩, hscan.negate⟩
      rintro x hx ⟨-, rfl⟩
      exact head?_ne_negate_of_spells hspells hx
  | factor _ ih =>
      obtain ⟨ts, hspells, hsigns, hscan⟩ := ih hplain
      exact ⟨ts, .factor hspells, hsigns, hscan⟩
  | product _ ih =>
      obtain ⟨ts, hspells, hsigns, hscan⟩ := ih hplain
      exact ⟨ts, .product hspells, hsigns, hscan⟩
  | multiply hop hc _ _ ih ih' =>
      rw [plain_append, plain_cons] at hplain
      obtain ⟨ts, hspells, hsigns, hscan⟩ := ih hplain.1
      obtain ⟨us, hspells', hsigns', hscan'⟩ := ih' hplain.2.2
      exact ⟨_, .multiply hop hspells hspells', singleSigns_binary_iff.2 ⟨hsigns, hsigns'⟩,
        hscan.binary hc hplain.2.1.2 hscan'⟩
  | add hop hc _ _ ih ih' =>
      rw [plain_append, plain_cons] at hplain
      obtain ⟨ts, hspells, hsigns, hscan⟩ := ih hplain.1
      obtain ⟨us, hspells', hsigns', hscan'⟩ := ih' hplain.2.2
      exact ⟨_, .add hop hspells hspells', singleSigns_binary_iff.2 ⟨hsigns, hsigns'⟩,
        hscan.binary hc hplain.2.1.2 hscan'⟩

/-- The tokens of a written expression spell its tree, with single signs. -/
theorem exists_expressionTokens_of_writes {s : Text} {t : Tree} (h : Writes .sum s t) :
    ∃ ts : List Token, expressionTokens s = .ok ts ∧ Spells .sum ts t ∧ SingleSigns ts := by
  obtain ⟨habsorbed, hpercent⟩ := writes_absorbLiteralPercent h
  have hwrites := writes_map_canonicalChar habsorbed
  have hcanonical : canonical (absorbPercent s) =
      (absorbLiteralPercent (lexemes s)).map canonicalChar := by
    have hkept := dropUnaryPlus_of_writes hwrites true []
    rw [List.append_nil, dropUnaryPlus, List.append_nil] at hkept
    rw [canonical, absorbPercent, absorbGroupPercent_of_not_mem hpercent, hkept]
  obtain ⟨ts, hspells, hsigns, hscan⟩ :=
    exists_spells_of_writes hwrites (plain_map_canonicalChar hpercent)
  have hall := hscan []
  rw [List.append_nil] at hall
  refine ⟨ts, ?_, hspells, hsigns⟩
  rw [expressionTokens, hcanonical, scan, hall]
  simp [Token.ofLexemes, Except.map]

/-- The outcome of the tree that the tokens spell decides, but for values that are not
finite. -/
theorem evaluate_eq_of_spells {s : Text} {ts : List Token} {t : Tree}
    (htokens : expressionTokens s = .ok ts) (hspells : Spells .sum ts t)
    (hsigns : SingleSigns ts) :
    evaluate s = t.outcome.bind fun v => if v.isFinite then .ok v else .error .malformed := by
  have horder := toPostfix_of_spells hspells hsigns
  have hreduce := Tree.reduce_postorder t
  rw [evaluate, htokens]
  change (toPostfix ts >>= fun ordered => _) = _
  rw [horder]
  change (reduce t.postorder >>= fun value => _) = _
  rw [hreduce]
  rfl

theorem evaluate_eq_of_writes {s : Text} {t : Tree} (h : Writes .sum s t) :
    evaluate s = t.outcome.bind fun v => if v.isFinite then .ok v else .error .malformed := by
  obtain ⟨ts, htokens, hspells, hsigns⟩ := exists_expressionTokens_of_writes h
  exact evaluate_eq_of_spells htokens hspells hsigns

/-- An expression of the grammar has the value of its tree: it is a division by
zero if some divisor of the tree is zero, malformed if the value is not finite,
and the value otherwise. -/
theorem evaluate_of_writes {s : Text} {t : Tree} (h : Writes .sum s t) :
    evaluate s =
      if t.hasZeroDivisor then .error .divisionByZero
      else if t.value.isFinite then .ok t.value
      else .error .malformed := by
  rw [evaluate_eq_of_writes h, Tree.outcome]
  by_cases hzero : t.hasZeroDivisor = true
  · rw [if_pos hzero, if_pos hzero]
    rfl
  · rw [if_neg hzero, if_neg hzero]
    rfl

/-- `1-2%×-(3-5)` is 0.96: the sign belongs to the group, and the percentage is a
factor. -/
theorem evaluate_percentage_times_negated_group :
    evaluate ['1', '-', '2', '%', '×', '-', '(', '3', '-', '5', ')'] =
      .ok (Decimal.toFloat ⟨96, 2⟩) := by
  have hone : Writes .primary ['1'] (.leaf (Decimal.toFloat ⟨1, 0⟩)) :=
    .number ⟨by decide, by decide⟩
  have htwo : Writes .primary ['2', '%']
      (.binary .divide (.leaf (Decimal.toFloat ⟨2, 0⟩)) (.leaf hundred)) :=
    .percent (n := ['2']) ⟨by decide, by decide⟩
  have hthree : Writes .primary ['3'] (.leaf (Decimal.toFloat ⟨3, 0⟩)) :=
    .number ⟨by decide, by decide⟩
  have hfive : Writes .primary ['5'] (.leaf (Decimal.toFloat ⟨5, 0⟩)) :=
    .number ⟨by decide, by decide⟩
  have hgroup : Writes .primary ['(', '3', '-', '5', ')']
      (.binary .minus (.leaf (Decimal.toFloat ⟨3, 0⟩)) (.leaf (Decimal.toFloat ⟨5, 0⟩))) :=
    .group (s := ['3', '-', '5']) (.add (r := ['3']) rfl rfl
      (.product (.factor (.primary hthree))) (.factor (.primary hfive)))
  refine (evaluate_of_writes (.add (r := ['1']) rfl rfl (.product (.factor (.primary hone)))
    (.multiply (r := ['2', '%']) rfl rfl (.factor (.primary htwo)) (.negate hgroup)))).trans ?_
  decide +kernel

end Calculator
