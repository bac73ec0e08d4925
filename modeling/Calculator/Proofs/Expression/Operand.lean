import Calculator.Proofs.Expression.Beginning
import Calculator.Proofs.Expression.Linked
import Calculator.Proofs.Postfix.Signs
import Calculator.Proofs.Typing.Standing

/-!
# A number at the end of an expression

Behind a text that no operand ends (`OpenEnded`) a number with its sign may as well be
written in parentheses (`evaluate_append_bareNumber`): the text is written anew and scanned
by itself (`expressionTokens_append`), and an operand is due behind its last token. Only a
sign behind another sign is read otherwise than in parentheses, and if that one is the sign of a
factor the value is the same (`signsFactor`). Whether the last token of the text is a sign is
traced back to the text that was typed, along the steps that write it anew
(`OpenEnded.respells`).
-/

namespace Calculator

open Buffer (operandDue isBareNumber)

/-- Neither an operand nor a percent sign ends the text. -/
def OpenEnded (t : Text) : Prop :=
  ∀ c ∈ t.getLast?, isNumeric c = false ∧ c ≠ '%' ∧ c ≠ ')'

/-- An operand begins behind the text. -/
def StartsOperand (t : Text) : Prop :=
  t = [] ∨ operandDue t = true

/-- The text ends with the sign of a factor: a minus sign directly behind the operator of a
product or of a quotient. -/
def signsFactor (t : Text) : Bool :=
  t.getLast? == some '-' && t.dropLast.getLast?.any fun c => ['×', '÷', '*', '/'].contains c

section Texts

variable {a b t u v w : Text} {c : Char}

theorem openEnded_concat : OpenEnded (t ++ [c]) ↔ isNumeric c = false ∧ c ≠ '%' ∧ c ≠ ')' := by
  simp [OpenEnded]

theorem openEnded_append (hv : v ≠ []) : OpenEnded (u ++ v) ↔ OpenEnded v := by
  rw [OpenEnded, List.getLast?_append_of_ne_nil u hv, OpenEnded]

theorem startsOperand_append (hv : v ≠ []) : StartsOperand (u ++ v) ↔ operandDue v = true := by
  rw [StartsOperand, or_iff_right (List.append_ne_nil_of_right_ne_nil u hv), operandDue,
    List.getLast?_append_of_ne_nil u hv, operandDue]

theorem operandDue_singleton : operandDue [c] = true ↔ AwaitsOperand c := by
  simp [operandDue, AwaitsOperand]

theorem endsWithSign_concat :
    endsWithSign (t ++ [c]) = true ↔ c = '-' ∧ StartsOperand t := by
  simp [endsWithSign, StartsOperand]

theorem endsWithSign_of_getLast? (h : t.getLast? ≠ some '-') : endsWithSign t = false := by
  rw [endsWithSign, beq_false_of_ne h, Bool.false_and]

/-- Whether there is a sign at the end does not depend on what stands far before it. -/
theorem endsWithSign_append (hv : v ≠ []) (h : StartsOperand b → StartsOperand a)
    (hsign : endsWithSign (b ++ v) = true) : endsWithSign (a ++ v) = true := by
  obtain ⟨v, c, rfl⟩ := (List.eq_nil_or_concat' v).resolve_left hv
  rw [← List.append_assoc, endsWithSign_concat] at hsign ⊢
  refine ⟨hsign.1, ?_⟩
  by_cases hne : v = []
  · subst hne
    simpa using h (by simpa using hsign.2)
  · rw [startsOperand_append hne] at hsign ⊢
    exact hsign.2

/-- A text that is written anew still has no operand at its end, and a sign there only if it
had one. -/
theorem OpenEnded.respells (h : OpenEnded t) (hstep : Respells t w) :
    OpenEnded w ∧ (endsWithSign w = true → endsWithSign t = true) := by
  have hbehind : ∀ {a b v : Text}, OpenEnded (a ++ v) → v ≠ [] →
      (StartsOperand b → StartsOperand a) →
        OpenEnded (b ++ v) ∧ (endsWithSign (b ++ v) = true → endsWithSign (a ++ v) = true) :=
    fun h hv hstarts => ⟨(openEnded_append hv).2 ((openEnded_append hv).1 h),
      endsWithSign_append hv hstarts⟩
  cases hstep with
  | @literal u v r hu hr hliteral =>
      have ha : u ++ (r ++ '%' :: v) = (u ++ (r ++ ['%'])) ++ v := by simp
      have hb : u ++ '(' :: (r ++ '/' :: '1' :: '0' :: '0' :: ')' :: v) =
          (u ++ '(' :: (r ++ ['/', '1', '0', '0', ')'])) ++ v := by simp
      rw [ha] at h ⊢
      rw [hb]
      refine hbehind h ?_ fun hstarts => ?_
      · rintro rfl
        rw [List.append_nil, ← List.append_assoc, openEnded_concat] at h
        exact h.2.1 rfl
      · rw [← List.cons_append, ← List.append_assoc, startsOperand_append (by simp)] at hstarts
        cases hstarts
  | group u v =>
      have ha : u ++ ')' :: '%' :: v = (u ++ [')', '%']) ++ v := by simp
      have hb : u ++ ')' :: '/' :: '1' :: '0' :: '0' :: v =
          (u ++ [')', '/', '1', '0', '0']) ++ v := by simp
      rw [ha] at h ⊢
      rw [hb]
      refine hbehind h ?_ fun hstarts => ?_
      · rintro rfl
        rw [List.append_nil, openEnded_append (by simp)] at h
        exact absurd rfl (h '%' rfl).2.1
      · rw [startsOperand_append (by simp)] at hstarts
        cases hstarts
  | spelling u v c =>
      by_cases hv : v = []
      · subst hv
        rw [openEnded_concat] at h
        rw [openEnded_concat, endsWithSign_concat, endsWithSign_concat]
        rcases canonicalChar_cases c with heq | heq | heq
        · rw [heq]
          exact ⟨h, id⟩
        · rw [heq]
          exact ⟨by decide, fun hsign => absurd hsign.1 (by decide)⟩
        · rw [heq]
          exact ⟨by decide, fun hsign => absurd hsign.1 (by decide)⟩
      · have ha : ∀ d : Char, u ++ d :: v = (u ++ [d]) ++ v := by simp
        rw [ha] at h ⊢
        rw [ha]
        refine hbehind h hv fun hstarts => ?_
        rw [startsOperand_append (by simp), operandDue_singleton] at hstarts ⊢
        exact awaitsOperand_canonicalChar hstarts
  | plus u v hu =>
      by_cases hv : v = []
      · subst hv
        rw [List.append_nil]
        refine ⟨fun c hc => ?_, fun hsign => ?_⟩
        · rw [hu c hc]
          decide
        · rw [endsWithSign_of_getLast?] at hsign
          · cases hsign
          · intro hlast
            cases hu '-' hlast
      · have ha : u ++ '+' :: v = (u ++ ['+']) ++ v := by simp
        rw [ha] at h ⊢
        exact hbehind h hv fun _ => (startsOperand_append (by simp)).2 rfl

theorem OpenEnded.canonical (h : OpenEnded t) : OpenEnded (canonical (absorbPercent t)) :=
  invariant_of_respells (fun hopen hstep => (hopen.respells hstep).1) h

theorem OpenEnded.endsWithSign_canonical (h : OpenEnded t)
    (hsign : endsWithSign (Calculator.canonical (absorbPercent t)) = true) :
    endsWithSign t = true := by
  by_contra hnone
  have hkept := invariant_of_respells
    (P := fun s => OpenEnded s ∧ ¬endsWithSign s = true)
    (fun hs hstep => ⟨(hs.1.respells hstep).1, fun hw => hs.2 ((hs.1.respells hstep).2 hw)⟩)
    ⟨h, hnone⟩
  exact hkept.2 hsign

end Texts

section Tokens

variable {t s u : Text} {ts us : List Token} {f : Fault}

/-- Behind a token that an operand follows there is the character of it. -/
theorem exists_symbol_of_operandDue {due : Bool} {l : Lexeme} {token : Token}
    (h : Token.ofLexeme due l = .ok token) (hdue : token.operandDue = true) :
    ∃ c : Char, l = .symbol c ∧ AwaitsOperand c := by
  cases l with
  | run r =>
      obtain ⟨d, -, rfl⟩ := Token.ofLexeme_run_eq_ok_iff.1 h
      cases hdue
  | symbol c =>
      refine ⟨c, rfl, ?_⟩
      rcases Token.symbol_cases (Token.ofLexeme_symbol_eq_ok_iff.1 h) with
        ⟨rfl, -⟩ | ⟨-, rfl⟩ | ⟨rfl, -, -⟩ | ⟨op, hop, -⟩
      · exact Or.inl rfl
      · cases hdue
      · exact Or.inr rfl
      · exact Or.inr (by rw [isOperator, hop, Option.isSome_some])

theorem isNumeric_of_awaitsOperand {c : Char} (h : AwaitsOperand c) : isNumeric c = false := by
  rcases h with rfl | hoperator
  · rfl
  · cases hc : isNumeric c with
    | false => rfl
    | true => rw [isOperator_of_isNumeric hc] at hoperator; cases hoperator

theorem startsOperand_of_dueBehind (h : Token.ofLexemes true (lexemes s) = .ok ts)
    (hdue : Token.dueBehind true ts = true) : StartsOperand s := by
  rcases List.eq_nil_or_concat' (lexemes s) with hnil | ⟨ls, l, hconcat⟩
  · left
    rw [← text_lexemes s, hnil]
    rfl
  · rw [hconcat] at h
    obtain ⟨us, token, -, rfl, htoken⟩ := Token.exists_of_ofLexemes_concat h
    rw [Token.dueBehind_concat] at hdue
    obtain ⟨c, rfl, hc⟩ := exists_symbol_of_operandDue htoken hdue
    have hlast : s.getLast? = some c := by
      rw [← getLast?_lexemes_eq_symbol_iff (isNumeric_of_awaitsOperand hc), hconcat,
        List.getLast?_concat]
    obtain ⟨v, rfl⟩ := List.getLast?_eq_some_iff.1 hlast
    exact (startsOperand_append (List.cons_ne_nil c [])).2 (operandDue_singleton.2 hc)

theorem eq_minus_of_ofLexeme {due : Bool} {c : Char}
    (h : Token.ofLexeme due (.symbol c) = .ok .negate) : c = '-' ∧ due = true := by
  rcases Token.symbol_cases (Token.ofLexeme_symbol_eq_ok_iff.1 h) with
    ⟨-, hnone⟩ | ⟨-, hnone⟩ | ⟨hc, hdue, -⟩ | ⟨op, -, hnone⟩
  · cases hnone
  · cases hnone
  · exact ⟨hc, hdue⟩
  · cases hnone

/-- An operand is due behind the last token of a text that no operand ends, and this token
is a sign only if the text ends with one. -/
theorem getLast?_of_openEnded (hs : OpenEnded s) (h : Token.ofLexemes true (lexemes s) = .ok ts) :
    ∀ x ∈ ts.getLast?, x.operandDue = true ∧ (x = .negate → endsWithSign s = true) := by
  rcases List.eq_nil_or_concat' s with rfl | ⟨s, c, rfl⟩
  · cases h
    simp
  · obtain ⟨hc, -, hclosing⟩ := openEnded_concat.1 hs
    rw [lexemes_append_symbol hc] at h
    obtain ⟨us, token, hus, rfl, htoken⟩ := Token.exists_of_ofLexemes_concat h
    intro x hx
    rw [List.getLast?_concat] at hx
    cases hx
    refine ⟨Token.operandDue_of_ofLexeme hclosing htoken, ?_⟩
    rintro rfl
    obtain ⟨rfl, hdue⟩ := eq_minus_of_ofLexeme htoken
    exact endsWithSign_concat.2 ⟨rfl, startsOperand_of_dueBehind hus hdue⟩

/-- What is scanned behind a text that no operand ends is scanned as if it stood first. -/
theorem expressionTokens_append (ht : OpenEnded t) (hts : expressionTokens t = .ok ts)
    (hpercent : '%' ∉ u) (hplus : '+' ∉ u) (hspelling : u.map canonicalChar = u)
    (hhead : u.head? ≠ some ')') (hu : ScansTo u us) :
    expressionTokens (t ++ u) = .ok (ts ++ us) := by
  have hlast : ∀ c ∈ t.getLast?, isNumeric c = false := fun c hc => (ht c hc).1
  have hs := ht.canonical
  rw [expressionTokens, scan] at hts
  rw [expressionTokens, scan, canonical_absorbPercent_append (Or.inl hlast) hpercent hplus,
    hspelling, lexemes_append_of_getLast fun c hc => (hs c hc).1,
    Token.ofLexemes_append hts fun _ hclosing => hhead (head?_of_head?_lexemes hclosing)]
  have hdue : Token.dueBehind true ts = true := by
    have hfollows := getLast?_of_openEnded hs hts
    rw [Token.dueBehind]
    cases hx : ts.getLast? with
    | none => rfl
    | some x => exact (hfollows x hx).1
  have hscan := hu []
  rw [List.append_nil] at hscan
  rw [hdue, hscan]
  simp [Token.ofLexemes, Except.map]

theorem exists_append_of_signsFactor (h : signsFactor t = true) :
    ∃ (s : Text) (c : Char), t = s ++ [c, '-'] ∧ c ∈ ['×', '÷', '*', '/'] := by
  rw [signsFactor, Bool.and_eq_true, beq_iff_eq, Option.any_eq_true] at h
  obtain ⟨hlast, c, hc, hfactor⟩ := h
  obtain ⟨s, rfl⟩ := List.getLast?_eq_some_iff.1 hlast
  rw [List.dropLast_concat] at hc
  obtain ⟨s, rfl⟩ := List.getLast?_eq_some_iff.1 hc
  exact ⟨s, c, by simp, List.contains_iff_mem.1 hfactor⟩

/-- The tokens of such a text end with the operator and the sign. -/
theorem exists_tokens_of_signsFactor (h : signsFactor t = true)
    (hts : expressionTokens t = .ok ts) :
    ∃ (ws : List Token) (op : Operator), op.level = .product ∧
      ts = ws ++ [.operator op, .negate] := by
  obtain ⟨s, c, rfl, hc⟩ := exists_append_of_signsFactor h
  have hspelled : isNumeric c = false ∧ c ≠ '%' ∧ c ≠ '+' ∧ isNumeric (canonicalChar c) = false ∧
      ∃ op : Operator, op.level = .product ∧
        ∀ due : Bool, Token.ofSymbol? due (canonicalChar c) = some (.operator op) := by
    simp only [List.mem_cons, List.not_mem_nil, or_false] at hc
    rcases hc with rfl | rfl | rfl | rfl
    · exact ⟨rfl, by decide, by decide, rfl, .times, rfl, fun _ => rfl⟩
    · exact ⟨rfl, by decide, by decide, rfl, .divide, rfl, fun _ => rfl⟩
    · exact ⟨rfl, by decide, by decide, rfl, .times, rfl, fun _ => rfl⟩
    · exact ⟨rfl, by decide, by decide, rfl, .divide, rfl, fun _ => rfl⟩
  obtain ⟨hsymbol, hpercent, hplus, hcanonical, op, hop, htoken⟩ := hspelled
  rw [expressionTokens, scan, canonical_absorbPercent_append (Or.inr (by simpa using hsymbol))
    (by simpa using hpercent.symm) (by simpa using hplus.symm), List.map_cons,
    lexemes_append_symbol hcanonical] at hts
  obtain ⟨us, token, ws, -, hoperator, hsign, rfl⟩ := Token.exists_of_ofLexemes_append hts
  rw [Token.ofLexeme_symbol_eq_ok_iff, htoken] at hoperator
  cases hoperator
  cases hsign
  exact ⟨us, op, hop, rfl⟩

/-- The tokens of a signed number, and of one in parentheses. -/
theorem exists_scansTo_of_isBareNumber {r : Text} (hr : isBareNumber r = true) :
    ∃ v : Float, ∃ us : List Token, ScansTo r us ∧
      ScansTo ('(' :: r ++ [')']) (.opening :: us ++ [.closing]) ∧
      (us = [.number v] ∨ us = [.negate, .number v] ∧ r.head? = some '-') := by
  obtain ⟨n, hn, hsign⟩ := exists_of_isBareNumber hr
  obtain ⟨d, hd⟩ := hn.exists_isNumeral
  have hscan : ScansTo n [.number d.toFloat] := .number hd
  rcases hsign with rfl | rfl
  · refine ⟨d.toFloat, _, hscan, hscan.group fun rest => ?_, Or.inl rfl⟩
    rw [hd.lexemes_eq]
    simp
  · refine ⟨d.toFloat, _, hscan.negate, hscan.negate.group fun rest => ?_, Or.inr ⟨rfl, rfl⟩⟩
    rw [lexemes_cons_symbol rfl]
    simp

end Tokens

section Value

variable {t r : Text}

/-- A number behind a text that no operand ends may be written in parentheses; a number with
a sign only if there is no sign before it, or that of a factor. -/
theorem evaluate_append_bareNumber (hr : isBareNumber r = true) (ht : OpenEnded t)
    (hsign : r.head? = some '-' → endsWithSign t = false ∨ signsFactor t = true) :
    evaluate (t ++ r) = evaluate (t ++ ('(' :: r ++ [')'])) := by
  cases hts : expressionTokens t with
  | error f =>
      have hlast : ∀ c ∈ t.getLast?, isNumeric c = false := fun c hc => (ht c hc).1
      rw [evaluate_of_expressionTokens (expressionTokens_append_of_getLast? hlast hts r),
        evaluate_of_expressionTokens (expressionTokens_append_of_getLast? hlast hts _)]
  | ok ts =>
      have hpercent : '%' ∉ r := not_mem_of_isBareNumber hr rfl (by decide)
      have hplus : '+' ∉ r := not_mem_of_isBareNumber hr rfl (by decide)
      have hpercent' : '%' ∉ '(' :: r ++ [')'] := by simpa using hpercent
      have hplus' : '+' ∉ '(' :: r ++ [')'] := by simpa using hplus
      have hspelling : r.map canonicalChar = r := by
        have hkept : ∀ c ∈ r, canonicalChar c = c := by
          intro c hc
          rcases mem_of_isBareNumber hr hc with h | rfl
          · exact canonicalChar_of_isNumeric h
          · rfl
        rw [List.map_congr_left hkept, List.map_id'']
        exact fun _ => rfl
      have hspelling' : ('(' :: r ++ [')']).map canonicalChar = '(' :: r ++ [')'] := by
        rw [List.map_append, List.map_cons, hspelling]
        rfl
      have hhead : r.head? ≠ some ')' := fun h =>
        not_mem_of_isBareNumber hr rfl (by decide) (List.mem_of_mem_head? h)
      obtain ⟨v, us, hus, hgroup, hnumber⟩ := exists_scansTo_of_isBareNumber hr
      have hvalue : Token.value (ts ++ us) =
          Token.value (ts ++ (.opening :: us ++ [.closing])) := by
        rcases hnumber with rfl | ⟨rfl, hminus⟩
        · exact congrArg (· >>= reduce) (toPostfix_append_number ts v)
        · rcases hsign hminus with hnone | hfactor
          · refine congrArg (· >>= reduce) (toPostfix_append_negated (fun x hx => ?_) v)
            obtain ⟨hdue, hnegate⟩ := getLast?_of_openEnded ht.canonical hts x hx
            refine ⟨hdue, fun heq => ?_⟩
            have hend := ht.endsWithSign_canonical (hnegate heq)
            rw [hnone] at hend
            cases hend
          · obtain ⟨ws, op, hop, rfl⟩ := exists_tokens_of_signsFactor hfactor hts
            simpa using value_append_negated_factor hop ws v
      rw [evaluate_eq_bind, evaluate_eq_bind,
        expressionTokens_append ht hts hpercent hplus hspelling hhead hus,
        expressionTokens_append ht hts hpercent' hplus' hspelling' (by simp) hgroup]
      simp only [Except.bind, hvalue]

end Value

end Calculator
