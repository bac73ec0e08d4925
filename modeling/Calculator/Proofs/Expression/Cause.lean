import Calculator.Proofs.Expression.Group
import Calculator.Proofs.Expression.Percent
import Calculator.Proofs.Expression.Points
import Calculator.Proofs.Token.Language

/-!
# The cause of a fault

A fault is found in the text that is scanned, which is not the text that was typed: digits,
parentheses and operators are written into it, and percent signs and plus signs are taken out of
it. Each step of this is looked at once (`mem_of_respells`, `inAlphabet_of_respells`,
`emptyGroup_of_respells`), and none of them brings in what is at fault or takes it away. So the
cause of a fault is seen in the typed text, and an expression with a value has none
(`evaluate_cause`).
-/

namespace Calculator

/-- A character that expressions are written with. -/
def InAlphabet (c : Char) : Prop :=
  isNumeric c = true ∨ c ∈ ['+', '-', '×', '÷', '*', '/', '(', ')', '%']

section Steps

variable {c : Char} {t w : Text}

/-- What is written anew is numeric or a token, so that every other character was there before. -/
theorem mem_of_respells (h : Respells t w) (hnumeric : isNumeric c = false)
    (htoken : c ∉ tokenChars) (hc : c ∈ w) : c ∈ t := by
  have hwritten : ∀ {d : Char}, isNumeric d = true ∨ d ∈ tokenChars → c ≠ d := by
    rintro d (hd | hd) rfl
    · rw [hnumeric] at hd
      cases hd
    · exact htoken hd
  have hopening : c ≠ '(' := hwritten (by decide)
  have hclosing : c ≠ ')' := hwritten (by decide)
  have hslash : c ≠ '/' := hwritten (by decide)
  have hstar : c ≠ '*' := hwritten (by decide)
  have hone : c ≠ '1' := hwritten (by decide)
  have hzero : c ≠ '0' := hwritten (by decide)
  cases h with
  | @literal u v r _ _ _ =>
      simp only [List.mem_append, List.mem_cons, hopening, hclosing, hslash, hone, hzero,
        false_or] at hc ⊢
      tauto
  | group u v =>
      simp only [List.mem_append, List.mem_cons, hclosing, hslash, hone, hzero, false_or] at hc ⊢
      tauto
  | spelling u v d =>
      rw [List.mem_append, List.mem_cons] at hc ⊢
      rcases canonicalChar_cases d with hd | hd | hd
      · rwa [hd] at hc
      · exact hc.imp_right fun hc => Or.inr (hc.resolve_left (hd ▸ hstar))
      · exact hc.imp_right fun hc => Or.inr (hc.resolve_left (hd ▸ hslash))
  | plus u v _ =>
      rw [List.mem_append] at hc ⊢
      exact hc.imp_right (List.mem_cons_of_mem _)

theorem canonicalChar_eq_self (hc : ¬InAlphabet c) : canonicalChar c = c := by
  unfold canonicalChar
  split
  · exact absurd (Or.inr (by simp)) hc
  · exact absurd (Or.inr (by simp)) hc
  · rfl

/-- What is taken out of a text is of the alphabet. -/
theorem inAlphabet_of_respells (h : Respells t w) (hw : ∀ c ∈ w, InAlphabet c) :
    ∀ c ∈ t, InAlphabet c := by
  intro c hc
  by_contra hnone
  have hkept : ∀ {d : Char}, InAlphabet d → c ≠ d := by
    rintro d hd rfl
    exact hnone hd
  have hpercent : c ≠ '%' := hkept (Or.inr (by simp))
  have hplus : c ≠ '+' := hkept (Or.inr (by simp))
  refine hnone (hw c ?_)
  cases h with
  | @literal u v r _ _ _ =>
      simp only [List.mem_append, List.mem_cons, hpercent, false_or] at hc ⊢
      tauto
  | group u v =>
      simp only [List.mem_append, List.mem_cons, hpercent, false_or] at hc ⊢
      tauto
  | spelling u v d =>
      rw [List.mem_append, List.mem_cons] at hc ⊢
      refine hc.imp_right (Or.imp_left ?_)
      rintro rfl
      exact (canonicalChar_eq_self hnone).symm
  | plus u v _ =>
      rw [List.mem_append, List.mem_cons] at hc
      rw [List.mem_append]
      exact hc.imp_right fun hc => hc.resolve_left hplus

/-- An empty group is still there after a text is written anew. -/
theorem emptyGroup_of_respells (h : Respells t w) (ht : ['(', ')'] <:+: t) : ['(', ')'] <:+: w := by
  have hgap : ∀ {u g v : Text}, g ≠ [] → (∀ d ∈ g, d ≠ '(' ∧ d ≠ ')') →
      ['(', ')'] <:+: u ++ (g ++ v) → ['(', ')'] <:+: u ∨ ['(', ')'] <:+: v :=
    fun hne hg => isInfix_of_isInfix_append_gap (List.cons_ne_nil _ _) hne
      fun d hd => by simpa using hg d hd
  cases h with
  | @literal u v r _ hr _ =>
      have hnumeral : ∀ d ∈ r ++ ['%'], d ≠ '(' ∧ d ≠ ')' :=
        List.forall_mem_append.2 ⟨fun d hd => ne_parenthesis_of_isNumeric (hr d hd),
          List.forall_mem_singleton.2 (by decide)⟩
      rw [List.append_cons r] at ht
      rcases hgap (by simp) hnumeral ht with hu | hv
      · exact hu.trans (List.prefix_append ..).isInfix
      · exact hv.trans ⟨u ++ '(' :: (r ++ ['/', '1', '0', '0', ')']), [], by simp⟩
  | group u v =>
      have hpercent : ∀ d ∈ ['%'], d ≠ '(' ∧ d ≠ ')' :=
        List.forall_mem_singleton.2 (by decide)
      rw [List.append_cons] at ht
      rcases hgap (by simp) hpercent ht with hu | hv
      · exact hu.trans ⟨[], '/' :: '1' :: '0' :: '0' :: v, by simp⟩
      · exact hv.trans ⟨u ++ [')', '/', '1', '0', '0'], [], by simp⟩
  | spelling u v d =>
      by_cases hd : canonicalChar d = d
      · rwa [hd]
      · have hoperator : ∀ x ∈ [d], x ≠ '(' ∧ x ≠ ')' := by
          rw [List.forall_mem_singleton]
          constructor <;> rintro rfl <;> exact hd rfl
        rcases hgap (by simp) hoperator ht with hu | hv
        · exact hu.trans (List.prefix_append ..).isInfix
        · exact hv.trans ⟨u ++ [canonicalChar d], [], by simp⟩
  | plus u v _ =>
      have hplus : ∀ d ∈ ['+'], d ≠ '(' ∧ d ≠ ')' := List.forall_mem_singleton.2 (by decide)
      rcases hgap (by simp) hplus ht with hu | hv
      · exact hu.trans (List.prefix_append ..).isInfix
      · exact hv.trans (List.suffix_append ..).isInfix

end Steps

section Causes

variable {c : Char} {t : Text} {v : Float}

/-- An unknown symbol is one of the scanned text, and neither numeric nor a token. -/
theorem mem_canonical_of_unknownSymbol (h : evaluate t = .error (.unknownSymbol c)) :
    c ∈ canonical (absorbPercent t) ∧ isNumeric c = false ∧ c ∉ tokenChars := by
  rcases fault_of_evaluate h with hscan | ⟨ts, -, ⟨hf, -⟩ | hf | hf⟩
  · obtain ⟨u, l, v, hl, hfault, -⟩ := Token.ofLexemes_eq_error_iff.1 hscan
    cases hfault with
    | unknown htoken => exact ⟨by simp [hl.text_eq, Lexeme.text], hl.wellFormed, htoken⟩
  · cases hf
  · cases hf
  · cases hf

/-- An unknown symbol was typed, and it is a percent sign or none of the alphabet. -/
theorem mem_of_unknownSymbol (h : evaluate t = .error (.unknownSymbol c)) :
    c ∈ t ∧ (c = '%' ∨ ¬InAlphabet c) := by
  obtain ⟨hmem, hnumeric, htoken⟩ := mem_canonical_of_unknownSymbol h
  have hstep : ∀ {s w : Text}, c ∈ w → Respells s w → c ∈ s :=
    fun hc hstep => mem_of_respells hstep hnumeric htoken hc
  refine ⟨of_canonical_absorbPercent (P := (c ∈ ·)) hstep hmem, ?_⟩
  rw [or_iff_not_imp_left]
  rintro hpercent (hnum | hsymbol)
  · rw [hnumeric] at hnum
    cases hnum
  · obtain ⟨htimes, hdivide⟩ := not_mem_canonical (absorbPercent t)
    have hspelled : c ≠ '×' ∧ c ≠ '÷' :=
      ⟨fun heq => htimes (heq ▸ hmem), fun heq => hdivide (heq ▸ hmem)⟩
    simp only [tokenChars, List.mem_cons, List.not_mem_nil, or_false] at htoken hsymbol
    tauto

theorem scannable_of_evaluate (h : evaluate t = .ok v) :
    Scannable (canonical (absorbPercent t)) := by
  obtain ⟨ts, hts, -⟩ := exists_tokens_of_evaluate h
  exact scannable_iff.2 fun _ _ _ _ hl => Token.not_faultAt_of_ofLexemes hts hl

theorem inAlphabet_of_evaluate (h : evaluate t = .ok v) : ∀ c ∈ t, InAlphabet c := by
  have hstep : ∀ {s w : Text}, (∀ c ∈ w, InAlphabet c) → Respells s w → ∀ c ∈ s, InAlphabet c :=
    fun hw hstep => inAlphabet_of_respells hstep hw
  refine of_canonical_absorbPercent hstep fun c hc => ?_
  have htokens : ∀ d ∈ tokenChars, InAlphabet d := fun d hd => Or.inr (by
    simp only [tokenChars, List.mem_cons, List.not_mem_nil, or_false] at hd ⊢
    tauto)
  exact ((scannable_of_evaluate h).alphabet c hc).elim Or.inl (htokens c)

theorem no_emptyGroup_of_evaluate (h : evaluate t = .ok v) : ¬['(', ')'] <:+: t := by
  have hstep : ∀ {s w : Text}, ¬['(', ')'] <:+: w → Respells s w → ¬['(', ')'] <:+: s :=
    fun hw hstep hs => hw (emptyGroup_of_respells hstep hs)
  exact of_canonical_absorbPercent (P := fun s => ¬['(', ')'] <:+: s) hstep
    (scannable_of_evaluate h).groups

theorem pointsApart_of_evaluate (h : evaluate t = .ok v) : PointsApart t := by
  obtain ⟨ts, hts, -⟩ := exists_tokens_of_evaluate h
  exact pointsApart_of_expressionTokens hts

end Causes

/-- The cause of a fault is in the expression as it was typed: the unknown symbol, a numeral with
two points, parentheses that do not match. An expression with a value has none of them, and no
empty group. -/
theorem evaluate_cause (t : Text) :
    (∀ c : Char, evaluate t = .error (.unknownSymbol c) → c ∈ t ∧ (c = '%' ∨ ¬InAlphabet c)) ∧
      (evaluate t = .error .decimalPoint → ∃ r ∈ runs t, 1 < r.count '.') ∧
      (evaluate t = .error .unbalanced → ¬Balanced t) ∧
      ∀ v : Float, evaluate t = .ok v →
        (∀ c ∈ t, InAlphabet c) ∧ (¬∃ r ∈ runs t, 1 < r.count '.') ∧ ¬['(', ')'] <:+: t ∧
          Balanced t := by
  refine ⟨fun c => mem_of_unknownSymbol, exists_run_of_decimalPoint, fun h => ?_, fun v h => ?_⟩
  · rw [balanced_iff]
    exact (evaluate_eq_unbalanced_iff_openGroups?.1 h).2
  · refine ⟨inAlphabet_of_evaluate h, ?_, no_emptyGroup_of_evaluate h,
      balanced_iff.2 (openGroups?_of_evaluate h)⟩
    rintro ⟨r, hr, hcount⟩
    exact absurd hcount (not_lt.2 (pointsApart_of_evaluate h r hr))

/-- The percent sign of `(%)` is unknown, `5%.1.2` has a numeral with two points, and `(5%` leaves
its group open. In `+(50%)×2`, which is 1, the parentheses match. -/
theorem evaluate_cause_typed :
    '%' ∈ ['(', '%', ')'] ∧ (∃ r ∈ runs ['5', '%', '.', '1', '.', '2'], 1 < r.count '.') ∧
      ¬Balanced ['(', '5', '%'] ∧ Balanced ['+', '(', '5', '0', '%', ')', '×', '2'] := by
  obtain ⟨hunknown, -⟩ := evaluate_cause ['(', '%', ')']
  obtain ⟨-, hpoints, -⟩ := evaluate_cause ['5', '%', '.', '1', '.', '2']
  obtain ⟨-, -, hgroups, -⟩ := evaluate_cause ['(', '5', '%']
  obtain ⟨-, -, -, hvalue⟩ := evaluate_cause ['+', '(', '5', '0', '%', ')', '×', '2']
  refine ⟨(hunknown '%' (by decide +kernel)).1, hpoints (by decide +kernel),
    hgroups (by decide +kernel), ?_⟩
  exact (hvalue 1 (by decide +kernel)).2.2.2

end Calculator
