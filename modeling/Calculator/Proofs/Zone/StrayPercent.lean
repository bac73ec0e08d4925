import Calculator.Proofs.Expression.Hundreds
import Calculator.Proofs.Expression.Percent
import Calculator.Proofs.Zone.First

/-!
# The zone of a stray percent sign

Where the scanner stops at a percent sign it has read what is written before it. A percent
sign that it has passed is one that was absorbed, so that each of them follows a literal as long
as each follows a digit or a point (`percents_of_stopsAtPercent`). Hence a percent sign that
follows neither is found, and the first such one stands behind a text whose percent signs are
all absorbed. It is absorbed in its turn behind a closing parenthesis, typed or written for
another percent sign, and nowhere else (`exists_locate_percent`).
-/

namespace Calculator

variable {a u s t r w : Text} {closed : Bool}

/-- The text ends with a digit or a point. -/
def EndsNumeric (t : Text) : Prop :=
  ∃ c ∈ t.getLast?, isNumeric c = true

/-- The scanner stops at a percent sign, in whatever state it comes to the text. -/
def StopsAtPercent (w : Text) : Prop :=
  ∃ due behind : Bool, Token.ofLexemes due (lexemes (dropUnaryPlus behind (w.map canonicalChar))) =
    .error (.unknownSymbol '%')

section Rule

/-- The rule looks for a percent sign that follows neither a digit nor a point. -/
theorem percents_of_skips {v : Text} (h : Zone.Skips strayPercentWidth a u v) :
    Percents EndsNumeric a u := by
  induction u generalizing a with
  | nil => trivial
  | cons c u ih =>
      obtain ⟨hzero, hrest⟩ := h
      refine ⟨?_, ih hrest⟩
      rintro rfl
      rw [strayPercentWidth] at hzero
      split at hzero
      · cases hzero
      · next hbefore =>
          cases hlast : a.getLast? with
          | none =>
              rw [hlast] at hbefore
              exact absurd ⟨rfl, rfl⟩ hbefore
          | some c =>
              refine ⟨c, hlast, ?_⟩
              simpa [hlast] using hbefore

/-- What the rule accepts is a percent sign that follows neither a digit nor a point. -/
theorem exists_cons_of_strayPercentWidth {previous : Option Char}
    (h : 0 < strayPercentWidth previous s) :
    strayPercentWidth previous s = 1 ∧ ∃ rest : Text, s = '%' :: rest ∧
      ∀ c ∈ previous, isNumeric c = false := by
  cases s with
  | nil => cases h
  | cons c rest =>
      rw [strayPercentWidth] at h ⊢
      split at h
      · next hstray =>
          obtain ⟨rfl, hprevious⟩ := hstray
          refine ⟨if_pos ⟨rfl, hprevious⟩, rest, rfl, fun d hd => ?_⟩
          simpa [Option.mem_def.1 hd] using hprevious
      · cases h

end Rule

namespace StopsAtPercent

theorem not_nil : ¬StopsAtPercent [] := by
  rintro ⟨due, behind, h⟩
  cases h

/-- The fault is not in a character other than a percent sign. -/
theorem of_symbol {c : Char} (hc : isNumeric c = false) (hpercent : c ≠ '%')
    (h : StopsAtPercent (c :: w)) : StopsAtPercent w := by
  obtain ⟨due, behind, h⟩ := h
  have hspelled := isNumeric_canonicalChar c
  rw [hc] at hspelled
  rw [List.map_cons, dropUnaryPlus] at h
  split at h
  · exact ⟨due, behind, h⟩
  · rw [lexemes_cons_symbol hspelled] at h
    rcases Token.ofLexemes_cons_eq_error_iff.1 h with ⟨-, hf⟩ | ⟨-, hfault | ⟨token, -, hrest⟩⟩
    · cases hf
    · rcases Token.fault_of_ofLexeme hfault with ⟨hf, -⟩ | ⟨d, hf, hd⟩ | hf
      · cases hf
      · cases hf
        have hsame := Lexeme.symbol.inj hd
        rcases canonicalChar_cases c with heq | heq | heq
        · exact absurd (heq.symm.trans hsame) hpercent
        · rw [heq] at hsame
          cases hsame
        · rw [heq] at hsame
          cases hsame
      · cases hf
    · exact ⟨_, _, hrest⟩

/-- Nor is it in a numeral, which reads as a number if the scanner comes so far. -/
theorem of_run (hr : (Lexeme.run r).WellFormed) (hw : ∀ c ∈ w.head?, isNumeric c = false)
    (h : StopsAtPercent (r ++ w)) : isLiteral r = true ∧ StopsAtPercent w := by
  obtain ⟨due, behind, h⟩ := h
  have hhead : ∀ c ∈ (dropUnaryPlus false (w.map canonicalChar)).head?, isNumeric c = false := by
    rw [head?_dropUnaryPlus_false, List.head?_map]
    intro c hc
    obtain ⟨d, hd, rfl⟩ := Option.map_eq_some_iff.1 hc
    rw [isNumeric_canonicalChar, hw d hd]
  rw [List.map_append, map_canonicalChar_numeric hr.2, dropUnaryPlus_numeric hr.1 hr.2,
    lexemes_append_of_head hhead, lexemes_of_numeric hr.1 hr.2, List.singleton_append] at h
  rcases Token.ofLexemes_cons_eq_error_iff.1 h with ⟨-, hf⟩ | ⟨-, hfault | ⟨token, htoken, hrest⟩⟩
  · cases hf
  · rcases Token.fault_of_ofLexeme hfault with ⟨hf, -⟩ | ⟨d, -, hd⟩ | hf
    · cases hf
    · cases hd
    · cases hf
  · obtain ⟨d, hd, rfl⟩ := Token.ofLexeme_run_eq_ok_iff.1 htoken
    rw [← Decimal.isOk_ofRun, hd]
    exact ⟨rfl, _, _, hrest⟩

/-- Nor is it in what is written for the percent sign of a numeral. -/
theorem of_percentage (hr : (Lexeme.run r).WellFormed)
    (h : StopsAtPercent ('(' :: (r ++ '/' :: (oneHundred ++ ')' :: w)))) : StopsAtPercent w := by
  have hnumeral := (h.of_symbol rfl (by decide)).of_run hr (by simp; rfl)
  have hdivisor := hnumeral.2.of_symbol rfl (by decide)
  have hclosing := hdivisor.of_run wellFormed_oneHundred (by simp; rfl)
  exact hclosing.2.of_symbol rfl (by decide)

end StopsAtPercent

section Pass

/-- Behind a character that is not numeric the pass goes on with what it has written there. -/
theorem exists_spellPercents_append {c : Char} (closed : Bool)
    (ha : ∀ d ∈ a.getLast?, isNumeric d = false) (hr : ∀ d ∈ r, isNumeric d = true)
    (hc : isNumeric c = false) (t : Text) :
    ∃ w : Text, (spellPercents closed (lexemes (r ++ c :: t))).flatMap Lexeme.text =
      w ++ (spellPercents (endsClosed (a ++ r ++ [c])) (lexemes t)).flatMap Lexeme.text := by
  by_cases hne : r = []
  · subst hne
    rw [List.nil_append, List.append_nil, lexemes_cons_symbol hc, spellPercents,
      endsClosed_append_symbol ha]
    split
    · next habsorbed =>
        rw [habsorbed.2]
        exact ⟨'/' :: oneHundred, rfl⟩
    · exact ⟨[c], rfl⟩
  · rw [lexemes_append_symbol hc, lexemes_of_numeric hne hr, List.singleton_append, spellPercents]
    split
    · next hpercentage =>
        rw [endsClosed_of_percent ha hr hpercentage]
        exact ⟨'(' :: r ++ '/' :: oneHundred ++ [')'], by simp [Lexeme.text]⟩
    · next hkept =>
        rw [endsClosed_of_not_percent ha hr hkept]
        exact ⟨r ++ [c], by simp [Lexeme.text]⟩

/-- A percent sign at the end stays there unless the text before it absorbs it. -/
theorem exists_spellPercents_concat (hclosed : closed = endsClosed a)
    (ha : ∀ d ∈ a.getLast?, isNumeric d = false) (t : Text) :
    ∃ (w : Text) (c : Char),
      (spellPercents closed (lexemes (t ++ ['%']))).flatMap Lexeme.text = w ++ [c] ∧
        (c = '%' ↔ absorbsPercent (a ++ t) = false) := by
  induction t using run_induction generalizing a closed with
  | hlast r hr =>
      by_cases hne : r = []
      · subst hne
        rw [List.append_nil, absorbsPercent_of_getLast? ha, ← hclosed]
        cases closed with
        | true => exact ⟨['/', '1', '0'], '0', rfl, by simp⟩
        | false => exact ⟨[], '%', rfl, by simp⟩
      · rw [lexemes_append_symbol (by decide), lexemes_of_numeric hne hr, List.singleton_append,
          lexemes_nil, spellPercents, absorbsPercent_append_numeral ha ⟨hne, hr⟩]
        cases isLiteral r with
        | true => exact ⟨'(' :: r ++ '/' :: oneHundred, ')', by simp [Lexeme.text, spellPercents]⟩
        | false => exact ⟨r, '%', by simp [Lexeme.text, spellPercents]⟩
  | hnext r c t hr hc ih =>
      rw [List.append_assoc, List.cons_append]
      obtain ⟨w, hw⟩ := exists_spellPercents_append closed ha hr hc (t ++ ['%'])
      obtain ⟨v, d, hv, hd⟩ := ih rfl (getLast?_append_symbol hc (a ++ r))
      refine ⟨w ++ v, d, ?_, ?_⟩
      · rw [hw, hv, List.append_assoc]
      · simpa using hd

theorem absorbPercent_eq (t : Text) :
    absorbPercent t = (spellPercents false (lexemes t)).flatMap Lexeme.text :=
  text_spellPercents false fun _ hl => Lexeme.wellFormed_of_mem_lexemes hl

/-- A percent sign at the end of a text is left in place exactly if the text before it does not
absorb it. -/
theorem getLast?_absorbPercent_percent (t : Text) :
    (absorbPercent (t ++ ['%'])).getLast? = some '%' ↔ absorbsPercent t = false := by
  have hclosed : false = endsClosed [] := rfl
  obtain ⟨w, c, hw, hc⟩ := exists_spellPercents_concat hclosed (by simp) t
  rw [absorbPercent_eq, hw, List.getLast?_concat, Option.some_inj]
  exact hc

end Pass

/-- The scanner stops at a percent sign that stays. -/
theorem stopsAtPercent_of_evaluate (h : evaluate t = .error (.unknownSymbol '%')) :
    StopsAtPercent ((spellPercents false (lexemes t)).flatMap Lexeme.text) := by
  rw [← absorbPercent_eq]
  rcases fault_of_evaluate h with hscan | ⟨ts, -, ⟨hf, -⟩ | hf | hf⟩
  · exact ⟨true, true, hscan⟩
  · cases hf
  · cases hf
  · cases hf

/-- The scanner reads on over a numeral and the character behind it. If that is a percent sign
behind a digit or a point, the numeral is a literal: otherwise the scanner would stop there. -/
theorem stopsAtPercent_behind {c : Char} (ha : ∀ d ∈ a.getLast?, isNumeric d = false)
    (hr : ∀ d ∈ r, isNumeric d = true) (hc : isNumeric c = false)
    (hpercent : c = '%' → EndsNumeric (a ++ r))
    (h : StopsAtPercent ((spellPercents closed (lexemes (r ++ c :: t))).flatMap Lexeme.text)) :
    (c = '%' → endsWithLiteral (a ++ r) = true) ∧
      ∃ next : Bool, StopsAtPercent ((spellPercents next (lexemes t)).flatMap Lexeme.text) := by
  by_cases hne : r = []
  · subst hne
    have hsymbol : c ≠ '%' := by
      rintro rfl
      obtain ⟨d, hd, hnumeric⟩ := hpercent rfl
      rw [List.append_nil] at hd
      rw [ha d hd] at hnumeric
      cases hnumeric
    rw [List.nil_append, lexemes_cons_symbol hc, spellPercents,
      if_neg fun hboth => hsymbol hboth.2] at h
    exact ⟨fun heq => absurd heq hsymbol, _, h.of_symbol hc hsymbol⟩
  · rw [lexemes_append_symbol hc, lexemes_of_numeric hne hr, List.singleton_append,
      spellPercents] at h
    split at h
    · next hpercentage =>
        simp only [List.flatMap_cons, Lexeme.text, List.singleton_append] at h
        refine ⟨fun _ => ?_, _, h.of_percentage ⟨hne, hr⟩⟩
        exact (endsWithLiteral_append_numeral ha hr).trans hpercentage.2
    · next hkept =>
        simp only [List.flatMap_cons, Lexeme.text, List.singleton_append] at h
        obtain ⟨hliteral, hnext⟩ := h.of_run ⟨hne, hr⟩ (by simpa using hc)
        have hsymbol : c ≠ '%' := fun heq => hkept ⟨heq, hliteral⟩
        exact ⟨fun heq => absurd heq hsymbol, _, hnext.of_symbol hc hsymbol⟩

/-- Where the scanner stops at a percent sign, and each percent sign of a text in front follows a
digit or a point, each of them follows a literal, and there is more behind that text. -/
theorem percents_of_stopsAtPercent (ha : ∀ c ∈ a.getLast?, isNumeric c = false)
    (hu : Percents EndsNumeric a u)
    (h : StopsAtPercent ((spellPercents closed (lexemes (u ++ s))).flatMap Lexeme.text)) :
    Percents (fun v => endsWithLiteral v = true) a u ∧ s ≠ [] := by
  induction u using run_induction generalizing a closed with
  | hlast r hr =>
      refine ⟨percents_of_numeric hr, ?_⟩
      rintro rfl
      rw [List.append_nil] at h
      by_cases hne : r = []
      · subst hne
        exact StopsAtPercent.not_nil h
      · rw [lexemes_of_numeric hne hr] at h
        have hrun : StopsAtPercent (r ++ []) := h
        exact StopsAtPercent.not_nil (hrun.of_run ⟨hne, hr⟩ (by simp)).2
  | hnext r c t hr hc ih =>
      obtain ⟨-, hpercent, hrest⟩ := percents_append.1 hu
      rw [List.append_assoc, List.cons_append] at h
      obtain ⟨hliteral, next, hstops⟩ := stopsAtPercent_behind ha hr hc hpercent h
      obtain ⟨hbehind, hmore⟩ := ih (getLast?_append_symbol hc _) hrest hstops
      exact ⟨percents_append.2 ⟨percents_of_numeric hr, hliteral, hbehind⟩, hmore⟩

/-- Where the fault is a percent sign one of them follows neither a digit nor a point. -/
theorem exists_percent_of_evaluate (h : evaluate t = .error (.unknownSymbol '%')) :
    ∃ u v : Text, t = u ++ '%' :: v ∧ ∀ c ∈ u.getLast?, isNumeric c = false := by
  by_contra hnone
  have hstops := stopsAtPercent_of_evaluate h
  have hpercents : Percents EndsNumeric [] t := by
    refine percents_of_forall fun u v huv => ?_
    by_contra hends
    refine hnone ⟨u, v, huv, fun c hc => ?_⟩
    exact Bool.eq_false_iff.2 fun hnumeric => hends ⟨c, hc, hnumeric⟩
  rw [← List.append_nil t] at hstops
  exact absurd rfl (percents_of_stopsAtPercent (by simp) hpercents hstops).2

/-- Where each percent sign of a text follows a literal, a percent sign behind it that follows
neither a digit nor a point is absorbed behind another one or behind a group only. -/
theorem absorbsPercent_eq_false_iff (hlast : ∀ c ∈ t.getLast?, isNumeric c = false)
    (h : Percents (fun v => endsWithLiteral v = true) [] t) :
    absorbsPercent t = false ↔ t.getLast? ≠ some ')' ∧ t.getLast? ≠ some '%' := by
  rw [absorbsPercent_of_getLast? hlast]
  rcases List.eq_nil_or_concat' t with rfl | ⟨u, c, rfl⟩
  · exact iff_of_true rfl ⟨by simp, by simp⟩
  · rw [endsClosed_append_singleton, List.getLast?_concat, Ne, Ne, Option.some_inj, Option.some_inj]
    by_cases hc : c = '%'
    · subst hc
      have hliteral : endsWithLiteral u = true := h.of_append
      rw [hliteral]
      simp
    · simp [hc]

/-- Where the fault is a percent sign one is marked. It is the first one that follows neither a
digit nor a point, and it stays in the text that is scanned unless it follows a closing
parenthesis or another percent sign. -/
theorem exists_locate_percent (h : evaluate t = .error (.unknownSymbol '%')) :
    ∃ z : Zone, locate t (.unknownSymbol '%') = some z ∧ z.marked = ['%'] ∧
      ((absorbPercent (z.before ++ ['%'])).getLast? = some '%' ↔
        z.before.getLast? ≠ some ')' ∧ z.before.getLast? ≠ some '%') := by
  have hstops := stopsAtPercent_of_evaluate h
  have hlocate : locate t (.unknownSymbol '%') = Zone.first? strayPercentWidth none t := by
    rw [locate, if_pos rfl]
  rw [hlocate]
  cases hz : Zone.first? strayPercentWidth none t with
  | none =>
      have hskips := Zone.skips_of_first?_eq_none (a := []) hz
      rw [← List.append_nil t] at hstops
      have hmore := percents_of_stopsAtPercent (by simp) (percents_of_skips hskips) hstops
      exact absurd rfl hmore.2
  | some z =>
      obtain ⟨hskips, haccepts, hmarked⟩ := Zone.isFirst_of_first? (a := []) hz
      obtain ⟨hwidth, rest, hcons, hlast⟩ := exists_cons_of_strayPercentWidth haccepts
      rw [hwidth, hcons] at hmarked
      have htext : z.before ++ '%' :: rest = t := by
        rw [← hcons, ← List.append_assoc]
        exact Zone.text_of_first? hz
      rw [← htext] at hstops
      have hliteral := percents_of_stopsAtPercent (by simp) (percents_of_skips hskips) hstops
      refine ⟨z, rfl, hmarked, (getLast?_absorbPercent_percent _).trans ?_⟩
      exact absorbsPercent_eq_false_iff hlast hliteral.1

/-- In `5%+10÷%2` the second percent sign is the first one without an operand. -/
theorem exists_locate_percent_behind_division :
    evaluate ['5', '%', '+', '1', '0', '÷', '%', '2'] = .error (.unknownSymbol '%') ∧
      ∃ z : Zone, locate ['5', '%', '+', '1', '0', '÷', '%', '2'] (.unknownSymbol '%') = some z ∧
        z.marked = ['%'] ∧ (absorbPercent (z.before ++ ['%'])).getLast? = some '%' := by
  have hfault :
      evaluate ['5', '%', '+', '1', '0', '÷', '%', '2'] = .error (.unknownSymbol '%') := by
    decide +kernel
  have hzone : locate ['5', '%', '+', '1', '0', '÷', '%', '2'] (.unknownSymbol '%') =
      some ⟨['5', '%', '+', '1', '0', '÷'], ['%'], ['2']⟩ := rfl
  obtain ⟨z, hz, hmarked, hstays⟩ := exists_locate_percent hfault
  rw [hzone] at hz
  obtain rfl := Option.some_inj.1 hz
  exact ⟨hfault, _, hzone, hmarked, hstays.2 ⟨by simp, by simp⟩⟩

/-- In `(2)%%` the percent sign of the group is marked, and the other one stays. -/
theorem not_forall_locate_percent :
    ¬∀ (t : Text) (z : Zone), evaluate t = .error (.unknownSymbol '%') →
      locate t (.unknownSymbol '%') = some z →
        (absorbPercent (z.before ++ ['%'])).getLast? = some '%' := by
  intro hall
  have hfault : evaluate ['(', '2', ')', '%', '%'] = .error (.unknownSymbol '%') := by
    decide +kernel
  have hstays := hall _ ⟨['(', '2', ')'], ['%'], ['%']⟩ hfault rfl
  revert hstays
  decide +kernel

end Calculator
