import Calculator.Proofs.Expression.Passes

/-!
# The hundreds of percent signs

A percent sign that is absorbed adds the numeral one hundred to those of the text. Both passes
over the text are one pass over its lexemes (`text_spellPercents`), which carries along whether
what it has written ends with a closing parenthesis. What is written there has the numerals of
the text and the hundreds as its runs, unless a hundred is written directly before a numeral
(`runs_absorbPercent_iff`): behind a group nothing closes the quotient.
-/

namespace Calculator

/-- One hundred as a numeral. -/
def oneHundred : Text := ['1', '0', '0']

/-- The lexemes with each percent sign that follows an operand written as a division. `closed`
says that what is written before them ends with a closing parenthesis. -/
def spellPercents : Bool → List Lexeme → List Lexeme
  | _, [] => []
  | _, .run r :: .symbol c :: ls =>
      if c = '%' ∧ isLiteral r then
        .symbol '(' :: .run r :: .symbol '/' :: .run oneHundred :: .symbol ')' ::
          spellPercents true ls
      else .run r :: .symbol c :: spellPercents (c == ')') ls
  | _, .run r :: ls => .run r :: spellPercents false ls
  | closed, .symbol c :: ls =>
      if closed ∧ c = '%' then .symbol '/' :: .run oneHundred :: spellPercents false ls
      else .symbol c :: spellPercents (c == ')') ls

/-- The text ends with a numeral that reads as a number. -/
def endsWithLiteral (t : Text) : Bool :=
  isLiteral (Text.takeEndWhile isNumeric t)

/-- What is written for the text ends with a closing parenthesis: its own, or that of a
percentage of a numeral. -/
def endsClosed (t : Text) : Bool :=
  t.getLast? = some ')' || (t.getLast? = some '%' && endsWithLiteral t.dropLast)

/-- A percent sign behind the text is absorbed. -/
def absorbsPercent (t : Text) : Bool :=
  endsWithLiteral t || endsClosed t

/-- The runs of the lexemes behind the text `u`, with one hundred in the place of each percent
sign that is absorbed. -/
def runsWithHundreds (u : Text) : List Lexeme → List Text
  | [] => []
  | .run r :: ls => r :: runsWithHundreds (u ++ r) ls
  | .symbol c :: ls =>
      if c = '%' ∧ absorbsPercent u then oneHundred :: runsWithHundreds (u ++ [c]) ls
      else runsWithHundreds (u ++ [c]) ls

/-- The text starts with a numeral that is written as it is. -/
def startsBare (t : Text) : Bool :=
  t.takeWhile isNumeric ≠ [] &&
    !(isLiteral (t.takeWhile isNumeric) && (t.dropWhile isNumeric).head? = some '%')

/-- Behind the text `u` no percent sign of the text that is absorbed behind a closing parenthesis
has such a numeral directly behind it. -/
def HundredsApart (u t : Text) : Prop :=
  ∀ v w : Text, t = v ++ '%' :: w → endsClosed (u ++ v) = true → startsBare w = false

section Spelling

variable {ls : List Lexeme}

theorem wellFormed_oneHundred : (Lexeme.run oneHundred).WellFormed :=
  ⟨List.cons_ne_nil _ _, List.all_eq_true.1 rfl⟩

theorem percent_notMem_run {r : Text} (h : (Lexeme.run r).WellFormed) : '%' ∉ r := fun hmem =>
  absurd (h.2 _ hmem) (by decide)

theorem wellFormed_of_mem_spellPercents (closed : Bool) (h : ∀ l ∈ ls, l.WellFormed) :
    ∀ l ∈ spellPercents closed ls, l.WellFormed := by
  have hclosing : (Lexeme.symbol ')').WellFormed := rfl
  have hopening : (Lexeme.symbol '(').WellFormed := rfl
  have hdivision : (Lexeme.symbol '/').WellFormed := rfl
  induction closed, ls using spellPercents.induct with
  | case1 => exact h
  | case2 closed r c ls hc ih =>
      obtain ⟨hr, -, hls⟩ := by simpa only [List.forall_mem_cons] using h
      rw [spellPercents, if_pos hc]
      simp only [List.forall_mem_cons]
      exact ⟨hopening, hr, hdivision, wellFormed_oneHundred, hclosing, ih hls⟩
  | case3 closed r c ls hc ih =>
      obtain ⟨hr, hsymbol, hls⟩ := by simpa only [List.forall_mem_cons] using h
      rw [spellPercents, if_neg hc]
      simp only [List.forall_mem_cons]
      exact ⟨hr, hsymbol, ih hls⟩
  | case4 closed r ls hne ih =>
      obtain ⟨hr, hls⟩ := List.forall_mem_cons.1 h
      rw [spellPercents]
      · exact List.forall_mem_cons.2 ⟨hr, ih hls⟩
      · exact hne
  | case5 closed c ls hc ih =>
      obtain ⟨-, hls⟩ := List.forall_mem_cons.1 h
      rw [spellPercents, if_pos hc]
      simp only [List.forall_mem_cons]
      exact ⟨hdivision, wellFormed_oneHundred, ih hls⟩
  | case6 closed c ls hc ih =>
      obtain ⟨hsymbol, hls⟩ := List.forall_mem_cons.1 h
      rw [spellPercents, if_neg hc]
      exact List.forall_mem_cons.2 ⟨hsymbol, ih hls⟩

/-- The closing parenthesis that is written before the lexemes, if there is one. -/
def closingBefore (closed : Bool) : Text :=
  if closed then [')'] else []

theorem absorbGroupPercent_closingBefore {closed : Bool} {t : Text}
    (h : closed = true → t.head? ≠ some '%') :
    absorbGroupPercent (closingBefore closed ++ t) =
      closingBefore closed ++ absorbGroupPercent t := by
  cases closed with
  | false => rfl
  | true => exact absorbGroupPercent_cons_of_head (h rfl) ')'

/-- What the second pass does behind a character shows in what it does behind the closing
parenthesis, if the character is one. -/
theorem absorbGroupPercent_cons_of_closingBefore {c : Char} {t s : Text}
    (h : absorbGroupPercent (closingBefore (c == ')') ++ t) = closingBefore (c == ')') ++ s) :
    absorbGroupPercent (c :: t) = c :: s := by
  by_cases hc : c = ')'
  · subst hc
    exact h
  · rw [beq_false_of_ne hc] at h
    rw [absorbGroupPercent_cons_of_ne hc]
    exact congrArg (c :: ·) h

theorem head?_run_append_ne {r : Text} (h : (Lexeme.run r).WellFormed) (t : Text) :
    (r ++ t).head? ≠ some '%' := by
  obtain ⟨d, r, rfl⟩ := List.exists_cons_of_ne_nil h.1
  rintro ⟨⟩
  exact percent_notMem_run h (List.mem_cons_self ..)

/-- The pass over the lexemes writes what the two passes over the text write. -/
theorem text_spellPercents (closed : Bool) (h : ∀ l ∈ ls, l.WellFormed) :
    absorbGroupPercent (closingBefore closed ++ absorbLiteralPercent ls) =
      closingBefore closed ++ (spellPercents closed ls).flatMap Lexeme.text := by
  induction closed, ls using spellPercents.induct with
  | case1 closed => cases closed <;> rfl
  | case2 closed r c ls hc ih =>
      obtain ⟨hr, -, hls⟩ := by simpa only [List.forall_mem_cons] using h
      have hrest : absorbGroupPercent (')' :: absorbLiteralPercent ls) =
          ')' :: (spellPercents true ls).flatMap Lexeme.text := ih hls
      rw [absorbLiteralPercent, if_pos hc, spellPercents, if_pos hc,
        absorbGroupPercent_closingBefore (by simp)]
      simp [absorbGroupPercent_cons_of_ne, absorbGroupPercent_numeric hr.2, hrest, Lexeme.text,
        oneHundred]
  | case3 closed r c ls hc ih =>
      obtain ⟨hr, -, hls⟩ := by simpa only [List.forall_mem_cons] using h
      rw [absorbLiteralPercent, if_neg hc, spellPercents, if_neg hc,
        absorbGroupPercent_closingBefore fun _ => head?_run_append_ne hr _,
        absorbGroupPercent_numeric hr.2, absorbGroupPercent_cons_of_closingBefore (ih hls)]
      rfl
  | case4 closed r ls hne ih =>
      obtain ⟨hr, hls⟩ := List.forall_mem_cons.1 h
      have hrest : absorbGroupPercent (absorbLiteralPercent ls) =
          (spellPercents false ls).flatMap Lexeme.text := ih hls
      rw [absorbLiteralPercent, spellPercents, Lexeme.text,
        absorbGroupPercent_closingBefore fun _ => head?_run_append_ne hr _,
        absorbGroupPercent_numeric hr.2, hrest]
      · rfl
      · exact hne
      · rintro _ c rest - rfl
        exact hne c rest rfl
  | case5 closed c ls hc ih =>
      obtain ⟨-, hls⟩ := List.forall_mem_cons.1 h
      obtain ⟨rfl, rfl⟩ := hc
      rw [absorbLiteralPercent_symbol, spellPercents, if_pos ⟨rfl, rfl⟩]
      exact congrArg ([')', '/', '1', '0', '0'] ++ ·) (ih hls)
  | case6 closed c ls hc ih =>
      obtain ⟨-, hls⟩ := List.forall_mem_cons.1 h
      have hhead : closed = true → (c :: absorbLiteralPercent ls).head? ≠ some '%' := by
        rintro hclosed ⟨⟩
        exact hc ⟨hclosed, rfl⟩
      rw [absorbLiteralPercent_symbol, spellPercents, if_neg hc,
        absorbGroupPercent_closingBefore hhead, absorbGroupPercent_cons_of_closingBefore (ih hls)]
      rfl

/-- Each percent sign that is absorbed becomes a run. -/
theorem count_spellPercents (closed : Bool) (h : ∀ l ∈ ls, l.WellFormed) :
    ((spellPercents closed ls).filterMap Lexeme.run?).length +
        ((spellPercents closed ls).flatMap Lexeme.text).count '%' =
      (ls.filterMap Lexeme.run?).length + (ls.flatMap Lexeme.text).count '%' := by
  induction closed, ls using spellPercents.induct with
  | case1 => rfl
  | case2 closed r c ls hc ih =>
      obtain ⟨hr, -, hls⟩ := by simpa only [List.forall_mem_cons] using h
      have hnone := List.count_eq_zero.2 (percent_notMem_run hr)
      rw [spellPercents, if_pos hc]
      have hrest := ih hls
      simp [Lexeme.text, oneHundred, hnone, hc.1] at hrest ⊢
      omega
  | case3 closed r c ls hc ih =>
      obtain ⟨hr, -, hls⟩ := by simpa only [List.forall_mem_cons] using h
      rw [spellPercents, if_neg hc]
      have hrest := ih hls
      simp [Lexeme.text, List.count_cons] at hrest ⊢
      omega
  | case4 closed r ls hne ih =>
      obtain ⟨hr, hls⟩ := List.forall_mem_cons.1 h
      rw [spellPercents]
      · have hrest := ih hls
        simp [Lexeme.text] at hrest ⊢
        omega
      · exact hne
  | case5 closed c ls hc ih =>
      obtain ⟨-, hls⟩ := List.forall_mem_cons.1 h
      rw [spellPercents, if_pos hc]
      have hrest := ih hls
      simp [Lexeme.text, oneHundred, hc.2] at hrest ⊢
      omega
  | case6 closed c ls hc ih =>
      obtain ⟨-, hls⟩ := List.forall_mem_cons.1 h
      rw [spellPercents, if_neg hc]
      have hrest := ih hls
      simp [Lexeme.text, List.count_cons] at hrest ⊢
      omega

end Spelling

section Ends

variable {u r : Text} {c : Char}

theorem takeEndWhile_append_numeral (hu : ∀ c ∈ u.getLast?, isNumeric c = false)
    (hr : ∀ c ∈ r, isNumeric c = true) : Text.takeEndWhile isNumeric (u ++ r) = r := by
  induction r using List.reverseRecOn with
  | nil =>
      rw [List.append_nil]
      rcases List.eq_nil_or_concat' u with rfl | ⟨u, c, rfl⟩
      · rfl
      · rw [Text.takeEndWhile_append_singleton, hu c (by simp)]
        rfl
  | append_singleton r c ih =>
      obtain ⟨hr, hc⟩ := List.forall_mem_append.1 hr
      rw [← List.append_assoc, Text.takeEndWhile_append_singleton,
        if_pos (hc c (List.mem_singleton_self c)), ih hr]

theorem endsWithLiteral_append_numeral (hu : ∀ c ∈ u.getLast?, isNumeric c = false)
    (hr : ∀ c ∈ r, isNumeric c = true) : endsWithLiteral (u ++ r) = isLiteral r := by
  rw [endsWithLiteral, takeEndWhile_append_numeral hu hr]

theorem endsWithLiteral_of_getLast? (hu : ∀ c ∈ u.getLast?, isNumeric c = false) :
    endsWithLiteral u = false := by
  have hnone := endsWithLiteral_append_numeral hu (List.forall_mem_nil _)
  rwa [List.append_nil] at hnone

theorem endsClosed_append_singleton (u : Text) (c : Char) :
    endsClosed (u ++ [c]) = (c == ')' || (c == '%' && endsWithLiteral u)) := by
  simp [endsClosed, Bool.beq_eq_decide_eq]

theorem endsClosed_append_numeral (hr : (Lexeme.run r).WellFormed) (u : Text) :
    endsClosed (u ++ r) = false := by
  rcases List.eq_nil_or_concat' r with rfl | ⟨r, c, rfl⟩
  · exact absurd rfl hr.1
  · have hc : isNumeric c = true := hr.2 c (by simp)
    have hclosing : c ≠ ')' := by rintro rfl; cases hc
    have hpercent : c ≠ '%' := by rintro rfl; cases hc
    rw [← List.append_assoc, endsClosed_append_singleton, beq_false_of_ne hclosing,
      beq_false_of_ne hpercent]
    rfl

/-- The flag that the pass carries along behind the percent sign of a literal. -/
theorem endsClosed_of_percent (hu : ∀ c ∈ u.getLast?, isNumeric c = false)
    (hr : ∀ c ∈ r, isNumeric c = true) (h : c = '%' ∧ isLiteral r = true) :
    endsClosed (u ++ r ++ [c]) = true := by
  rw [endsClosed_append_singleton, endsWithLiteral_append_numeral hu hr, h.1, h.2]
  rfl

/-- The flag that the pass carries along behind any other character. -/
theorem endsClosed_of_not_percent (hu : ∀ c ∈ u.getLast?, isNumeric c = false)
    (hr : ∀ c ∈ r, isNumeric c = true) (h : ¬(c = '%' ∧ isLiteral r = true)) :
    endsClosed (u ++ r ++ [c]) = (c == ')') := by
  have hnone : (c == '%' && isLiteral r) = false := by
    rw [← Bool.not_eq_true, Bool.and_eq_true, beq_iff_eq]
    exact h
  rw [endsClosed_append_singleton, endsWithLiteral_append_numeral hu hr, hnone, Bool.or_false]

theorem endsClosed_append_symbol (hu : ∀ c ∈ u.getLast?, isNumeric c = false) (c : Char) :
    endsClosed (u ++ [c]) = (c == ')') := by
  rw [endsClosed_append_singleton, endsWithLiteral_of_getLast? hu, Bool.and_false, Bool.or_false]

theorem absorbsPercent_append_numeral (hu : ∀ c ∈ u.getLast?, isNumeric c = false)
    (hr : (Lexeme.run r).WellFormed) : absorbsPercent (u ++ r) = isLiteral r := by
  rw [absorbsPercent, endsWithLiteral_append_numeral hu hr.2, endsClosed_append_numeral hr,
    Bool.or_false]

theorem absorbsPercent_of_getLast? (hu : ∀ c ∈ u.getLast?, isNumeric c = false) :
    absorbsPercent u = endsClosed u := by
  rw [absorbsPercent, endsWithLiteral_of_getLast? hu, Bool.false_or]

end Ends

section Runs

variable {u : Text} {closed : Bool} {ls : List Lexeme}

theorem getLast?_append_symbol {c : Char} (hc : isNumeric c = false) (u : Text) :
    ∀ d ∈ (u ++ [c]).getLast?, isNumeric d = false := by
  simpa using hc

/-- The runs that the pass over the lexemes writes. -/
theorem filterMap_run?_spellPercents (hclosed : closed = endsClosed u)
    (hu : ∀ c ∈ u.getLast?, isNumeric c = false) (h : ∀ l ∈ ls, l.WellFormed)
    (hsep : Lexeme.Separated ls) :
    (spellPercents closed ls).filterMap Lexeme.run? = runsWithHundreds u ls := by
  induction closed, ls using spellPercents.induct generalizing u with
  | case1 => rfl
  | case2 closed r c ls hc ih =>
      obtain ⟨hr, hsymbol, hls⟩ := by simpa only [List.forall_mem_cons] using h
      have hnext := (endsClosed_of_percent hu hr.2 hc).symm
      rw [spellPercents, if_pos hc, runsWithHundreds, runsWithHundreds,
        absorbsPercent_append_numeral hu hr, if_pos hc]
      simp only [Lexeme.filterMap_run?_symbol, Lexeme.filterMap_run?_run]
      rw [ih hnext (getLast?_append_symbol hsymbol _) hls hsep]
  | case3 closed r c ls hc ih =>
      obtain ⟨hr, hsymbol, hls⟩ := by simpa only [List.forall_mem_cons] using h
      have hnext := (endsClosed_of_not_percent hu hr.2 hc).symm
      rw [spellPercents, if_neg hc, runsWithHundreds, runsWithHundreds,
        absorbsPercent_append_numeral hu hr, if_neg hc]
      simp only [Lexeme.filterMap_run?_symbol, Lexeme.filterMap_run?_run]
      rw [ih hnext (getLast?_append_symbol hsymbol _) hls hsep]
  | case4 closed r ls hne ih =>
      cases ls with
      | nil => rfl
      | cons l ls =>
          cases l with
          | run q => exact absurd hsep id
          | symbol c => exact absurd rfl (hne c ls)
  | case5 closed c ls hc ih =>
      obtain ⟨hsymbol, hls⟩ := List.forall_mem_cons.1 h
      have hnext : false = endsClosed (u ++ [c]) := by
        rw [endsClosed_append_symbol hu, hc.2]
        rfl
      have habsorbs : absorbsPercent u = true := by
        rw [absorbsPercent_of_getLast? hu, ← hclosed, hc.1]
      rw [spellPercents, if_pos hc, runsWithHundreds, if_pos ⟨hc.2, habsorbs⟩]
      simp only [Lexeme.filterMap_run?_symbol, Lexeme.filterMap_run?_run]
      rw [ih hnext (getLast?_append_symbol hsymbol _) hls hsep]
  | case6 closed c ls hc ih =>
      obtain ⟨hsymbol, hls⟩ := List.forall_mem_cons.1 h
      have hnext := (endsClosed_append_symbol hu c).symm
      have habsorbs : ¬(c = '%' ∧ absorbsPercent u = true) := by
        rw [absorbsPercent_of_getLast? hu, ← hclosed]
        exact fun hboth => hc hboth.symm
      rw [spellPercents, if_neg hc, runsWithHundreds, if_neg habsorbs,
        Lexeme.filterMap_run?_symbol]
      exact ih hnext (getLast?_append_symbol hsymbol _) hls hsep

theorem hundredsApart_nil (u : Text) : HundredsApart u [] := by
  intro v w heq
  exact absurd heq (by simp)

theorem hundredsApart_cons {c : Char} {t : Text} :
    HundredsApart u (c :: t) ↔
      (c = '%' → endsClosed u = true → startsBare t = false) ∧ HundredsApart (u ++ [c]) t := by
  constructor
  · intro h
    refine ⟨?_, fun v w heq hv => h (c :: v) w (by rw [heq, List.cons_append]) ?_⟩
    · rintro rfl hu
      exact h [] t rfl (by rwa [List.append_nil])
    · rwa [List.append_cons]
  · rintro ⟨hhead, hrest⟩ v w heq hv
    cases v with
    | nil =>
        obtain ⟨rfl, rfl⟩ := List.cons.inj heq
        rw [List.append_nil] at hv
        exact hhead rfl hv
    | cons d v =>
        obtain ⟨rfl, rfl⟩ := List.cons.inj heq
        exact hrest v w rfl (by rwa [← List.append_cons])

theorem hundredsApart_numeral_append {r : Text} (hr : ∀ c ∈ r, isNumeric c = true) (u t : Text) :
    HundredsApart u (r ++ t) ↔ HundredsApart (u ++ r) t := by
  induction r generalizing u with
  | nil => rw [List.nil_append, List.append_nil]
  | cons c r ih =>
      obtain ⟨hc, hr⟩ := List.forall_mem_cons.1 hr
      have hpercent : c ≠ '%' := by
        rintro rfl
        cases hc
      rw [List.cons_append, hundredsApart_cons, ih hr, ← List.append_cons]
      exact and_iff_right fun heq => absurd heq hpercent

theorem startsBare_numeral_append {r t : Text} (hr : (Lexeme.run r).WellFormed)
    (ht : ∀ c ∈ t.head?, isNumeric c = false) :
    startsBare (r ++ t) = !(isLiteral r && t.head? = some '%') := by
  have htake : t.takeWhile isNumeric = [] := by
    cases t with
    | nil => rfl
    | cons c t => rw [List.takeWhile_cons, ht c rfl]; rfl
  have hdrop : t.dropWhile isNumeric = t := by
    have hcut := List.takeWhile_append_dropWhile (p := isNumeric) (l := t)
    rwa [htake] at hcut
  rw [startsBare, List.takeWhile_append_of_pos hr.2, List.dropWhile_append_of_pos hr.2, htake,
    hdrop, List.append_nil]
  simp [hr.1]

/-- A numeral is written as it is if the pass over the lexemes writes it first. -/
theorem startsBare_flatMap_text (h : ∀ l ∈ ls, l.WellFormed) (hsep : Lexeme.Separated ls) :
    startsBare (ls.flatMap Lexeme.text) = true ↔
      ∃ r : Text, (spellPercents false ls).head? = some (.run r) := by
  cases ls with
  | nil => exact iff_of_false Bool.false_ne_true (by simp [spellPercents])
  | cons l ls =>
      obtain ⟨hl, hls⟩ := List.forall_mem_cons.1 h
      cases l with
      | symbol c =>
          have htake : ((Lexeme.symbol c :: ls).flatMap Lexeme.text).takeWhile isNumeric = [] :=
            List.takeWhile_cons_of_neg (Bool.eq_false_iff.1 hl)
          rw [startsBare, htake, spellPercents, if_neg (by simp)]
          exact iff_of_false Bool.false_ne_true (by simp)
      | run r =>
          cases ls with
          | nil =>
              rw [List.flatMap_cons, Lexeme.text, startsBare_numeral_append hl (by simp)]
              exact iff_of_true (by simp) ⟨r, rfl⟩
          | cons l ls =>
              cases l with
              | run q => exact absurd hsep id
              | symbol c =>
                  have hhead : ∀ d ∈ ((Lexeme.symbol c :: ls).flatMap Lexeme.text).head?,
                      isNumeric d = false := by
                    rintro d ⟨⟩
                    exact hls _ (List.mem_cons_self ..)
                  rw [List.flatMap_cons, Lexeme.text, startsBare_numeral_append hl hhead,
                    spellPercents]
                  by_cases hc : c = '%' ∧ isLiteral r = true
                  · rw [if_pos hc, hc.1, hc.2]
                    exact iff_of_false Bool.false_ne_true (by simp)
                  · rw [if_neg hc]
                    refine iff_of_true ?_ ⟨r, rfl⟩
                    rw [Bool.not_eq_true', ← Bool.not_eq_true, Bool.and_eq_true, decide_eq_true_eq]
                    rintro ⟨hliteral, hpercent⟩
                    exact hc ⟨Option.some.inj hpercent, hliteral⟩

theorem separated_run_cons {q : Text} :
    Lexeme.Separated (.run q :: ls) ↔
      (¬∃ r : Text, ls.head? = some (.run r)) ∧ Lexeme.Separated ls := by
  cases ls with
  | nil => simp [Lexeme.Separated]
  | cons l ls => cases l <;> simp [Lexeme.Separated]

/-- The pass over the lexemes writes no two runs side by side exactly if no hundred stands
before a numeral. -/
theorem separated_spellPercents_iff (hclosed : closed = endsClosed u)
    (hu : ∀ c ∈ u.getLast?, isNumeric c = false) (h : ∀ l ∈ ls, l.WellFormed)
    (hsep : Lexeme.Separated ls) :
    Lexeme.Separated (spellPercents closed ls) ↔ HundredsApart u (ls.flatMap Lexeme.text) := by
  induction closed, ls using spellPercents.induct generalizing u with
  | case1 => exact iff_of_true trivial (hundredsApart_nil u)
  | case2 closed r c ls hc ih =>
      obtain ⟨hr, hsymbol, hls⟩ := by simpa only [List.forall_mem_cons] using h
      have hnext := (endsClosed_of_percent hu hr.2 hc).symm
      rw [spellPercents, if_pos hc, List.flatMap_cons, List.flatMap_cons, Lexeme.text, Lexeme.text,
        List.singleton_append, hundredsApart_numeral_append hr.2, hundredsApart_cons,
        ← ih hnext (getLast?_append_symbol hsymbol _) hls hsep, endsClosed_append_numeral hr]
      exact (and_iff_right fun _ hclosing => absurd hclosing Bool.false_ne_true).symm
  | case3 closed r c ls hc ih =>
      obtain ⟨hr, hsymbol, hls⟩ := by simpa only [List.forall_mem_cons] using h
      have hnext := (endsClosed_of_not_percent hu hr.2 hc).symm
      rw [spellPercents, if_neg hc, List.flatMap_cons, List.flatMap_cons, Lexeme.text, Lexeme.text,
        List.singleton_append, hundredsApart_numeral_append hr.2, hundredsApart_cons,
        ← ih hnext (getLast?_append_symbol hsymbol _) hls hsep, endsClosed_append_numeral hr]
      exact (and_iff_right fun _ hclosing => absurd hclosing Bool.false_ne_true).symm
  | case4 closed r ls hne ih =>
      cases ls with
      | nil =>
          have hr := (h _ (List.mem_singleton_self _)).2
          refine iff_of_true trivial ?_
          exact (hundredsApart_numeral_append hr u []).2 (hundredsApart_nil _)
      | cons l ls =>
          cases l with
          | run q => exact absurd hsep id
          | symbol c => exact absurd rfl (hne c ls)
  | case5 closed c ls hc ih =>
      obtain ⟨hsymbol, hls⟩ := List.forall_mem_cons.1 h
      have hnext : false = endsClosed (u ++ [c]) := by
        rw [endsClosed_append_symbol hu, hc.2]
        rfl
      obtain ⟨rfl, rfl⟩ := hc
      rw [spellPercents, if_pos ⟨rfl, rfl⟩, List.flatMap_cons, Lexeme.text, List.singleton_append,
        hundredsApart_cons, ← ih hnext (getLast?_append_symbol hsymbol _) hls hsep, ← hclosed,
        ← Bool.not_eq_true, startsBare_flatMap_text hls hsep]
      change Lexeme.Separated (.run oneHundred :: spellPercents false ls) ↔ _
      rw [separated_run_cons]
      simp
  | case6 closed c ls hc ih =>
      obtain ⟨hsymbol, hls⟩ := List.forall_mem_cons.1 h
      have hnext := (endsClosed_append_symbol hu c).symm
      rw [spellPercents, if_neg hc, List.flatMap_cons, Lexeme.text, List.singleton_append,
        hundredsApart_cons, ← ih hnext (getLast?_append_symbol hsymbol _) hls hsep, ← hclosed]
      exact (and_iff_right fun hpercent htrue => absurd ⟨htrue, hpercent⟩ hc).symm

end Runs

/-- What is written for the percent signs of a text adds one hundred to its runs for each of
them that is absorbed, and these are the runs of what is written exactly if no hundred is
written directly before a numeral. -/
theorem runs_absorbPercent_iff (t : Text) :
    (runsWithHundreds [] (lexemes t)).length + (absorbPercent t).count '%' =
        (runs t).length + t.count '%' ∧
      (runs (absorbPercent t) = runsWithHundreds [] (lexemes t) ↔ HundredsApart [] t) := by
  have hwell : ∀ l ∈ lexemes t, l.WellFormed := fun l hl => Lexeme.wellFormed_of_mem_lexemes hl
  have hsep := lexemes_separated t
  have htext : absorbPercent t = (spellPercents false (lexemes t)).flatMap Lexeme.text :=
    text_spellPercents false hwell
  have hruns : (spellPercents false (lexemes t)).filterMap Lexeme.run? =
      runsWithHundreds [] (lexemes t) :=
    filterMap_run?_spellPercents rfl (by simp) hwell hsep
  have hspelled := Lexeme.runs_flatMap_text (wellFormed_of_mem_spellPercents false hwell)
  have hapart := separated_spellPercents_iff rfl (by simp) hwell hsep (u := [])
  have hcount := count_spellPercents false hwell
  rw [text_lexemes] at hapart hcount
  rw [hruns] at hspelled hcount
  rw [htext]
  exact ⟨hcount, hspelled.2.trans hapart⟩

/-- The numeral behind the percent sign of a group becomes a part of the hundred. -/
theorem not_forall_runs_absorbPercent :
    ¬∀ t : Text, runs (absorbPercent t) = runsWithHundreds [] (lexemes t) := by
  intro hall
  have htext := hall ['(', '2', ')', '%', '5']
  revert htext
  decide +kernel

end Calculator
