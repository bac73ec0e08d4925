import Calculator.Proofs.Expression.Fault
import Calculator.Proofs.Expression.Linked

/-!
# Percent signs of an expression

A linked text is read along with what stands before it (`Percents`), so that a percent
sign is judged by the text in front of it. After the first pass each percent sign
stands behind a group or behind a numeral with two points
(`percents_absorbLiteralPercent`), after the second one only behind such a numeral
(`percents_absorbGroupPercent`). What is read does not depend on the text in front but
for the points of its last numeral (`endPoints`), and that carries the property over
the rewriting behind it.

So the scanner meets the numeral before it meets the percent sign, and the fault it
finds in a linked text is that of the two points (`Linked.eq_decimalPoint`).
-/

namespace Calculator

/-- How many points the numeral at the end of the text has. -/
def endPoints (t : Text) : Nat :=
  (Text.takeEndWhile isNumeric t).count '.'

/-- Each percent sign of the second text has before it a text with the property `P`,
where the first text stands in front of the second one. -/
def Percents (P : Text → Prop) : Text → Text → Prop
  | _, [] => True
  | a, c :: t => (c = '%' → P a) ∧ Percents P (a ++ [c]) t

/-- The text ends with a numeral that has two points. -/
def EndsFaulty (t : Text) : Prop :=
  1 < endPoints t

/-- The text ends with a group or with a numeral that has two points. -/
def EndsClosedOrFaulty (t : Text) : Prop :=
  t.getLast? = some ')' ∨ EndsFaulty t

theorem endPoints_append_singleton (t : Text) (c : Char) :
    endPoints (t ++ [c]) = if isNumeric c then endPoints t + [c].count '.' else 0 := by
  rw [endPoints, Text.takeEndWhile_append_singleton]
  split
  · rw [List.count_append, endPoints]
  · rfl

/-- The points behind a last character that is no part of a numeral. -/
theorem endPoints_of_getLast? {u : Text} (hu : ∀ c ∈ u.getLast?, isNumeric c = false) :
    endPoints u = 0 := by
  rcases List.eq_nil_or_concat' u with rfl | ⟨u, c, rfl⟩
  · rfl
  · have hc : isNumeric c = false := hu c (by rw [List.getLast?_concat]; rfl)
    rw [endPoints_append_singleton, if_neg (Bool.eq_false_iff.1 hc)]

theorem endPoints_append_numeral {u r : Text} (hu : ∀ c ∈ u.getLast?, isNumeric c = false)
    (hr : ∀ c ∈ r, isNumeric c = true) : endPoints (u ++ r) = r.count '.' := by
  induction r using List.reverseRecOn with
  | nil => rw [List.append_nil, endPoints_of_getLast? hu, List.count_nil]
  | append_singleton r c ih =>
      obtain ⟨hr, hc⟩ := List.forall_mem_append.1 hr
      rw [← List.append_assoc, endPoints_append_singleton,
        if_pos (hc c (List.mem_singleton_self c)), ih hr, List.count_append]

/-- The next character changes the points at the end in the same way. -/
theorem endPoints_append_congr {a b : Text} (h : endPoints a = endPoints b) (c : Char) :
    endPoints (a ++ [c]) = endPoints (b ++ [c]) := by
  rw [endPoints_append_singleton, endPoints_append_singleton, h]

section Percents

variable {P : Text → Prop} {a b t u v : Text}

theorem percents_append : Percents P a (u ++ v) ↔ Percents P a u ∧ Percents P (a ++ u) v := by
  induction u generalizing a with
  | nil => simp [Percents]
  | cons c u ih =>
      rw [List.cons_append, Percents, ih, Percents, and_assoc, List.append_assoc,
        List.singleton_append]

theorem percents_of_forall (h : ∀ u v : Text, t = u ++ '%' :: v → P (a ++ u)) :
    Percents P a t := by
  induction t generalizing a with
  | nil => trivial
  | cons c t ih =>
      refine ⟨?_, ih fun u v huv => ?_⟩
      · rintro rfl
        simpa using h [] t rfl
      · simpa using h (c :: u) v (by rw [huv, List.cons_append])

theorem percents_of_not_mem (h : '%' ∉ t) : Percents P a t :=
  percents_of_forall fun u v huv => absurd (by simp [huv]) h

theorem percents_of_numeric (h : ∀ c ∈ t, isNumeric c = true) : Percents P a t :=
  percents_of_not_mem fun hmem => absurd (h _ hmem) (by decide)

/-- The text before a percent sign. -/
theorem Percents.of_append (h : Percents P a (u ++ '%' :: v)) : P (a ++ u) :=
  (percents_append.1 h).2.1 rfl

/-- A numeral of a linked text that is no literal has two points. -/
theorem one_lt_count_of_linked {p : Char} (hp : isNumeric p = false) {r : Text}
    (hr : ∀ c ∈ r, isNumeric c = true) (hne : r ≠ []) (hchain : (p :: r).IsChain Follows)
    (hliteral : ¬isLiteral r = true) : 1 < r.count '.' := by
  obtain ⟨d, r, rfl⟩ := List.exists_cons_of_ne_nil hne
  have hdigit : d.isDigit = true :=
    (List.isChain_cons_cons.1 hchain).1.isDigit hp (hr d (List.mem_cons_self ..))
  refine not_le.1 fun hle => hliteral ?_
  simp [isLiteral, hle, hdigit]

/-- After the first pass each percent sign stands behind a group or behind a numeral
with two points. Here `p` is what was typed in front of the text, and `a` is what the
pass has written there. -/
theorem percents_absorbLiteralPercent {p : Char} (hp : isNumeric p = false)
    (ha : ∀ c ∈ a.getLast?, isNumeric c = false) (hclosed : p = ')' → a.getLast? = some ')')
    (hchain : (p :: t).IsChain Follows) :
    Percents EndsClosedOrFaulty a (absorbLiteralPercent (lexemes t)) := by
  induction t using run_induction generalizing p a with
  | hlast r hr =>
      by_cases hne : r = []
      · rw [hne]
        trivial
      · rw [lexemes_of_numeric hne hr, absorbLiteralPercent_run (by simp), absorbLiteralPercent,
          List.append_nil]
        exact percents_of_numeric hr
  | hnext r c t hr hc ih =>
      rw [← List.cons_append, List.isChain_split] at hchain
      obtain ⟨hrun, hrest⟩ := hchain
      have hbehind : ∀ w : Text, ∀ d ∈ (w ++ [c]).getLast?, isNumeric d = false := by simpa using hc
      have hgroup : ∀ w : Text, c = ')' → (w ++ [c]).getLast? = some ')' := by simp
      by_cases hne : r = []
      · subst hne
        rw [List.nil_append, lexemes_cons_symbol hc, absorbLiteralPercent_symbol]
        refine ⟨?_, ih hc (hbehind a) (hgroup a) hrest⟩
        rintro rfl
        rcases (List.isChain_cons_cons.1 hrun).1.before_percent with hnumeric | hparenthesis
        · rw [hp] at hnumeric
          cases hnumeric
        · exact Or.inl (hclosed hparenthesis)
      · rw [lexemes_append_symbol hc, lexemes_of_numeric hne hr, List.singleton_append,
          absorbLiteralPercent]
        split
        · next hpercent =>
            obtain ⟨rfl, -⟩ := hpercent
            have hquotient : '%' ∉ '(' :: r ++ ['/', '1', '0', '0', ')'] := by
              have hr' : '%' ∉ r := fun hmem => absurd (hr _ hmem) (by decide)
              simpa using hr'
            have hlast : (a ++ ('(' :: r ++ ['/', '1', '0', '0', ')'])).getLast? = some ')' := by
              rw [← List.append_assoc, List.getLast?_append_of_ne_nil _ (by simp)]
              rfl
            -- from here on a percent sign was typed in front and a group is written there
            refine percents_append.2 ⟨percents_of_not_mem hquotient, ?_⟩
            refine ih hc ?_ (fun _ => hlast) hrest
            rw [hlast]
            rintro d ⟨⟩
            rfl
        · next hpercent =>
            refine percents_append.2 ⟨percents_of_numeric hr, ?_, ?_⟩
            · -- the sign stays, because the numeral in front of it is no literal
              rintro rfl
              right
              rw [EndsFaulty, endPoints_append_numeral ha hr]
              exact one_lt_count_of_linked hp hr hne hrun.left_of_append
                fun hliteral => hpercent ⟨rfl, hliteral⟩
            · exact ih hc (hbehind _) (hgroup _) hrest

/-- After the second pass each percent sign stands behind a numeral with two points. The
text `b` that is written in front is not `a`, but it ends with as many points. -/
theorem percents_absorbGroupPercent (h : Percents EndsClosedOrFaulty a t)
    (hhead : t.head? = some '%' → a.getLast? ≠ some ')') (hpoints : endPoints b = endPoints a) :
    Percents EndsFaulty b (absorbGroupPercent t) := by
  fun_induction absorbGroupPercent t generalizing a b with
  | case1 rest ih =>
      have hquotient : '%' ∉ [')', '/', '1', '0', '0'] := by decide
      refine percents_append.2 ⟨percents_of_not_mem hquotient, ?_⟩
      refine ih h.2.2 (by simp) ?_
      have hdivisor : endPoints (b ++ [')', '/'] ++ ['1', '0', '0']) = 0 :=
        endPoints_append_numeral (by simp; rfl) (List.all_eq_true.1 rfl)
      rw [List.append_assoc] at hdivisor
      rw [endPoints_append_singleton (a ++ [')'])]
      exact hdivisor
  | case2 c rest hne ih =>
      obtain ⟨hc, hrest⟩ := h
      refine ⟨?_, ih hrest ?_ (endPoints_append_congr hpoints c)⟩
      · rintro rfl
        rw [EndsFaulty, hpoints]
        exact (hc rfl).resolve_left (hhead rfl)
      · rw [List.getLast?_concat, List.head?_eq_some_iff, Ne, Option.some_inj]
        rintro ⟨v, hv⟩ hclosing
        exact hne v hclosing hv
  | case3 => trivial

/-- Neither is there another one in the canonical spelling. -/
theorem percents_canonical (h : Percents EndsFaulty a t) (hpoints : endPoints b = endPoints a)
    {due : Bool} (hdue : due = true → endPoints a = 0) :
    Percents EndsFaulty b (dropUnaryPlus due (t.map canonicalChar)) := by
  induction t generalizing a b due with
  | nil => trivial
  | cons c t ih =>
      obtain ⟨hc, hrest⟩ := h
      have hsymbol : ∀ (w : Text) {d : Char}, isNumeric d = false → endPoints (w ++ [d]) = 0 :=
        fun w d hd => endPoints_of_getLast? (by simpa using hd)
      have hspelled := isNumeric_canonicalChar c
      rw [List.map_cons, dropUnaryPlus]
      split
      · next hplus =>
          rw [hplus.1] at hspelled
          refine ih hrest ?_ fun _ => hsymbol a hspelled.symm
          rw [hsymbol a hspelled.symm, hpoints, hdue hplus.2]
      · refine ⟨?_, ih hrest ?_ ?_⟩
        · intro hpercent
          rcases canonicalChar_cases c with heq | heq | heq
          · rw [EndsFaulty, hpoints]
            exact hc (heq ▸ hpercent)
          · rw [hpercent] at heq
            cases heq
          · rw [hpercent] at heq
            cases heq
        · cases hnumeric : isNumeric c with
          | true =>
              rw [canonicalChar_of_isNumeric hnumeric]
              exact endPoints_append_congr hpoints c
          | false =>
              rw [hnumeric] at hspelled
              rw [hsymbol b hspelled, hsymbol a hnumeric]
        · intro hopening
          rw [eq_of_beq hopening] at hspelled
          exact hsymbol a hspelled.symm

end Percents

section Linked

variable {t : Text}

theorem Linked.percents_absorbPercent (h : Linked t) :
    Percents EndsFaulty [] (absorbPercent t) :=
  percents_absorbGroupPercent
    (percents_absorbLiteralPercent (p := '(') rfl (by simp) (by decide) h) (by simp) rfl

/-- A character other than a plus sign is never left out. -/
theorem mem_dropUnaryPlus_iff {c : Char} (hc : c ≠ '+') {due : Bool} :
    c ∈ dropUnaryPlus due t ↔ c ∈ t := by
  fun_induction dropUnaryPlus due t with
  | case1 due => exact Iff.rfl
  | case2 due d rest hplus ih => rw [ih, List.mem_cons, or_iff_right (hplus.1 ▸ hc)]
  | case3 due d rest hplus ih => rw [List.mem_cons, ih, List.mem_cons]

/-- The display spellings of the operators are gone. -/
theorem not_mem_canonical (t : Text) : '×' ∉ canonical t ∧ '÷' ∉ canonical t := by
  have hspelled : ∀ {d : Char}, canonicalChar d ≠ d → d ≠ '*' → d ≠ '/' → d ≠ '+' →
      d ∉ canonical t := by
    intro d hd htimes hdivide hplus hmem
    obtain ⟨c, -, rfl⟩ := List.mem_map.1 ((mem_dropUnaryPlus_iff hplus).1 hmem)
    rcases canonicalChar_cases c with heq | heq | heq
    · rw [heq] at hd
      exact hd heq
    · exact htimes heq
    · exact hdivide heq
  exact ⟨hspelled (by decide) (by decide) (by decide) (by decide),
    hspelled (by decide) (by decide) (by decide) (by decide)⟩

theorem mem_canonical_of_percent (h : '%' ∈ t) : '%' ∈ canonical t :=
  (mem_dropUnaryPlus_iff (by decide)).2 (List.mem_map.2 ⟨'%', h, rfl⟩)

/-- Each character that is no part of a numeral is a token but for the percent sign. -/
theorem exists_token_of_follows {c d : Char} (h : Follows c d) (hd : isNumeric d = false)
    (hpercent : d ≠ '%') (hspelling : d ≠ '×' ∧ d ≠ '÷') (due : Bool) :
    ∃ token : Token, Token.ofSymbol? due d = some token := by
  cases h with
  | digit hdigit => rw [isNumeric_of_isDigit hdigit] at hd; cases hd
  | point _ => cases hd
  | percent _ => exact absurd rfl hpercent
  | opening => exact ⟨_, rfl⟩
  | closing _ => exact ⟨_, rfl⟩
  | operator hoperator =>
      obtain ⟨op, hop⟩ := Option.isSome_iff_exists.1 hoperator
      have hmem := Operator.mem_of_ofChar? hop
      simp only [List.mem_cons, List.not_mem_nil, or_false] at hmem
      rcases hmem with rfl | rfl | rfl | rfl | rfl | rfl
      · exact ⟨_, rfl⟩
      · exact ⟨_, rfl⟩
      · exact absurd rfl hspelling.1
      · exact ⟨_, rfl⟩
      · exact absurd rfl hspelling.2
      · exact ⟨_, rfl⟩

/-- A numeral of a linked text has two points, or the fault lies behind it. -/
theorem fault_of_numeral {p : Char} (hp : isNumeric p = false) {r : Text}
    (hr : ∀ c ∈ r, isNumeric c = true) (hne : r ≠ []) (hchain : (p :: r).IsChain Follows)
    {due : Bool} {ls : List Lexeme} {f : Fault}
    (h : Token.ofLexemes due (.run r :: ls) = .error f) :
    f = .decimalPoint ∨ r.count '.' ≤ 1 ∧ Token.ofLexemes false ls = .error f := by
  have hgroup : ¬OpensEmptyGroup (.run r) ls := by
    rintro ⟨hopening, -⟩
    cases hopening
  by_cases hcount : 1 < r.count '.'
  · have hfault : Token.ofLexeme due (.run r) = .error .decimalPoint := by
      rw [Token.ofLexeme, Decimal.ofRun, if_pos hcount]
      rfl
    rw [Token.ofLexemes_cons, if_neg hgroup, hfault] at h
    cases h
    exact Or.inl rfl
  · have hliteral : isLiteral r = true := by
      by_contra hnone
      exact hcount (one_lt_count_of_linked hp hr hne hchain hnone)
    rw [← Decimal.isOk_ofRun] at hliteral
    cases hd : Decimal.ofRun r with
    | error g => rw [hd] at hliteral; cases hliteral
    | ok d =>
        rcases Token.ofLexemes_cons_eq_error_iff.1 h with
          ⟨hempty, -⟩ | ⟨-, hfault | ⟨token, htoken, hrest⟩⟩
        · exact absurd hempty hgroup
        · rw [Token.ofLexeme, hd] at hfault
          cases hfault
        · rw [Token.ofLexeme, hd] at htoken
          cases htoken
          exact Or.inr ⟨not_lt.1 hcount, hrest⟩

/-- A character that is no part of a numeral is a token, and the fault lies behind it. -/
theorem fault_of_symbol {c d : Char} (hfollows : Follows d c) (hc : isNumeric c = false)
    (hpercent : c ≠ '%') (hspelling : c ≠ '×' ∧ c ≠ '÷') (hchain : (c :: t).IsChain Follows)
    {due : Bool} {f : Fault} (h : Token.ofLexemes due (.symbol c :: lexemes t) = .error f) :
    ∃ due' : Bool, Token.ofLexemes due' (lexemes t) = .error f := by
  rcases Token.ofLexemes_cons_eq_error_iff.1 h with
    ⟨⟨hopening, hclosing⟩, -⟩ | ⟨-, hfault | ⟨token, -, hbehind⟩⟩
  · rw [Lexeme.symbol.injEq] at hopening
    subst hopening
    have hempty : Follows '(' ')' :=
      (List.isChain_cons.1 hchain).1 _ (head?_of_head?_lexemes hclosing)
    exact absurd (Or.inl rfl) hempty.before_closing
  · obtain ⟨token, htoken⟩ := exists_token_of_follows hfollows hc hpercent hspelling due
    rw [Token.ofLexeme, htoken] at hfault
    cases hfault
  · exact ⟨_, hbehind⟩

/-- The fault that is found first is that of two points in a numeral, if each percent
sign stands behind such a numeral. -/
theorem eq_decimalPoint_of_ofLexemes {p : Char} (hp : isNumeric p = false) {a : Text}
    (ha : ∀ c ∈ a.getLast?, isNumeric c = false) (hchain : (p :: t).IsChain Follows)
    (hpercents : Percents EndsFaulty a t) (hspelling : '×' ∉ t ∧ '÷' ∉ t) {due : Bool} {f : Fault}
    (h : Token.ofLexemes due (lexemes t) = .error f) : f = .decimalPoint := by
  induction t using run_induction generalizing p a due with
  | hlast r hr =>
      by_cases hne : r = []
      · subst hne
        cases h
      · rw [lexemes_of_numeric hne hr] at h
        exact (fault_of_numeral hp hr hne hchain h).resolve_right fun hrest => nomatch hrest.2
  | hnext r c t hr hc ih =>
      rw [← List.cons_append, List.isChain_split] at hchain
      obtain ⟨hrun, hrest⟩ := hchain
      simp only [List.mem_append, List.mem_cons, not_or] at hspelling
      obtain ⟨⟨-, htimes, htimes'⟩, -, hdivide, hdivide'⟩ := hspelling
      -- the numeral in front of a percent sign has a fault of its own
      have hpercent : r.count '.' ≤ 1 → c ≠ '%' := by
        rintro hcount rfl
        have hfaulty := hpercents.of_append
        rw [EndsFaulty, endPoints_append_numeral ha hr] at hfaulty
        omega
      have hfollows : Follows ((p :: r).getLast (List.cons_ne_nil p r)) c :=
        (List.isChain_append.1 hrun).2.2 _ (List.getLast?_eq_some_getLast _) c rfl
      have hpercents' : Percents EndsFaulty (a ++ r ++ [c]) t := (percents_append.1 hpercents).2.2
      have hsymbol : r.count '.' ≤ 1 → ∀ {due : Bool},
          Token.ofLexemes due (.symbol c :: lexemes t) = .error f → f = .decimalPoint := by
        intro hcount due h
        obtain ⟨due', hbehind⟩ := fault_of_symbol hfollows hc (hpercent hcount)
          ⟨Ne.symm htimes, Ne.symm hdivide⟩ hrest h
        exact ih hc (by simpa using hc) hrest hpercents' ⟨htimes', hdivide'⟩ hbehind
      by_cases hne : r = []
      · subst hne
        rw [List.nil_append, lexemes_cons_symbol hc] at h
        exact hsymbol (Nat.zero_le 1) h
      · rw [lexemes_append_symbol hc, lexemes_of_numeric hne hr, List.singleton_append] at h
        rcases fault_of_numeral hp hr hne hrun.left_of_append h with hf | ⟨hcount, hbehind⟩
        · exact hf
        · exact hsymbol hcount hbehind

/-- The scanner finds no other fault in a linked text than that of two points. -/
theorem Linked.eq_decimalPoint (h : Linked t) {f : Fault} (hf : expressionTokens t = .error f) :
    f = .decimalPoint := by
  have hchain : Linked (canonical (absorbPercent t)) :=
    invariant_of_respells (fun hlinked hstep => hlinked.respells hstep) h
  have hpercents : Percents EndsFaulty [] (canonical (absorbPercent t)) :=
    percents_canonical h.percents_absorbPercent rfl fun _ => rfl
  exact eq_decimalPoint_of_ofLexemes (p := '(') rfl (by simp) hchain hpercents
    (not_mem_canonical _) hf

/-- A linked text has no unknown character. -/
theorem Linked.evaluate_ne_unknownSymbol (h : Linked t) (c : Char) :
    evaluate t ≠ .error (.unknownSymbol c) := by
  intro hfault
  rcases fault_of_evaluate hfault with hscan | ⟨ts, -, ⟨hf, -⟩ | hf | hf⟩
  · cases h.eq_decimalPoint hscan
  · cases hf
  · cases hf
  · cases hf

/-- What is scanned has no percent sign. -/
theorem not_mem_of_ofLexemes {due : Bool} {ls : List Lexeme} {ts : List Token}
    (h : Token.ofLexemes due ls = .ok ts) : .symbol '%' ∉ ls := by
  induction ls generalizing due ts with
  | nil => exact List.not_mem_nil
  | cons l rest ih =>
      obtain ⟨-, token, us, htoken, hus, -⟩ := Token.ofLexemes_cons_eq_ok_iff.1 h
      rw [List.mem_cons, not_or]
      refine ⟨?_, ih hus⟩
      rintro rfl
      cases htoken

/-- A percent sign that is left in a linked text stands behind a numeral with two
points, and these are the fault of the text. -/
theorem Linked.evaluate_of_percent (h : Linked t) {u v : Text}
    (huv : absorbPercent t = u ++ '%' :: v) :
    EndsFaulty u ∧ evaluate t = .error .decimalPoint := by
  have hpercents := h.percents_absorbPercent
  rw [huv] at hpercents
  refine ⟨hpercents.of_append, ?_⟩
  have hmem : '%' ∈ canonical (absorbPercent t) := mem_canonical_of_percent (by simp [huv])
  cases hscan : expressionTokens t with
  | error f => rw [evaluate_of_expressionTokens hscan, h.eq_decimalPoint hscan]
  | ok ts =>
      obtain ⟨w, x, hwx⟩ := List.append_of_mem hmem
      rw [expressionTokens, scan, hwx, lexemes_append_symbol (by decide)] at hscan
      exact absurd (by simp) (not_mem_of_ofLexemes hscan)

end Linked

end Calculator
