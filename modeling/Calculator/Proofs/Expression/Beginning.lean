import Calculator.Proofs.Expression.Cause
import Calculator.Proofs.Expression.Ending

/-!
# The beginning of an expression

A fault that is found in the beginning of an expression is the fault of the whole expression
(`expressionTokens_append_of_beginning`). The passes write the beginning anew as they do by
itself, unless the cut parts a numeral (`canonical_absorbPercent_isPrefix`), and a numeral at
fault is no literal, which no percent sign behind it can change. Only a point that has no
digit yet is no fault any more when a digit follows.

Of the characters at a cut an operator is never at fault, neither a second one nor a last one
(`expressionTokens_repeated_eq_error_iff`, `expressionTokens_concat_operator_eq_error_iff`),
and a percent sign at the end is at fault itself or not at all (`fault_of_concat_percent`).
-/

namespace Calculator

variable {s u v : Text} {c : Char} {f : Fault}

section Passes

/-- The second pass keeps what it has written. -/
theorem absorbGroupPercent_isPrefix (u v : Text) :
    absorbGroupPercent u <+: absorbGroupPercent (u ++ v) := by
  fun_induction absorbGroupPercent u with
  | case1 rest ih => exact (List.prefix_append_right_inj [')', '/', '1', '0', '0']).2 ih
  | case2 c rest hne ih =>
      by_cases hpercent : c = ')' ∧ (rest ++ v).head? = some '%'
      · obtain ⟨rfl, hhead⟩ := hpercent
        -- the percent sign comes behind the text, which ends with the parenthesis
        cases rest with
        | nil =>
            obtain ⟨tail, htail⟩ := List.head?_eq_some_iff.1 hhead
            rw [List.nil_append] at htail
            rw [htail]
            exact ⟨'/' :: '1' :: '0' :: '0' :: absorbGroupPercent tail, rfl⟩
        | cons d rest =>
            obtain rfl := Option.some_inj.1 hhead
            exact absurd rfl (hne rest rfl)
      · rw [List.cons_append, absorbGroupPercent, List.cons_prefix_cons]
        · exact ⟨rfl, ih⟩
        · rintro tail rfl htail
          exact hpercent ⟨rfl, by rw [htail]; rfl⟩
  | case3 => exact List.nil_prefix

theorem exists_canonicalFrom_append (due : Bool) (u : Text) :
    ∃ due' : Bool, ∀ v : Text,
      canonicalFrom due (u ++ v) = canonicalFrom due u ++ canonicalFrom due' v := by
  induction u generalizing due with
  | nil => exact ⟨due, fun v => rfl⟩
  | cons c u ih =>
      by_cases hplus : c = '+' ∧ due = true
      · obtain ⟨due', h⟩ := ih due
        refine ⟨due', fun v => ?_⟩
        rw [List.cons_append, canonicalFrom_cons, if_pos hplus, canonicalFrom_cons, if_pos hplus, h]
      · obtain ⟨due', h⟩ := ih (c == '(')
        refine ⟨due', fun v => ?_⟩
        rw [List.cons_append, canonicalFrom_cons_of_not hplus, canonicalFrom_cons_of_not hplus, h,
          List.cons_append]

end Passes

section Prefixes

theorem getLast?_lexemes_ne_run (hu : ∀ c ∈ u.getLast?, isNumeric c = false) (r : Text) :
    (lexemes u).getLast? ≠ some (.run r) := by
  rcases List.eq_nil_or_concat' u with rfl | ⟨u, c, rfl⟩
  · simp
  · have hc : isNumeric c = false := hu c List.getLast?_concat
    rw [lexemes_append_symbol hc]
    simp

/-- What is written for the beginning of a text is the beginning of what is written for the text,
unless a numeral is parted. -/
theorem canonical_absorbPercent_isPrefix (hu : ∀ c ∈ u.getLast?, isNumeric c = false) (v : Text) :
    canonical (absorbPercent u) <+: canonical (absorbPercent (u ++ v)) := by
  obtain ⟨w, hw⟩ : absorbPercent u <+: absorbPercent (u ++ v) := by
    rw [absorbPercent, absorbPercent, lexemes_append_of_getLast hu,
      absorbLiteralPercent_append_of_not fun r hr => absurd hr (getLast?_lexemes_ne_run hu r)]
    exact absorbGroupPercent_isPrefix _ _
  obtain ⟨due, hdue⟩ := exists_canonicalFrom_append true (absorbPercent u)
  rw [canonical_eq_canonicalFrom, canonical_eq_canonicalFrom, ← hw, hdue]
  exact List.prefix_append _ _

/-- A numeral behind a text is written as it is. -/
theorem canonical_absorbPercent_append_numeral (hu : ∀ c ∈ u.getLast?, isNumeric c = false)
    (hs : ∀ c ∈ s, isNumeric c = true) :
    canonical (absorbPercent (u ++ s)) = canonical (absorbPercent u) ++ s := by
  have hnone : ∀ c : Char, isNumeric c = false → c ∉ s := by
    intro c hc hmem
    rw [hs c hmem] at hc
    cases hc
  rw [canonical_absorbPercent_append (Or.inl hu) (hnone '%' rfl) (hnone '+' rfl),
    map_canonicalChar_numeric hs]

/-- So is the character behind a numeral that is no literal, a percent sign included. -/
theorem canonical_absorbPercent_append_numeral_concat
    (hu : ∀ c ∈ u.getLast?, isNumeric c = false) (hs : (Lexeme.run s).WellFormed)
    (hliteral : isLiteral s = false) (hc : isNumeric c = false) :
    canonical (absorbPercent (u ++ s ++ [c])) =
      canonical (absorbPercent u) ++ s ++ [canonicalChar c] := by
  have hnumeral : absorbLiteralPercent [.run s, .symbol c] = s ++ [c] := by
    rw [absorbLiteralPercent, if_neg (by simp [hliteral])]
    rfl
  have hhead : (s ++ [c]).head? ≠ some '%' := by
    obtain ⟨d, s, rfl⟩ := List.exists_cons_of_ne_nil hs.1
    rintro ⟨⟩
    exact absurd (hs.2 '%' (by simp)) (by decide)
  have habsorbed : absorbPercent (u ++ s ++ [c]) = absorbPercent u ++ (s ++ [c]) := by
    rw [List.append_assoc, absorbPercent, lexemes_append_of_getLast hu, lexemes_append_symbol hc,
      lexemes_of_numeric hs.1 hs.2, List.singleton_append, lexemes_nil,
      absorbLiteralPercent_append (by simp), hnumeral, absorbGroupPercent_append hhead,
      absorbGroupPercent_numeric hs.2, absorbGroupPercent_cons_of_head (by simp), absorbPercent]
    rfl
  obtain ⟨due, hdue⟩ := exists_canonicalFrom_append true (absorbPercent u)
  rw [habsorbed, canonical_eq_canonicalFrom, hdue, canonicalFrom_numeric hs.1 hs.2,
    canonicalFrom_cons_of_not (by simp), canonicalFrom_nil, List.append_assoc]
  rfl

/-- A text that does not end with a point is written anew without one at the end. -/
theorem getLast?_ne_point_of_respells {s t : Text} (h : s.getLast? ≠ some '.')
    (hstep : Respells s t) : t.getLast? ≠ some '.' := by
  -- the last character is the same, unless the end of the text is written anew
  have hbehind : ∀ {a b v : Text} {c d : Char}, (a ++ c :: v).getLast? ≠ some '.' →
      (v = [] → d ≠ '.') → (b ++ d :: v).getLast? ≠ some '.' := by
    intro a b v c d h hd
    rcases List.eq_nil_or_concat' v with rfl | ⟨v, e, rfl⟩
    · simpa using hd rfl
    · simpa [List.getLast?_cons] using h
  cases hstep with
  | @literal u v r _ _ _ =>
      have hquotient : u ++ '(' :: (r ++ '/' :: '1' :: '0' :: '0' :: ')' :: v) =
          (u ++ '(' :: (r ++ ['/', '1', '0', '0'])) ++ ')' :: v := by simp
      rw [← List.append_assoc] at h
      rw [hquotient]
      exact hbehind h fun _ => by decide
  | group u v =>
      have hquotient : u ++ ')' :: '/' :: '1' :: '0' :: '0' :: v =
          (u ++ [')', '/', '1', '0']) ++ '0' :: v := by simp
      rw [List.append_cons] at h
      rw [hquotient]
      exact hbehind h fun _ => by decide
  | spelling u v c =>
      refine hbehind h ?_
      rintro rfl hspelled
      rw [canonicalChar_eq_iff (by decide)] at hspelled
      exact h (by simp [hspelled])
  | plus u v hu =>
      rcases List.eq_nil_or_concat' v with rfl | ⟨v, d, rfl⟩
      · intro hlast
        rw [List.append_nil] at hlast
        cases hu '.' hlast
      · simpa [List.getLast?_cons] using h

theorem getLast?_canonical_ne_point (hu : u.getLast? ≠ some '.') :
    (canonical (absorbPercent u)).getLast? ≠ some '.' :=
  invariant_of_respells (fun h hstep => getLast?_ne_point_of_respells h hstep) hu

end Prefixes

section Faults

/-- A fault stays the fault however the expression goes on, where no numeral ends. -/
theorem expressionTokens_append_of_getLast? (hu : ∀ c ∈ u.getLast?, isNumeric c = false)
    (h : expressionTokens u = .error f) (v : Text) : expressionTokens (u ++ v) = .error f := by
  obtain ⟨w, hw⟩ := canonical_absorbPercent_isPrefix hu v
  rw [expressionTokens, ← hw]
  refine scan_append_of_error h fun _ hpoint => absurd hpoint (getLast?_canonical_ne_point ?_)
  intro hlast
  exact Bool.false_ne_true (hu '.' hlast).symm

/-- A numeral with one point behind such numerals leaves them as they are. -/
theorem pointsApart_canonical_append_numeral (hu : ∀ c ∈ u.getLast?, isNumeric c = false)
    (hs : (Lexeme.run s).WellFormed) (hapart : PointsApart u) (hcount : s.count '.' ≤ 1) :
    PointsApart (canonical (absorbPercent (u ++ s))) := by
  refine invariant_of_respells (fun h hstep => h.respells hstep) ?_
  refine (PointsApart.append_of_getLast hu).2 ⟨hapart, fun r hr => ?_⟩
  rw [runs_of_numeric hs.1 hs.2, List.mem_singleton] at hr
  rwa [hr]

/-- Behind an expression that is scanned only the numeral itself is at fault, even if the hundred
of a percent sign goes on with it. -/
theorem faultAt_of_append_numeral (hu : ∀ c ∈ u.getLast?, isNumeric c = false)
    (hs : (Lexeme.run s).WellFormed) {ts : List Token} (hok : expressionTokens u = .ok ts)
    (h : expressionTokens (u ++ s) = .error f) : FaultAt (.run s) [] f := by
  have happend := canonical_absorbPercent_append_numeral hu hs.2
  obtain ⟨a, q, hcut, ha, hq⟩ := exists_cut (canonical (absorbPercent u))
  have hnumeral : (Lexeme.run (q ++ s)).WellFormed :=
    ⟨List.append_ne_nil_of_right_ne_nil q hs.1, List.forall_mem_append.2 ⟨hq, hs.2⟩⟩
  have hclosing : (q ++ s ++ []).head? ≠ some ')' := fun hhead =>
    (ne_parenthesis_of_isNumeric
      (hnumeral.2 ')' (by simpa using List.mem_of_mem_head? hhead))).2 rfl
  have hapart : PointsApart u := pointsApart_of_expressionTokens hok
  rw [expressionTokens, hcut] at hok
  rw [expressionTokens, happend, hcut, List.append_assoc, ← List.append_nil (q ++ s),
    scan_append_eq_error_iff (Or.inl ha) fun _ => hclosing,
    scan_numeral_append_eq_error_iff hnumeral (by simp)] at h
  rcases h with h | ⟨-, hfault | ⟨-, hnil⟩⟩
  · rw [scan_append_of_error h fun _ hpoint => absurd (ha '.' hpoint) (by decide)] at hok
    cases hok
  · generalize hr : q ++ s = r at hfault
    cases hfault with
    | points hcount =>
        -- the hundred brings in no point
        refine .points (not_le.1 fun hle => ?_)
        have hscanned := pointsApart_canonical_append_numeral hu hs hapart hle
        rw [happend, hcut, List.append_assoc, hr, PointsApart.append_of_getLast ha] at hscanned
        rw [hr] at hnumeral
        refine absurd hcount (not_lt.2 (hscanned.2 r ?_))
        rw [runs_of_numeric hnumeral.1 hnumeral.2, List.mem_singleton]
    | point =>
        rcases List.append_eq_singleton_iff.1 hr with ⟨rfl, rfl⟩ | ⟨-, hnil⟩
        · exact .point
        · exact absurd hnil hs.1
  · cases hnil

/-- A numeral at fault is no literal. -/
theorem isLiteral_of_faultAt (h : FaultAt (.run s) v f) : isLiteral s = false := by
  cases h with
  | points hcount => rw [isLiteral, decide_eq_false (not_le.2 hcount), Bool.false_and]
  | point => rfl

/-- Where a numeral ends that is no literal a fault stays the fault however the expression goes
on. -/
theorem expressionTokens_append_behind_numeral (hu : ∀ c ∈ u.getLast?, isNumeric c = false)
    (hs : (Lexeme.run s).WellFormed) (hliteral : isLiteral s = false)
    (h : expressionTokens (u ++ s) = .error f) (hv : ∀ c ∈ v.head?, isNumeric c = false) :
    expressionTokens (u ++ s ++ v) = .error f := by
  cases v with
  | nil => rwa [List.append_nil]
  | cons c v =>
      have hc : isNumeric c = false := hv c rfl
      rw [List.append_cons]
      refine expressionTokens_append_of_getLast? (by simpa using hc) ?_ v
      rw [expressionTokens, canonical_absorbPercent_append_numeral hu hs.2] at h
      rw [expressionTokens, canonical_absorbPercent_append_numeral_concat hu hs hliteral hc]
      refine scan_append_of_error h fun _ _ => ?_
      simpa [isNumeric_canonicalChar c] using hc

/-- A fault stays the fault however the expression goes on, unless a numeral goes on that had no
digit yet. -/
theorem expressionTokens_append_of_beginning (h : expressionTokens u = .error f)
    (hv : f = .malformed → u.getLast? = some '.' → ∀ c ∈ v.head?, isNumeric c = false) :
    expressionTokens (u ++ v) = .error f := by
  obtain ⟨u, s, rfl, hu, hs⟩ := exists_cut u
  cases hok : expressionTokens u with
  | error g =>
      have hg := expressionTokens_append_of_getLast? hu hok s
      rw [h] at hg
      cases hg
      rw [List.append_assoc]
      exact expressionTokens_append_of_getLast? hu hok _
  | ok ts =>
      have hne : s ≠ [] := by
        rintro rfl
        rw [List.append_nil, hok] at h
        cases h
      -- the numeral goes on with `r`, and `v` is what stands behind it
      obtain ⟨r, v, rfl, hr, hhead⟩ := exists_cut_head v
      have hfault := faultAt_of_append_numeral hu ⟨hne, hs⟩ hok h
      have hstops : f = .malformed → ∀ c ∈ r.head?, isNumeric c = false := by
        rintro rfl c hc
        cases hfault
        exact hv rfl (by simp) c (by rw [List.head?_append, hc, Option.some_or]; rfl)
      have hliteral := isLiteral_of_faultAt (faultAt_append_numeral (w := v) hfault hr hstops)
      have hnumeral : (Lexeme.run (s ++ r)).WellFormed :=
        ⟨List.append_ne_nil_of_left_ne_nil hne r, List.forall_mem_append.2 ⟨hs, hr⟩⟩
      have hlonger : expressionTokens (u ++ (s ++ r)) = .error f := by
        rw [expressionTokens, canonical_absorbPercent_append_numeral hu hs] at h
        rw [expressionTokens, canonical_absorbPercent_append_numeral hu hnumeral.2,
          ← List.append_assoc]
        exact scan_append_of_error h fun hf _ => hstops hf
      rw [List.append_assoc, ← List.append_assoc s, ← List.append_assoc]
      exact expressionTokens_append_behind_numeral hu hnumeral hliteral hlonger hhead

end Faults

section Operators

theorem spelling_of_isOperator (hc : isOperator c = true) :
    isNumeric c = false ∧ c ≠ '%' ∧ c ≠ '(' ∧ c ≠ ')' ∧
      canonicalChar c ∈ ['+', '-', '*', '/'] := by
  obtain ⟨op, hop⟩ := Option.isSome_iff_exists.1 hc
  have hmem := Operator.mem_of_ofChar? hop
  simp only [List.mem_cons, List.not_mem_nil, or_false] at hmem
  rcases hmem with rfl | rfl | rfl | rfl | rfl | rfl
  all_goals exact ⟨rfl, by decide, by decide, by decide, by decide⟩

/-- The passes read a text in two pieces around an operator. -/
theorem absorbPercent_append_operator (hc : isOperator c = true) (u v : Text) :
    absorbPercent (u ++ c :: v) = absorbPercent u ++ c :: absorbPercent v := by
  obtain ⟨hnumeric, hpercent, -, hclosing, -⟩ := spelling_of_isOperator hc
  rw [absorbPercent, lexemes_append_symbol hnumeric, absorbLiteralPercent_append (by simpa),
    absorbLiteralPercent_symbol, absorbGroupPercent_append (by simpa),
    absorbGroupPercent_cons_of_ne hclosing, absorbPercent, absorbPercent]

theorem canonicalFrom_false_cons_operator (hc : isOperator c = true) (v : Text) :
    canonicalFrom false (c :: v) = canonicalChar c :: canonicalFrom false v := by
  obtain ⟨-, -, hopening, -⟩ := spelling_of_isOperator hc
  rw [canonicalFrom_cons_of_not (by simp), beq_false_of_ne hopening]

/-- An operator is written behind the text before it, unless it is a unary plus sign. -/
theorem canonical_append_operator_cases (hc : isOperator c = true) (u : Text) :
    (∀ v : Text, canonical (absorbPercent (u ++ c :: v)) =
        canonical (absorbPercent u) ++ canonicalChar c :: canonicalFrom false (absorbPercent v)) ∨
      c = '+' ∧ ∀ v : Text, canonical (absorbPercent (u ++ c :: v)) =
        canonical (absorbPercent u) ++ canonicalFrom true (absorbPercent v) := by
  obtain ⟨due, hdue⟩ := exists_canonicalFrom_append true (absorbPercent u)
  have hsplit : ∀ v : Text, canonical (absorbPercent (u ++ c :: v)) =
      canonical (absorbPercent u) ++ canonicalFrom due (c :: absorbPercent v) := fun v => by
    rw [absorbPercent_append_operator hc, canonical_eq_canonicalFrom, hdue,
      canonical_eq_canonicalFrom]
  by_cases hplus : c = '+' ∧ due = true
  · obtain ⟨rfl, rfl⟩ := hplus
    exact Or.inr ⟨rfl, hsplit⟩
  · refine Or.inl fun v => ?_
    obtain ⟨-, -, hopening, -⟩ := spelling_of_isOperator hc
    rw [hsplit, canonicalFrom_cons_of_not hplus, beq_false_of_ne hopening]

/-- An operator is never at fault, so that the fault is that of the text before it or behind it. -/
theorem scan_append_operator_eq_error_iff {a b : Text} (hc : c ∈ ['+', '-', '*', '/']) :
    scan (a ++ c :: b) = .error f ↔
      scan a = .error f ∨ (∃ ts : List Token, scan a = .ok ts) ∧ scan b = .error f := by
  simp only [List.mem_cons, List.not_mem_nil, or_false] at hc
  rcases hc with rfl | rfl | rfl | rfl
  all_goals
    rw [scan_append_eq_error_iff (Or.inr (by simp; rfl)) (by simp),
      scan_cons_eq_error_iff (by decide) (by simp)]

theorem scan_nil : scan [] = .ok [] := rfl

/-- The repetition of an operator changes no fault of the scanner. -/
theorem expressionTokens_repeated_eq_error_iff (hc : isOperator c = true) (u v : Text) :
    expressionTokens (u ++ c :: c :: v) = .error f ↔
      expressionTokens (u ++ c :: v) = .error f := by
  have hrest : absorbPercent (c :: v) = c :: absorbPercent v :=
    absorbPercent_append_operator hc [] v
  obtain ⟨-, -, -, -, hspelled⟩ := spelling_of_isOperator hc
  rw [expressionTokens, expressionTokens]
  rcases canonical_append_operator_cases hc u with hkept | ⟨rfl, hdropped⟩
  · rw [hkept, hkept, hrest, canonicalFrom_false_cons_operator hc,
      scan_append_operator_eq_error_iff hspelled, scan_append_operator_eq_error_iff hspelled,
      ← List.nil_append (canonicalChar c :: _), scan_append_operator_eq_error_iff hspelled]
    simp [scan_nil]
  · rw [hdropped, hdropped, hrest, canonicalFrom_plus]

/-- An operator at the end changes no fault of the scanner. -/
theorem expressionTokens_concat_operator_eq_error_iff (hc : isOperator c = true) (u : Text) :
    expressionTokens (u ++ [c]) = .error f ↔ expressionTokens u = .error f := by
  have hnil : ∀ due : Bool, canonicalFrom due (absorbPercent []) = [] := fun _ => rfl
  obtain ⟨-, -, -, -, hspelled⟩ := spelling_of_isOperator hc
  rw [expressionTokens, expressionTokens]
  rcases canonical_append_operator_cases hc u with hkept | ⟨rfl, hdropped⟩
  · rw [hkept, hnil, scan_append_operator_eq_error_iff hspelled]
    simp [scan_nil]
  · rw [hdropped, hnil, List.append_nil]

end Operators

section Ends

variable {ts : List Token}

/-- A percent sign at the end is written as a division behind a closing parenthesis. -/
theorem absorbGroupPercent_concat_percent (t : Text) :
    absorbGroupPercent (t ++ ['%']) =
      absorbGroupPercent t ++ if t.getLast? = some ')' then ['/', '1', '0', '0'] else ['%'] := by
  fun_induction absorbGroupPercent t with
  | case1 rest ih =>
      have hlast : (')' :: '%' :: rest).getLast? = some ')' ↔ rest.getLast? = some ')' := by
        cases rest <;> simp
      simp only [hlast, List.append_assoc, ← ih]
      rfl
  | case2 c rest hne ih =>
      cases rest with
      | nil =>
          by_cases hc : c = ')'
          · subst hc
            rfl
          · rw [List.cons_append, absorbGroupPercent_cons_of_ne hc]
            simp [hc, absorbGroupPercent]
      | cons d rest =>
          have hkept : absorbGroupPercent (c :: ((d :: rest) ++ ['%'])) =
              c :: absorbGroupPercent ((d :: rest) ++ ['%']) := by
            rw [absorbGroupPercent]
            rintro tail hc htail
            obtain ⟨rfl, -⟩ := List.cons.inj htail
            exact hne rest hc rfl
          rw [List.cons_append, hkept, ih, List.getLast?_cons_cons, List.cons_append]
  | case3 => rfl

/-- Behind a literal a percent sign at the end is written as a quotient in parentheses. -/
theorem canonical_literal_percent (hu : ∀ c ∈ u.getLast?, isNumeric c = false)
    (hs : (Lexeme.run s).WellFormed) (hliteral : isLiteral s = true) :
    canonical (absorbPercent (u ++ s ++ ['%'])) =
      canonical (absorbPercent u) ++ ('(' :: s ++ ['/', '1', '0', '0', ')']) := by
  have hpercent : '%' ∉ '(' :: s ++ ['/', '1', '0', '0', ')'] := by
    simpa using fun hmem => absurd (hs.2 '%' hmem) (by decide)
  have habsorbed : absorbPercent (u ++ s ++ ['%']) =
      absorbPercent u ++ ('(' :: s ++ ['/', '1', '0', '0', ')']) := by
    rw [List.append_assoc, absorbPercent, lexemes_append_of_getLast hu, lexemes_append_symbol rfl,
      lexemes_of_numeric hs.1 hs.2, List.singleton_append, lexemes_nil,
      absorbLiteralPercent_append (by simp), absorbLiteralPercent, if_pos ⟨rfl, hliteral⟩,
      absorbLiteralPercent, List.append_nil, absorbGroupPercent_append (by simp),
      absorbGroupPercent_of_not_mem hpercent, absorbPercent]
  obtain ⟨due, hdue⟩ := exists_canonicalFrom_append true (absorbPercent u)
  have hquotient := canonicalFrom_quotient hs.1 hs.2 due []
  rw [List.append_nil, canonicalFrom_nil, List.append_nil] at hquotient
  rw [habsorbed, canonical_eq_canonicalFrom, hdue, hquotient, canonical_eq_canonicalFrom]

/-- Where no numeral ends a percent sign at the end is written as the divisor behind a group, or
stays. -/
theorem canonical_percent_cases (hu : ∀ c ∈ u.getLast?, isNumeric c = false) :
    canonical (absorbPercent (u ++ ['%'])) =
        canonical (absorbPercent u) ++ ['/', '1', '0', '0'] ∨
      canonical (absorbPercent (u ++ ['%'])) = canonical (absorbPercent u) ++ ['%'] := by
  have habsorbed : absorbPercent (u ++ ['%']) = absorbPercent u ++
      if (absorbLiteralPercent (lexemes u)).getLast? = some ')' then ['/', '1', '0', '0']
      else ['%'] := by
    rw [absorbPercent, lexemes_append_symbol rfl,
      absorbLiteralPercent_append_of_not fun r hr => absurd hr (getLast?_lexemes_ne_run hu r)]
    exact absorbGroupPercent_concat_percent _
  obtain ⟨due, hdue⟩ := exists_canonicalFrom_append true (absorbPercent u)
  rw [habsorbed, canonical_eq_canonicalFrom, canonical_eq_canonicalFrom, hdue]
  split
  · left
    cases due <;> rfl
  · right
    cases due <;> rfl

/-- What is written for a percent sign at the end: a quotient behind a literal, the divisor behind
a group, and the sign itself elsewhere. -/
theorem canonical_concat_percent_cases (u : Text) :
    (∃ a s : Text, u = a ++ s ∧ (∀ c ∈ a.getLast?, isNumeric c = false) ∧
        (Lexeme.run s).WellFormed ∧ isLiteral s = true ∧
        canonical (absorbPercent (u ++ ['%'])) =
          canonical (absorbPercent a) ++ ('(' :: s ++ ['/', '1', '0', '0', ')'])) ∨
      canonical (absorbPercent (u ++ ['%'])) =
        canonical (absorbPercent u) ++ ['/', '1', '0', '0'] ∨
      canonical (absorbPercent (u ++ ['%'])) = canonical (absorbPercent u) ++ ['%'] := by
  obtain ⟨a, s, rfl, ha, hs⟩ := exists_cut u
  by_cases hne : s = []
  · subst hne
    rw [List.append_nil]
    exact Or.inr (canonical_percent_cases ha)
  · cases hliteral : isLiteral s with
    | true =>
        exact Or.inl ⟨a, s, rfl, ha, ⟨hne, hs⟩, hliteral,
          canonical_literal_percent ha ⟨hne, hs⟩ hliteral⟩
    | false =>
        right; right
        rw [canonical_absorbPercent_append_numeral_concat ha ⟨hne, hs⟩ hliteral rfl,
          canonical_absorbPercent_append_numeral ha hs]
        rfl

/-- A percent sign behind an expression that is scanned is at fault itself, if anything is. -/
theorem fault_of_concat_percent (h : expressionTokens u = .ok ts)
    (hf : expressionTokens (u ++ ['%']) = .error f) : f = .unknownSymbol '%' := by
  rw [expressionTokens] at h hf
  rcases canonical_concat_percent_cases u with
    ⟨a, s, rfl, ha, hs, hliteral, hquotient⟩ | hdivisor | hkept
  · have hopening : (s ++ ['/', '1', '0', '0', ')']).head? ≠ some ')' := by
      obtain ⟨d, s, rfl⟩ := List.exists_cons_of_ne_nil hs.1
      rintro ⟨⟩
      exact absurd (hs.2 ')' (by simp)) (by decide)
    rw [canonical_absorbPercent_append_numeral ha hs.2] at h
    rw [hquotient, List.cons_append, scan_append_eq_error_iff (Or.inr (by simp; rfl)) (by simp),
      scan_cons_eq_error_iff (by decide) fun _ => hopening,
      scan_numeral_append_eq_error_iff hs (by simp; rfl)] at hf
    rcases hf with hf | ⟨-, hfault | ⟨-, hf⟩⟩
    · rw [scan_append_of_error hf fun _ hpoint =>
        absurd hpoint (getLast?_canonical_ne_point ?_)] at h
      · cases h
      · exact fun hlast => absurd (ha '.' hlast) (by decide)
    · rw [isLiteral_of_faultAt hfault] at hliteral
      cases hliteral
    · cases hf
  · rw [hdivisor, scan_append_operator_eq_error_iff (by simp), h] at hf
    rcases hf with hf | ⟨-, hf⟩
    · cases hf
    · cases hf
  · rw [hkept, scan_append_eq_error_iff (Or.inr (by simp; rfl)) (by simp), h] at hf
    rcases hf with hf | ⟨-, hf⟩
    · cases hf
    · cases hf
      rfl

/-- A character that expressions are not written with is at fault behind one that is scanned. -/
theorem expressionTokens_concat_unknown (h : expressionTokens u = .ok ts) (hc : ¬InAlphabet c) :
    expressionTokens (u ++ [c]) = .error (.unknownSymbol c) := by
  have hspelling := canonicalChar_eq_self hc
  obtain ⟨hnumeric, hsymbol⟩ := not_or.1 hc
  simp only [List.mem_cons, List.not_mem_nil, or_false, not_or] at hsymbol
  obtain ⟨hplus, hminus, -, -, hstar, hslash, hopening, hclosing, hpercent⟩ := hsymbol
  have hplace : (Lexeme.symbol c).StandsIn [c] [] [] :=
    Lexeme.standsIn_symbol (by simpa using hnumeric) [] []
  have hscan : scan [c] = .error (.unknownSymbol c) :=
    scan_eq_error_iff.2 ((leftmostFault_iff hplace).2 (Or.inl (.unknown (by simp [tokenChars, *]))))
  rw [expressionTokens, canonical_absorbPercent_append (Or.inr (by simpa using hnumeric))
    (by simpa using Ne.symm hpercent) (by simpa using Ne.symm hplus), List.map_singleton, hspelling,
    scan_append_eq_error_iff (Or.inr (by simpa using hnumeric)) (by simpa using fun _ => hclosing)]
  exact Or.inr ⟨⟨ts, h⟩, hscan⟩

theorem expressionTokens_cons_unknown (hc : ¬InAlphabet c) (v : Text) :
    expressionTokens (c :: v) = .error (.unknownSymbol c) := by
  have hfirst : expressionTokens [c] = .error (.unknownSymbol c) :=
    expressionTokens_concat_unknown (u := []) rfl hc
  refine expressionTokens_append_of_getLast? (u := [c]) ?_ hfirst v
  rintro d ⟨⟩
  simpa using (not_or.1 hc).1

end Ends

end Calculator
