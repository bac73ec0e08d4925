import Calculator.Expression
import Calculator.Proofs.Text.Runs

/-!
# The passes over a text, piece by piece

The passes that prepare an expression read it from left to right and look no
further than to the next character. Each therefore treats the pieces of a text
one after the other, as long as the cut does not part what belongs together: a
numeral (`lexemes_append_symbol`) or a numeral and its percent sign
(`absorbLiteralPercent_append`). Where nothing is left to do a pass is the
identity (`absorbGroupPercent_of_not_mem`).
-/

namespace Calculator

theorem absorbLiteralPercent_symbol (c : Char) (ls : List Lexeme) :
    absorbLiteralPercent (.symbol c :: ls) = c :: absorbLiteralPercent ls := by
  simp [absorbLiteralPercent, Lexeme.text]

/-- A run is kept unless it is a literal with a percent sign behind it. -/
theorem absorbLiteralPercent_run_of_not {r : Text} {ls : List Lexeme}
    (h : isLiteral r = true → ls.head? ≠ some (.symbol '%')) :
    absorbLiteralPercent (.run r :: ls) = r ++ absorbLiteralPercent ls := by
  match ls with
  | [] => rfl
  | .run q :: ls => simp [absorbLiteralPercent, Lexeme.text]
  | .symbol c :: ls =>
      have hc : ¬(c = '%' ∧ isLiteral r = true) := by
        rintro ⟨rfl, hr⟩
        exact h hr rfl
      rw [absorbLiteralPercent, if_neg hc, absorbLiteralPercent_symbol]

theorem absorbLiteralPercent_run {r : Text} {ls : List Lexeme}
    (h : ls.head? ≠ some (.symbol '%')) :
    absorbLiteralPercent (.run r :: ls) = r ++ absorbLiteralPercent ls :=
  absorbLiteralPercent_run_of_not fun _ => h

/-- A cut that does not part a literal and its percent sign does not matter to the first pass. -/
theorem absorbLiteralPercent_append_of_not {ls ms : List Lexeme}
    (h : ∀ r : Text, ls.getLast? = some (.run r) → isLiteral r = true →
      ms.head? ≠ some (.symbol '%')) :
    absorbLiteralPercent (ls ++ ms) =
      absorbLiteralPercent ls ++ absorbLiteralPercent ms := by
  have htail : ∀ {l : Lexeme} {ls : List Lexeme} {r : Text}, ls.getLast? = some (.run r) →
      (l :: ls).getLast? = some (.run r) := fun hr => by
    rw [List.getLast?_cons, hr, Option.getD_some]
  induction ls using absorbLiteralPercent.induct with
  | case1 => rfl
  | case2 r c rest hc ih =>
      rw [List.cons_append, List.cons_append, absorbLiteralPercent, absorbLiteralPercent,
        if_pos hc, if_pos hc, ih fun q hq => h q (htail (htail hq))]
      simp only [List.append_assoc, List.cons_append]
  | case3 r c rest hc ih =>
      rw [List.cons_append, List.cons_append, absorbLiteralPercent, absorbLiteralPercent,
        if_neg hc, if_neg hc, ih fun q hq => h q (htail (htail hq)), List.append_assoc,
        List.cons_append]
  | case4 l rest hne ih =>
      have hih := ih fun q hq => h q (htail hq)
      cases l with
      | symbol c =>
          rw [List.cons_append, absorbLiteralPercent_symbol, absorbLiteralPercent_symbol, hih,
            List.cons_append]
      | run r =>
          have hrest : isLiteral r = true → (rest ++ ms).head? ≠ some (.symbol '%') := by
            cases rest with
            | nil => exact h r rfl
            | cons x rest =>
                rintro - heq
                obtain rfl := Option.some_inj.1 heq
                exact hne r '%' rest rfl rfl
          have hkept : isLiteral r = true → rest.head? ≠ some (.symbol '%') := by
            rintro - heq
            obtain ⟨tail, rfl⟩ := List.head?_eq_some_iff.1 heq
            exact hne r '%' tail rfl rfl
          rw [List.cons_append, absorbLiteralPercent_run_of_not hrest,
            absorbLiteralPercent_run_of_not hkept, hih, List.append_assoc]

/-- A cut that no percent sign follows does not matter to the first pass. -/
theorem absorbLiteralPercent_append {ls ms : List Lexeme}
    (h : ms.head? ≠ some (.symbol '%')) :
    absorbLiteralPercent (ls ++ ms) =
      absorbLiteralPercent ls ++ absorbLiteralPercent ms :=
  absorbLiteralPercent_append_of_not fun _ _ _ => h

theorem absorbGroupPercent_cons_of_ne {c : Char} (hc : c ≠ ')') (v : Text) :
    absorbGroupPercent (c :: v) = c :: absorbGroupPercent v := by
  rw [absorbGroupPercent]
  exact fun rest hclosing _ => hc hclosing

theorem absorbGroupPercent_cons_of_head {v : Text} (hv : v.head? ≠ some '%') (c : Char) :
    absorbGroupPercent (c :: v) = c :: absorbGroupPercent v := by
  rw [absorbGroupPercent]
  rintro rest - rfl
  exact hv rfl

/-- The second pass changes nothing in a numeral. -/
theorem absorbGroupPercent_numeric {r : Text} (hr : ∀ c ∈ r, isNumeric c = true) (t : Text) :
    absorbGroupPercent (r ++ t) = r ++ absorbGroupPercent t := by
  induction r with
  | nil => rfl
  | cons c r ih =>
      obtain ⟨hc, hr⟩ := List.forall_mem_cons.1 hr
      have hclosing : c ≠ ')' := by
        rintro rfl
        cases hc
      rw [List.cons_append, absorbGroupPercent_cons_of_ne hclosing, ih hr, List.cons_append]

/-- Without percent signs the second pass has nothing to do. -/
theorem absorbGroupPercent_of_not_mem {t : Text} (h : '%' ∉ t) : absorbGroupPercent t = t := by
  induction t with
  | nil => rfl
  | cons c t ih =>
      rw [List.mem_cons, not_or] at h
      have hhead : ∀ rest : Text, c = ')' → t = '%' :: rest → False := by
        rintro rest - rfl
        exact h.2 (List.mem_cons_self ..)
      rw [absorbGroupPercent, ih h.2]
      exact hhead

theorem canonicalChar_cases (c : Char) :
    canonicalChar c = c ∨ canonicalChar c = '*' ∨ canonicalChar c = '/' := by
  unfold canonicalChar
  split
  · exact Or.inr (Or.inl rfl)
  · exact Or.inr (Or.inr rfl)
  · exact Or.inl rfl

theorem canonicalChar_canonicalChar (c : Char) :
    canonicalChar (canonicalChar c) = canonicalChar c := by
  rcases canonicalChar_cases c with h | h | h
  · rw [h, h]
  · rw [h]; rfl
  · rw [h]; rfl

theorem canonicalChar_of_isNumeric {c : Char} (h : isNumeric c = true) :
    canonicalChar c = c := by
  unfold canonicalChar
  split
  · exact absurd h (by decide)
  · exact absurd h (by decide)
  · rfl

/-- A numeral has one spelling. -/
theorem map_canonicalChar_numeric {n : Text} (hn : ∀ c ∈ n, isNumeric c = true) :
    n.map canonicalChar = n := by
  rw [List.map_congr_left fun c hc => canonicalChar_of_isNumeric (hn c hc)]
  exact List.map_id' n

theorem isNumeric_canonicalChar (c : Char) : isNumeric (canonicalChar c) = isNumeric c := by
  unfold canonicalChar
  split <;> rfl

/-- The characters of a numeral are no plus signs, so all of them are kept. -/
theorem dropUnaryPlus_numeric {n : Text} (hne : n ≠ []) (hn : ∀ c ∈ n, isNumeric c = true)
    (due : Bool) (rest : Text) :
    dropUnaryPlus due (n ++ rest) = n ++ dropUnaryPlus false rest := by
  induction n generalizing due with
  | nil => exact absurd rfl hne
  | cons c n ih =>
      have hc : isNumeric c = true := hn c (List.mem_cons_self ..)
      have hplus : ¬(c = '+' ∧ due = true) := by
        rintro ⟨rfl, -⟩
        exact absurd hc (by decide)
      have hopen : (c == '(') = false := by
        rw [beq_eq_false_iff_ne]
        rintro rfl
        exact absurd hc (by decide)
      rw [List.cons_append, dropUnaryPlus, if_neg hplus, hopen, List.cons_append]
      cases n with
      | nil => rfl
      | cons d n =>
          rw [ih (by simp) fun x hx => hn x (List.mem_cons_of_mem _ hx)]

/-- The characters behind a character that is no plus sign are judged by it alone. -/
theorem dropUnaryPlus_append_cons {c : Char} (hc : c ≠ '+') (due : Bool) (u v : Text) :
    dropUnaryPlus due (u ++ c :: v) =
      dropUnaryPlus due u ++ c :: dropUnaryPlus (c == '(') v := by
  induction u generalizing due with
  | nil => simp [dropUnaryPlus, hc]
  | cons d u ih =>
      rw [List.cons_append, dropUnaryPlus, dropUnaryPlus]
      split
      · exact ih due
      · rw [ih, List.cons_append]

theorem head?_dropUnaryPlus_false (t : Text) : (dropUnaryPlus false t).head? = t.head? := by
  cases t with
  | nil => rfl
  | cons c t => rw [dropUnaryPlus, if_neg (by simp)]; rfl

end Calculator
