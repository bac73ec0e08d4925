import Calculator.Proofs.Expression.Spelling

/-!
# The passes over a text, step by step

Before an expression is scanned it is written anew: percent signs become divisions,
display spellings canonical ones, and unary plus signs go. Here that is taken apart
into steps that write one place of the text anew (`Respells`), so that a property of
the text that is scanned is traced back to the text that was typed by looking at
each step once (`invariant_of_respells`). The bridge is `respells_canonical`; the steps
of the spelling are those of `Canonizes`.
-/

namespace Calculator

open Relation (ReflTransGen)

/-- One place of a text is written anew. -/
inductive Respells : Text → Text → Prop
  | literal (u v : Text) {r : Text} :
      (∀ c ∈ u.getLast?, isNumeric c = false) → (∀ c ∈ r, isNumeric c = true) →
        isLiteral r = true →
        Respells (u ++ (r ++ '%' :: v)) (u ++ '(' :: (r ++ '/' :: '1' :: '0' :: '0' :: ')' :: v))
  | group (u v : Text) :
      Respells (u ++ ')' :: '%' :: v) (u ++ ')' :: '/' :: '1' :: '0' :: '0' :: v)
  | spelling (u v : Text) (c : Char) : Respells (u ++ c :: v) (u ++ canonicalChar c :: v)
  | plus (u v : Text) : (∀ c ∈ u.getLast?, c = '(') → Respells (u ++ '+' :: v) (u ++ v)

theorem respells_absorbLiteralPercent {u : Text} (hu : ∀ c ∈ u.getLast?, isNumeric c = false)
    (t : Text) : ReflTransGen Respells (u ++ t) (u ++ absorbLiteralPercent (lexemes t)) := by
  induction t using run_induction generalizing u with
  | hlast r hr =>
      by_cases hne : r = []
      · rw [hne]
        exact .refl
      · rw [lexemes_of_numeric hne hr, absorbLiteralPercent_run (by simp), absorbLiteralPercent,
          List.append_nil]
  | hnext r c t hr hc ih =>
      have hrest : ∀ w : Text, ∀ d ∈ (u ++ w ++ [c]).getLast?, isNumeric d = false := fun w => by
        simpa using hc
      by_cases hne : r = []
      · subst hne
        rw [List.nil_append, lexemes_cons_symbol hc, absorbLiteralPercent_symbol]
        simpa using ih (hrest [])
      · rw [lexemes_append_symbol hc, lexemes_of_numeric hne hr, List.singleton_append,
          absorbLiteralPercent]
        split
        · next hpercent =>
            obtain ⟨rfl, hliteral⟩ := hpercent
            refine .head (.literal u t hu hr hliteral) ?_
            have hclosed : ∀ d ∈ ((u ++ '(' :: r ++ ['/', '1', '0', '0']) ++ [')']).getLast?,
                isNumeric d = false := by
              rw [List.getLast?_concat]
              rintro d ⟨⟩
              rfl
            simpa using ih hclosed
        · simpa using ih (hrest r)

theorem respells_absorbGroupPercent (u t : Text) :
    ReflTransGen Respells (u ++ t) (u ++ absorbGroupPercent t) := by
  fun_induction absorbGroupPercent t generalizing u with
  | case1 rest ih =>
      refine .head (.group u rest) ?_
      simpa using ih (u ++ [')', '/', '1', '0', '0'])
  | case2 c rest hne ih => simpa using ih (u ++ [c])
  | case3 => exact .refl

theorem respells_of_canonizes {t w : Text} (h : Canonizes t w) : Respells t w := by
  cases h with
  | times u v => exact .spelling u v '×'
  | divide u v => exact .spelling u v '÷'
  | plus u v hu => exact .plus u v hu

/-- The text that is scanned is reached step by step. -/
theorem respells_canonical (t : Text) :
    ReflTransGen Respells t (canonical (absorbPercent t)) := by
  have hliteral := respells_absorbLiteralPercent (u := []) (by simp) t
  have hgroup := respells_absorbGroupPercent [] (absorbLiteralPercent (lexemes t))
  have hspelling : ReflTransGen Canonizes (absorbPercent t) (canonical (absorbPercent t)) :=
    canonizes_canonicalFrom true [] (absorbPercent t) (by simp)
  have hcanonical : ReflTransGen Respells (absorbPercent t) (canonical (absorbPercent t)) :=
    hspelling.lift id fun _ _ => respells_of_canonizes
  exact (hliteral.trans hgroup).trans hcanonical

/-- What every step keeps is true of the text that is scanned. -/
theorem invariant_of_respells {P : Text → Prop} (hstep : ∀ {t w : Text}, P t → Respells t w → P w)
    {t : Text} (ht : P t) : P (canonical (absorbPercent t)) := by
  have hsteps := respells_canonical t
  generalize canonical (absorbPercent t) = w at hsteps
  induction hsteps with
  | refl => exact ht
  | tail _ h ih => exact hstep ih h

/-- What every step goes back to is true of the text that was typed. -/
theorem of_canonical_absorbPercent {P : Text → Prop}
    (hstep : ∀ {t w : Text}, P w → Respells t w → P t) {t : Text}
    (h : P (canonical (absorbPercent t))) : P t := by
  have hsteps := respells_canonical t
  generalize canonical (absorbPercent t) = w at hsteps h
  induction hsteps with
  | refl => exact h
  | tail _ hlast ih => exact ih (hstep h hlast)

end Calculator
