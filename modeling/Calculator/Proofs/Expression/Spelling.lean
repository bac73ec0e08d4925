import Mathlib.Logic.Relation
import Calculator.Proofs.Expression.Passes
import Calculator.Proofs.Text.Runs

/-!
# Display spelling and canonical spelling

The canonical spelling of a text is written from left to right, and whether a plus sign is left
out depends only on what was written before it (`canonicalFrom`). No step of it makes or parts a
numeral, and no character that a percent sign may follow comes or goes, so the passes over the
percent signs and the canonical spelling can be taken in either order
(`absorbPercent_canonical`). An expression therefore has the value of its canonical spelling.

Two texts have one canonical spelling exactly if one is reached from the other by changing single
operators and single unary plus signs, in either direction (`eqvGen_canonizes_iff`).
-/

namespace Calculator

open Relation (EqvGen ReflTransGen)

/-- The second text is the first one with one operator in its canonical spelling or without one
unary plus sign. -/
inductive Canonizes : Text → Text → Prop
  | times (u v : Text) : Canonizes (u ++ '×' :: v) (u ++ '*' :: v)
  | divide (u v : Text) : Canonizes (u ++ '÷' :: v) (u ++ '/' :: v)
  | plus (u v : Text) : (∀ c ∈ u.getLast?, c = '(') → Canonizes (u ++ '+' :: v) (u ++ v)

/-- The canonical spelling of a text where `due` says that it stands first or behind an opening
parenthesis. -/
def canonicalFrom (due : Bool) (t : Text) : Text :=
  dropUnaryPlus due (t.map canonicalChar)

theorem canonical_eq_canonicalFrom (t : Text) : canonical t = canonicalFrom true t := rfl

section Passes

variable {due : Bool} {c d : Char} {r s t u v : Text}

/-- Only operators have two spellings. -/
theorem canonicalChar_eq_iff (hd : d ∉ ['×', '÷', '*', '/']) : canonicalChar c = d ↔ c = d := by
  simp only [List.mem_cons, List.not_mem_nil, or_false, not_or] at hd
  obtain ⟨htimes, hdivide, hstar, hslash⟩ := hd
  unfold canonicalChar
  split
  · exact iff_of_false (Ne.symm hstar) (Ne.symm htimes)
  · exact iff_of_false (Ne.symm hslash) (Ne.symm hdivide)
  · exact Iff.rfl

theorem canonicalChar_beq_opening (c : Char) : (canonicalChar c == '(') = (c == '(') := by
  rw [Bool.eq_iff_iff, beq_iff_eq, beq_iff_eq, canonicalChar_eq_iff (by decide)]

@[simp] theorem canonicalFrom_nil (due : Bool) : canonicalFrom due [] = [] := rfl

theorem canonicalFrom_cons (due : Bool) (c : Char) (t : Text) :
    canonicalFrom due (c :: t) =
      if c = '+' ∧ due = true then canonicalFrom due t
      else canonicalChar c :: canonicalFrom (c == '(') t := by
  have hplus : canonicalChar c = '+' ↔ c = '+' := canonicalChar_eq_iff (by decide)
  rw [canonicalFrom, List.map_cons, dropUnaryPlus, canonicalChar_beq_opening]
  simp only [hplus, canonicalFrom]

theorem canonicalFrom_plus (t : Text) : canonicalFrom true ('+' :: t) = canonicalFrom true t := rfl

theorem canonicalFrom_cons_of_not (h : ¬(c = '+' ∧ due = true)) (t : Text) :
    canonicalFrom due (c :: t) = canonicalChar c :: canonicalFrom (c == '(') t := by
  rw [canonicalFrom_cons, if_neg h]

theorem canonicalFrom_numeric (hne : r ≠ []) (hr : ∀ c ∈ r, isNumeric c = true) (due : Bool)
    (t : Text) : canonicalFrom due (r ++ t) = r ++ canonicalFrom false t := by
  rw [canonicalFrom, List.map_append, map_canonicalChar_numeric hr, dropUnaryPlus_numeric hne hr,
    canonicalFrom]

/-- A quotient in parentheses is its own canonical spelling, with anything behind it. -/
theorem canonicalFrom_quotient (hne : r ≠ []) (hr : ∀ c ∈ r, isNumeric c = true) (due : Bool)
    (t : Text) :
    canonicalFrom due ('(' :: r ++ ['/', '1', '0', '0', ')'] ++ t) =
      '(' :: r ++ ['/', '1', '0', '0', ')'] ++ canonicalFrom false t := by
  rw [List.append_assoc, List.cons_append, canonicalFrom_cons_of_not (by simp),
    canonicalFrom_numeric hne hr, List.append_assoc, List.cons_append]
  rfl

/-- What is behind a character that is no plus sign is judged by this character alone. -/
theorem canonicalFrom_append_cons (hc : c ≠ '+') (due : Bool) (u v : Text) :
    canonicalFrom due (u ++ c :: v) =
      canonicalFrom due u ++ canonicalChar c :: canonicalFrom (c == '(') v := by
  have hspelled : canonicalChar c ≠ '+' := fun h => hc ((canonicalChar_eq_iff (by decide)).1 h)
  rw [canonicalFrom, List.map_append, List.map_cons, dropUnaryPlus_append_cons hspelled,
    canonicalChar_beq_opening, canonicalFrom, canonicalFrom]

theorem head?_canonicalFrom_false (t : Text) :
    (canonicalFrom false t).head? = t.head?.map canonicalChar := by
  rw [canonicalFrom, head?_dropUnaryPlus_false, List.head?_map]

theorem canonicalFrom_canonicalFrom (due : Bool) (t : Text) :
    canonicalFrom due (canonicalFrom due t) = canonicalFrom due t := by
  induction t generalizing due with
  | nil => rfl
  | cons c t ih =>
      rw [canonicalFrom_cons]
      split
      · exact ih due
      · next hplus =>
          rw [← canonicalChar_eq_iff (by decide)] at hplus
          rw [canonicalFrom_cons_of_not hplus, canonicalChar_canonicalChar,
            canonicalChar_beq_opening, ih]

/-- The canonical spelling has the numerals of the text with the same percent signs behind
them. -/
theorem absorbLiteralPercent_canonicalFrom (due : Bool) (t : Text) :
    absorbLiteralPercent (lexemes (canonicalFrom due t)) =
      canonicalFrom due (absorbLiteralPercent (lexemes t)) := by
  induction t using run_induction generalizing due with
  | hlast r hr =>
      by_cases hne : r = []
      · subst hne
        rfl
      · have hkept : canonicalFrom due r = r := by
          have happend := canonicalFrom_numeric hne hr due []
          rwa [List.append_nil, canonicalFrom_nil, List.append_nil] at happend
        rw [hkept, lexemes_of_numeric hne hr, absorbLiteralPercent_run (by simp),
          absorbLiteralPercent, List.append_nil, hkept]
  | hnext r c t hr hc ih =>
      have hspelled : isNumeric (canonicalChar c) = false := (isNumeric_canonicalChar c).trans hc
      by_cases hne : r = []
      · subst hne
        rw [List.nil_append, lexemes_cons_symbol hc, absorbLiteralPercent_symbol,
          canonicalFrom_cons, canonicalFrom_cons]
        split
        · exact ih due
        · rw [lexemes_cons_symbol hspelled, absorbLiteralPercent_symbol, ih]
      · have hpercent : canonicalChar c = '%' ↔ c = '%' := canonicalChar_eq_iff (by decide)
        rw [canonicalFrom_numeric hne hr, canonicalFrom_cons_of_not (by simp),
          lexemes_append_symbol hspelled, lexemes_append_symbol hc, lexemes_of_numeric hne hr,
          List.singleton_append, List.singleton_append, absorbLiteralPercent, absorbLiteralPercent,
          ih]
        by_cases habsorbed : c = '%' ∧ isLiteral r = true
        · -- behind the quotient as behind the percent sign no operand is due
          obtain ⟨rfl, hliteral⟩ := habsorbed
          rw [if_pos ⟨rfl, hliteral⟩, if_pos ⟨rfl, hliteral⟩, canonicalFrom_quotient hne hr]
          rfl
        · rw [if_neg habsorbed, if_neg (by rwa [hpercent]), canonicalFrom_numeric hne hr,
            canonicalFrom_cons_of_not (by simp)]

/-- The canonical spelling has the groups of the text with the same percent signs behind them. -/
theorem absorbGroupPercent_canonicalFrom (due : Bool) (t : Text) :
    absorbGroupPercent (canonicalFrom due t) = canonicalFrom due (absorbGroupPercent t) := by
  fun_induction absorbGroupPercent t generalizing due with
  | case1 rest ih =>
      rw [canonicalFrom_cons_of_not (by simp), canonicalFrom_cons_of_not (by simp),
        List.cons_append, canonicalFrom_cons_of_not (by simp)]
      change [')', '/', '1', '0', '0'] ++ absorbGroupPercent (canonicalFrom false rest) =
        [')', '/', '1', '0', '0'] ++ canonicalFrom false (absorbGroupPercent rest)
      rw [ih]
  | case2 c rest hne ih =>
      rw [canonicalFrom_cons, canonicalFrom_cons]
      split
      · exact ih due
      · have hkept : absorbGroupPercent (canonicalChar c :: canonicalFrom (c == '(') rest) =
            canonicalChar c :: absorbGroupPercent (canonicalFrom (c == '(') rest) := by
          by_cases hc : c = ')'
          · refine absorbGroupPercent_cons_of_head (fun hpercent => ?_) _
            have hbehind : (c == '(') = false := by rw [hc]; rfl
            rw [hbehind, head?_canonicalFrom_false, Option.map_eq_some_iff] at hpercent
            obtain ⟨d, hd, hspelled⟩ := hpercent
            obtain rfl : d = '%' := (canonicalChar_eq_iff (by decide)).1 hspelled
            obtain ⟨w, hw⟩ := List.head?_eq_some_iff.1 hd
            exact hne w hc hw
          · refine absorbGroupPercent_cons_of_ne (fun hclosing => hc ?_) _
            exact (canonicalChar_eq_iff (by decide)).1 hclosing
        rw [hkept, ih]
  | case3 => rfl

/-- The percent signs may be written as divisions before or after the spelling is made
canonical. -/
theorem absorbPercent_canonical (t : Text) :
    absorbPercent (canonical t) = canonical (absorbPercent t) := by
  rw [absorbPercent, canonical_eq_canonicalFrom, absorbLiteralPercent_canonicalFrom,
    absorbGroupPercent_canonicalFrom, absorbPercent, canonical_eq_canonicalFrom]

theorem canonical_canonical (t : Text) : canonical (canonical t) = canonical t :=
  canonicalFrom_canonicalFrom true t

theorem evaluate_canonical (t : Text) : evaluate (canonical t) = evaluate t := by
  have htokens : expressionTokens (canonical t) = expressionTokens t := by
    rw [expressionTokens, absorbPercent_canonical, canonical_canonical, expressionTokens]
  rw [evaluate, htokens, evaluate]

end Passes

section Steps

variable {s t u v : Text}

theorem canonical_eq_of_canonizes (h : Canonizes s t) : canonical s = canonical t := by
  cases h with
  | times u v =>
      rw [canonical, canonical, List.map_append, List.map_append]
      rfl
  | divide u v =>
      rw [canonical, canonical, List.map_append, List.map_append]
      rfl
  | plus u v hu =>
      rcases List.eq_nil_or_concat' u with rfl | ⟨u, c, rfl⟩
      · rfl
      · obtain rfl : c = '(' := hu c List.getLast?_concat
        rw [canonical_eq_canonicalFrom, canonical_eq_canonicalFrom, List.append_assoc,
          List.append_assoc, List.singleton_append, List.singleton_append,
          canonicalFrom_append_cons (by decide), canonicalFrom_append_cons (by decide)]
        exact congrArg _ (congrArg _ (canonicalFrom_plus v))

theorem canonizes_canonicalChar (u v : Text) (c : Char) :
    ReflTransGen Canonizes (u ++ c :: v) (u ++ canonicalChar c :: v) := by
  unfold canonicalChar
  split
  · exact .single (.times u v)
  · exact .single (.divide u v)
  · exact .refl

/-- A text leads to its canonical spelling, step by step. -/
theorem canonizes_canonicalFrom (due : Bool) (u t : Text)
    (hu : due = true → ∀ c ∈ u.getLast?, c = '(') :
    ReflTransGen Canonizes (u ++ t) (u ++ canonicalFrom due t) := by
  induction t generalizing due u with
  | nil => exact .refl
  | cons c t ih =>
      rw [canonicalFrom_cons]
      split
      · next hplus =>
          obtain ⟨rfl, hdue⟩ := hplus
          exact .head (.plus u t (hu hdue)) (ih due u hu)
      · refine (canonizes_canonicalChar u t c).trans ?_
        have hlast : (c == '(') = true → ∀ d ∈ (u ++ [canonicalChar c]).getLast?, d = '(' := by
          rw [← canonicalChar_beq_opening]
          intro hc
          simpa using eq_of_beq hc
        simpa using ih (c == '(') (u ++ [canonicalChar c]) hlast

/-- Two texts that differ by spellings only are those with one canonical spelling. -/
theorem eqvGen_canonizes_iff : EqvGen Canonizes s t ↔ canonical s = canonical t := by
  constructor
  · intro h
    induction h with
    | rel _ _ h => exact canonical_eq_of_canonizes h
    | refl _ => rfl
    | symm _ _ _ ih => exact ih.symm
    | trans _ _ _ _ _ ihxy ihyz => exact ihxy.trans ihyz
  · intro h
    have hcanonical : ∀ x : Text, EqvGen Canonizes x (canonical x) := fun x =>
      EqvGen.reflTransGen_le_eqvGen Canonizes _ _ (canonizes_canonicalFrom true [] x (by simp))
    have hs := hcanonical s
    rw [h] at hs
    exact .trans _ _ _ hs (.symm _ _ (hcanonical t))

end Steps

/-- The canonical spelling is one of the expression, it can be taken before or after the percent
signs are written as divisions, and taking it twice changes nothing more. So an expression and
every other spelling of it have the same outcome. -/
theorem spellings_interchangeable (s t : Text) :
    absorbPercent (canonical t) = canonical (absorbPercent t) ∧
      canonical (canonical t) = canonical t ∧
      evaluate (canonical t) = evaluate t ∧
      (EqvGen Canonizes s t → evaluate s = evaluate t) := by
  refine ⟨absorbPercent_canonical t, canonical_canonical t, evaluate_canonical t, fun h => ?_⟩
  rw [← evaluate_canonical s, eqvGen_canonizes_iff.1 h, evaluate_canonical t]

/-- `+6÷(+50%)` and `6/(50%)` have the same outcome. -/
theorem spellings_interchangeable_quotient :
    EqvGen Canonizes ['+', '6', '÷', '(', '+', '5', '0', '%', ')']
        ['6', '/', '(', '5', '0', '%', ')'] ∧
      evaluate ['+', '6', '÷', '(', '+', '5', '0', '%', ')'] =
        evaluate ['6', '/', '(', '5', '0', '%', ')'] := by
  have hspelled : EqvGen Canonizes ['+', '6', '÷', '(', '+', '5', '0', '%', ')']
      ['6', '/', '(', '5', '0', '%', ')'] := eqvGen_canonizes_iff.2 rfl
  exact ⟨hspelled, (spellings_interchangeable _ _).2.2.2 hspelled⟩

end Calculator
