import Calculator.Proofs.Expression.Fault
import Calculator.Proofs.Expression.Passes
import Calculator.Proofs.Text.Runs

/-!
# The end of an expression

What is written behind an expression does not change how the expression itself is
written anew, as long as no percent sign and no plus sign is in it
(`canonical_absorbPercent_append`). So closing parentheses behind it add as many tokens,
unless it ends with an opening one and they close an empty group
(`expressionTokens_append_closings`).
-/

namespace Calculator

theorem absorbLiteralPercent_of_not_mem {ls : List Lexeme} (h : .symbol '%' ∉ ls) :
    absorbLiteralPercent ls = ls.flatMap Lexeme.text := by
  induction ls with
  | nil => rfl
  | cons l ls ih =>
      rw [List.mem_cons, not_or] at h
      cases l with
      | symbol c => rw [absorbLiteralPercent_symbol, ih h.2]; rfl
      | run r =>
          have hhead : ls.head? ≠ some (.symbol '%') := fun heq => h.2 (List.mem_of_mem_head? heq)
          rw [absorbLiteralPercent_run hhead, ih h.2]
          rfl

theorem mem_of_symbol_mem_lexemes {c : Char} {t : Text} (h : .symbol c ∈ lexemes t) : c ∈ t := by
  have htext := text_lexemes t
  rw [← htext]
  exact List.mem_flatMap.2 ⟨_, h, List.mem_singleton_self c⟩

theorem absorbGroupPercent_append {u v : Text} (hv : v.head? ≠ some '%') :
    absorbGroupPercent (u ++ v) = absorbGroupPercent u ++ absorbGroupPercent v := by
  induction u using absorbGroupPercent.induct with
  | case1 rest ih => simp [absorbGroupPercent, ih]
  | case2 c rest hne ih =>
      have hrest : ∀ tail : Text, c = ')' → rest ++ v = '%' :: tail → False := by
        intro tail hc heq
        cases rest with
        | nil =>
            rw [List.nil_append] at heq
            exact hv (by rw [heq]; rfl)
        | cons d rest =>
            obtain ⟨rfl, -⟩ := List.cons.inj heq
            exact hne rest hc rfl
      rw [List.cons_append, absorbGroupPercent, absorbGroupPercent, ih, List.cons_append]
      · exact hne
      · exact hrest
  | case3 => rfl

theorem dropUnaryPlus_append {u v : Text} (hv : '+' ∉ v) (due : Bool) :
    dropUnaryPlus due (u ++ v) = dropUnaryPlus due u ++ v := by
  have hkept : ∀ due : Bool, dropUnaryPlus due v = v := by
    induction v with
    | nil => exact fun _ => rfl
    | cons c v ih =>
        intro due
        rw [List.mem_cons, not_or] at hv
        rw [dropUnaryPlus, if_neg fun h => hv.1 h.1.symm, ih hv.2]
  induction u generalizing due with
  | nil => exact hkept due
  | cons c u ih =>
      rw [List.cons_append, dropUnaryPlus, dropUnaryPlus]
      split
      · exact ih due
      · rw [ih, List.cons_append]

/-- What is written behind a text without parting a numeral is kept, if there is
neither a percent sign nor a plus sign in it. -/
theorem canonical_absorbPercent_append {u v : Text}
    (hcut : (∀ c ∈ u.getLast?, isNumeric c = false) ∨ ∀ c ∈ v.head?, isNumeric c = false)
    (hpercent : '%' ∉ v) (hplus : '+' ∉ v) :
    canonical (absorbPercent (u ++ v)) =
      canonical (absorbPercent u) ++ v.map canonicalChar := by
  have hlexemes : lexemes (u ++ v) = lexemes u ++ lexemes v :=
    hcut.elim (fun hu => lexemes_append_of_getLast hu v) fun hv => lexemes_append_of_head hv u
  have hsymbol : .symbol '%' ∉ lexemes v := fun h => hpercent (mem_of_symbol_mem_lexemes h)
  have hfirst : (lexemes v).head? ≠ some (.symbol '%') := fun h =>
    hsymbol (List.mem_of_mem_head? h)
  have hhead : v.head? ≠ some '%' := fun h => hpercent (List.mem_of_mem_head? h)
  have habsorbed : absorbPercent (u ++ v) = absorbPercent u ++ v := by
    rw [absorbPercent, hlexemes, absorbLiteralPercent_append hfirst,
      absorbLiteralPercent_of_not_mem hsymbol, text_lexemes, absorbGroupPercent_append hhead,
      absorbGroupPercent_of_not_mem hpercent, absorbPercent]
  have hplus' : '+' ∉ v.map canonicalChar := by
    intro hmem
    obtain ⟨c, hc, heq⟩ := List.mem_map.1 hmem
    rcases canonicalChar_cases c with h | h | h
    · exact hplus (by rwa [← heq, h])
    · rw [h] at heq; cases heq
    · rw [h] at heq; cases heq
  rw [canonical, habsorbed, List.map_append, dropUnaryPlus_append hplus', canonical]

/-- Where a text ends neither with a percent sign nor with a plus sign, what is scanned
ends with the same character. -/
theorem getLast?_canonical {t : Text} (ht : ∀ c ∈ t.getLast?, c ≠ '%' ∧ c ≠ '+') :
    (canonical (absorbPercent t)).getLast? = t.getLast?.map canonicalChar := by
  obtain ⟨u, s, rfl, hu, hs⟩ := exists_cut t
  rcases List.eq_nil_or_concat' s with rfl | ⟨s, c, rfl⟩
  · rw [List.append_nil] at ht ⊢
    rcases List.eq_nil_or_concat' u with rfl | ⟨u, c, rfl⟩
    · rfl
    · have hc := ht c (by simp)
      rw [canonical_absorbPercent_append (Or.inr (by simpa using hu)) (by simpa using hc.1.symm)
        (by simpa using hc.2.symm)]
      simp
  · have hnone : ∀ d : Char, isNumeric d = false → d ∉ s ++ [c] := by
      intro d hd hmem
      rw [hs d hmem] at hd
      cases hd
    rw [canonical_absorbPercent_append (Or.inl hu) (hnone '%' rfl) (hnone '+' rfl)]
    simp

theorem lexemes_closings (n : Nat) :
    lexemes (List.replicate n ')') = List.replicate n (.symbol ')') := by
  induction n with
  | zero => rfl
  | succ n ih => rw [List.replicate_succ, lexemes_cons_symbol rfl, ih, List.replicate_succ]

section Closings

variable {t : Text} (n : Nat)

/-- Closing parentheses are scanned behind the rest. -/
theorem expressionTokens_append_replicate :
    expressionTokens (t ++ List.replicate n ')') =
      Token.ofLexemes true
        (lexemes (canonical (absorbPercent t)) ++ List.replicate n (.symbol ')')) := by
  have hnone : ∀ c : Char, c ≠ ')' → c ∉ List.replicate n ')' := fun c hc hmem =>
    hc (List.eq_of_mem_replicate hmem)
  have hhead : ∀ c ∈ (List.replicate n ')').head?, isNumeric c = false := by
    intro c hc
    rw [List.eq_of_mem_replicate (List.mem_of_mem_head? hc)]
    rfl
  have hspelling : (List.replicate n ')').map canonicalChar = List.replicate n ')' :=
    List.map_replicate
  rw [expressionTokens, scan, canonical_absorbPercent_append (Or.inr hhead)
    (hnone '%' (by decide)) (hnone '+' (by decide)), hspelling, lexemes_append_of_head hhead,
    lexemes_closings]

/-- The character that is scanned last. -/
theorem getLast?_lexemes_canonical (ht : ∀ c ∈ t.getLast?, c ≠ '%' ∧ c ≠ '+') :
    (lexemes (canonical (absorbPercent t))).getLast? = some (.symbol '(') ↔
      t.getLast? = some '(' := by
  rw [getLast?_lexemes_eq_symbol_iff rfl, getLast?_canonical ht, Option.map_eq_some_iff]
  constructor
  · rintro ⟨c, hc, hopening⟩
    rcases canonicalChar_cases c with h | h | h
    · rwa [← hopening, h]
    · rw [h] at hopening; cases hopening
    · rw [h] at hopening; cases hopening
  · exact fun h => ⟨'(', h, rfl⟩

theorem expressionTokens_append_closings (ht : ∀ c ∈ t.getLast?, c ≠ '%' ∧ c ≠ '+')
    (hlast : t.getLast? ≠ some '(') {ts : List Token} (h : expressionTokens t = .ok ts) :
    expressionTokens (t ++ List.replicate n ')') = .ok (ts ++ List.replicate n .closing) := by
  rw [expressionTokens_append_replicate]
  exact Token.ofLexemes_append_closings h (fun hl => hlast ((getLast?_lexemes_canonical ht).1 hl)) n

theorem expressionTokens_append_empty_group (hlast : t.getLast? = some '(') {ts : List Token}
    (h : expressionTokens t = .ok ts) :
    expressionTokens (t ++ List.replicate (n + 1) ')') = .error .malformed := by
  have ht : ∀ c ∈ t.getLast?, c ≠ '%' ∧ c ≠ '+' := by
    rw [hlast]
    rintro c ⟨⟩
    decide
  rw [expressionTokens_append_replicate]
  exact Token.ofLexemes_append_empty_group h ((getLast?_lexemes_canonical ht).2 hlast) n

end Closings

end Calculator
