import Calculator.Proofs.Expression.Fault
import Calculator.Proofs.Expression.Respelling
import Calculator.Proofs.Text.Nesting

/-!
# Groups of an expression

Writing an expression anew opens and closes groups where it did before, but for the
pair around a percentage (`openGroups?_of_respells`), and scanning makes a token of
each parenthesis (`Token.closes_iff_of_ofLexemes`). So whether an expression is unbalanced
is seen on the text that was typed (`evaluate_eq_unbalanced_iff_openGroups?`).
-/

namespace Calculator

theorem openGroups?_canonicalChar (d : Nat) (c : Char) (v : Text) :
    openGroups? d (canonicalChar c :: v) = openGroups? d (c :: v) := by
  unfold canonicalChar
  split <;> rfl

/-- A text that is written anew opens and closes groups as it did before. -/
theorem openGroups?_of_respells {t w : Text} (h : Respells t w) (d : Nat) :
    openGroups? d w = openGroups? d t := by
  cases h with
  | @literal u v r _ hr _ =>
      refine openGroups?_append_congr (fun k => ?_) u d
      have hnumeral := openGroups?_append_of_not_mem fun c hc =>
        ne_parenthesis_of_isNumeric (hr c hc)
      rw [openGroups?_opening, hnumeral, hnumeral]
      rfl
  | group u v =>
      refine openGroups?_append_congr (fun k => ?_) u d
      cases k <;> rfl
  | spelling u v c => exact openGroups?_append_congr (fun k => openGroups?_canonicalChar k c v) u d
  | plus u v _ =>
      refine openGroups?_append_congr (fun k => ?_) u d
      rfl

theorem openGroups?_canonical (d : Nat) (t : Text) :
    openGroups? d (canonical (absorbPercent t)) = openGroups? d t := by
  have hstep : ∀ {s w : Text}, openGroups? d s = openGroups? d t → Respells s w →
      openGroups? d w = openGroups? d t := fun hs h => (openGroups?_of_respells h d).trans hs
  exact invariant_of_respells (P := fun s => openGroups? d s = openGroups? d t) hstep rfl

theorem closes_iff_of_expressionTokens {t : Text} {ts : List Token}
    (h : expressionTokens t = .ok ts) : Closes 0 ts ↔ openGroups? 0 t = some 0 := by
  have hruns : ∀ r : Text, .run r ∈ lexemes (canonical (absorbPercent t)) →
      ∀ c ∈ r, isNumeric c = true := fun r hr => isNumeric_of_mem_runs (mem_runs_iff.2 hr)
  rw [Token.closes_iff_of_ofLexemes hruns h, text_lexemes, openGroups?_canonical]

/-- An expression is unbalanced if it can be scanned and does not close its groups. -/
theorem evaluate_eq_unbalanced_iff_openGroups? {t : Text} :
    evaluate t = .error .unbalanced ↔
      (∃ ts : List Token, expressionTokens t = .ok ts) ∧ openGroups? 0 t ≠ some 0 := by
  rw [evaluate_eq_unbalanced_iff]
  constructor
  · rintro ⟨ts, hts, hcloses⟩
    exact ⟨⟨ts, hts⟩, fun hopen => hcloses ((closes_iff_of_expressionTokens hts).2 hopen)⟩
  · rintro ⟨⟨ts, hts⟩, hopen⟩
    exact ⟨ts, hts, fun hcloses => hopen ((closes_iff_of_expressionTokens hts).1 hcloses)⟩

end Calculator
