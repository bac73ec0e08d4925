import Calculator.Proofs.Expression.Fault
import Calculator.Proofs.Expression.Respelling

/-!
# Points of an expression

Writing an expression anew puts no second point into a numeral (`PointsApart.respells`):
it writes digits, and characters that part the numerals on their sides. So the fault of
two points in a numeral is one of the text that was typed
(`exists_run_of_decimalPoint`). Nor does it take a point away (`PointsApart.of_respells`),
and what can be scanned has no such numeral (`pointsApart_of_expressionTokens`).
-/

namespace Calculator

/-- No run of the text has two points. -/
def PointsApart (t : Text) : Prop :=
  ∀ r ∈ runs t, r.count '.' ≤ 1

namespace PointsApart

theorem append_symbol {c : Char} (hc : isNumeric c = false) {u v : Text} :
    PointsApart (u ++ c :: v) ↔ PointsApart u ∧ PointsApart v := by
  rw [PointsApart, runs_append_symbol hc]
  exact List.forall_mem_append

theorem cons_symbol {c : Char} (hc : isNumeric c = false) {v : Text} :
    PointsApart (c :: v) ↔ PointsApart v := by
  rw [PointsApart, runs_cons_symbol hc, PointsApart]

theorem append_of_getLast {u : Text} (hu : ∀ c ∈ u.getLast?, isNumeric c = false) {v : Text} :
    PointsApart (u ++ v) ↔ PointsApart u ∧ PointsApart v := by
  rw [PointsApart, runs_append_of_getLast hu]
  exact List.forall_mem_append

/-- A digit in front of a text puts no point into its first run. -/
theorem cons_digit {c : Char} (hc : c.isDigit = true) {v : Text} (h : PointsApart v) :
    PointsApart (c :: v) := by
  have hpoint : c ≠ '.' := by
    rintro rfl
    cases hc
  intro q hq
  rcases runs_cons_numeric (isNumeric_of_isDigit hc) v with heq | ⟨r, rs, hv, heq⟩
  · rw [heq, List.mem_cons] at hq
    rcases hq with rfl | hq
    · exact (List.count_le_length (l := [c])).trans (Nat.le_refl 1)
    · exact h q hq
  · rw [heq, List.mem_cons] at hq
    rw [PointsApart, hv] at h
    rcases hq with rfl | hq
    · rw [List.count_cons_of_ne hpoint]
      exact h r (List.mem_cons_self ..)
    · exact h q (List.mem_cons_of_mem r hq)

theorem of_cons_digit {c : Char} (hc : c.isDigit = true) {v : Text} (h : PointsApart (c :: v)) :
    PointsApart v := by
  intro q hq
  rcases runs_cons_numeric (isNumeric_of_isDigit hc) v with heq | ⟨r, rs, hv, heq⟩
  · exact h q (heq ▸ List.mem_cons_of_mem [c] hq)
  · rw [PointsApart, heq] at h
    rw [hv, List.mem_cons] at hq
    rcases hq with rfl | hq
    · exact (List.count_le_count_cons ..).trans (h _ (List.mem_cons_self ..))
    · exact h q (List.mem_cons_of_mem _ hq)

/-- A text that is written anew has no second point in a run either. -/
theorem respells {t w : Text} (h : PointsApart t) (hstep : Respells t w) : PointsApart w := by
  cases hstep with
  | @literal u v r hu hr _ =>
      obtain ⟨hbefore, hbehind⟩ := (append_of_getLast hu).1 h
      obtain ⟨hnumeral, hrest⟩ := (append_symbol (by decide)).1 hbehind
      have hhundred : PointsApart ('1' :: '0' :: '0' :: ')' :: v) :=
        cons_digit rfl (cons_digit rfl (cons_digit rfl ((cons_symbol (by decide)).2 hrest)))
      refine (append_symbol (by decide)).2 ⟨hbefore, ?_⟩
      exact (append_symbol (by decide)).2 ⟨hnumeral, hhundred⟩
  | group u v =>
      obtain ⟨hbefore, hbehind⟩ := (append_symbol (by decide)).1 h
      have hrest := (cons_symbol (by decide)).1 hbehind
      refine (append_symbol (by decide)).2 ⟨hbefore, (cons_symbol (by decide)).2 ?_⟩
      exact cons_digit rfl (cons_digit rfl (cons_digit rfl hrest))
  | spelling u v c =>
      cases hc : isNumeric c with
      | true => rwa [canonicalChar_of_isNumeric hc]
      | false =>
          have hspelled := isNumeric_canonicalChar c
          rw [hc] at hspelled
          exact (append_symbol hspelled).2 ((append_symbol hc).1 h)
  | plus u v hu =>
      refine (append_of_getLast fun c hc => ?_).2 ((append_symbol (by decide)).1 h)
      rw [hu c hc]
      rfl

/-- Neither has the text that it was written for. -/
theorem of_respells {t w : Text} (h : PointsApart w) (hstep : Respells t w) : PointsApart t := by
  cases hstep with
  | @literal u v r hu hr _ =>
      obtain ⟨hbefore, hbehind⟩ := (append_symbol (by decide)).1 h
      obtain ⟨hnumeral, hhundred⟩ := (append_symbol (by decide)).1 hbehind
      have hrest : PointsApart (')' :: v) :=
        of_cons_digit rfl (of_cons_digit rfl (of_cons_digit rfl hhundred))
      refine (append_of_getLast hu).2 ⟨hbefore, (append_symbol (by decide)).2 ⟨hnumeral, ?_⟩⟩
      exact (cons_symbol (by decide)).1 hrest
  | group u v =>
      obtain ⟨hbefore, hbehind⟩ := (append_symbol (by decide)).1 h
      have hhundred := (cons_symbol (by decide)).1 hbehind
      have hrest := of_cons_digit rfl (of_cons_digit rfl (of_cons_digit rfl hhundred))
      exact (append_symbol (by decide)).2 ⟨hbefore, (cons_symbol (by decide)).2 hrest⟩
  | spelling u v c =>
      cases hc : isNumeric c with
      | true => rwa [canonicalChar_of_isNumeric hc] at h
      | false =>
          have hspelled := isNumeric_canonicalChar c
          rw [hc] at hspelled
          exact (append_symbol hc).2 ((append_symbol hspelled).1 h)
  | plus u v hu =>
      refine (append_symbol (by decide)).2 ((append_of_getLast fun c hc => ?_).1 h)
      rw [hu c hc]
      rfl

end PointsApart

/-- Where each numeral is read, no numeral that was typed has two points. -/
theorem pointsApart_of_expressionTokens {t : Text} {ts : List Token}
    (h : expressionTokens t = .ok ts) : PointsApart t := by
  refine of_canonical_absorbPercent (fun hw hstep => hw.of_respells hstep) fun r hr => ?_
  have hliteral := Token.isLiteral_of_ofLexemes h (mem_runs_iff.1 hr)
  rw [isLiteral, Bool.and_eq_true, decide_eq_true_eq] at hliteral
  exact hliteral.1

/-- An expression with the fault of two points has two of them in a run. -/
theorem exists_run_of_decimalPoint {t : Text} (h : evaluate t = .error .decimalPoint) :
    ∃ r ∈ runs t, 1 < r.count '.' := by
  by_contra hnone
  have hapart : PointsApart t := fun r hr => not_lt.1 fun hlt => hnone ⟨r, hr, hlt⟩
  have hscanned : PointsApart (canonical (absorbPercent t)) :=
    invariant_of_respells (fun hs hstep => hs.respells hstep) hapart
  rcases fault_of_evaluate h with hscan | ⟨ts, -, ⟨hf, -⟩ | hf | hf⟩
  · rcases Token.fault_of_ofLexemes hscan with ⟨-, r, hr, hlt⟩ | ⟨c, hf, -⟩ | hf
    · exact absurd (hscanned r (mem_runs_iff.2 hr)) (not_le.2 hlt)
    · cases hf
    · cases hf
  · cases hf
  · cases hf
  · cases hf

end Calculator
