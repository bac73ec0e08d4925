import Mathlib.Data.Prod.Lex
import Mathlib.Logic.Function.Iterate
import Mathlib.Order.WellFounded
import Calculator.Editor.Action
import Calculator.Proofs.Repair.Mending
import Calculator.Proofs.Repair.Settled

/-!
# Repairing again and again

A repair may make a text longer, and may leave it as long as it was. What decreases
at every step is a triple of numbers, compared from the left: the groups that are
not closed, the characters that a repair could take away, and the digits that stand
behind percent signs (`toRepair_lt_of_mends`). So a text can be repaired only finitely often
(`exists_suggest_iterate_eq_none`), and an editor whose suggestions are accepted
comes to an end as well.
-/

namespace Calculator

/-- The opening parentheses in excess of the closing ones. -/
def unclosed (t : Text) : Nat :=
  t.count '(' - t.count ')'

/-- A character that is neither a digit nor a closing parenthesis: no repair writes
one, and some repairs take some away. -/
def isRemovable (c : Char) : Bool :=
  !c.isDigit && c != ')'

/-- How often a digit stands somewhere behind a percent sign. -/
def percentsAhead : Text → Nat
  | [] => 0
  | c :: t => (if c = '%' then t.countP Char.isDigit else 0) + percentsAhead t

/-- What is left to repair in a text. -/
def toRepair (t : Text) : ℕ ×ₗ ℕ ×ₗ ℕ :=
  toLex (unclosed t, toLex (t.countP isRemovable, percentsAhead t))

theorem percentsAhead_append (u v : Text) :
    percentsAhead (u ++ v) =
      percentsAhead u + u.count '%' * v.countP Char.isDigit + percentsAhead v := by
  induction u with
  | nil => simp [percentsAhead]
  | cons c u ih =>
      rw [List.cons_append, percentsAhead, percentsAhead, ih, List.countP_append]
      by_cases hc : c = '%'
      · rw [if_pos hc, if_pos hc, hc, List.count_cons_self, Nat.add_mul, Nat.one_mul]
        omega
      · rw [if_neg hc, if_neg hc, List.count_cons_of_ne hc]
        omega

theorem toRepair_lt {t w : Text}
    (h : unclosed w < unclosed t ∨ unclosed w = unclosed t ∧
      (w.countP isRemovable < t.countP isRemovable ∨
        w.countP isRemovable = t.countP isRemovable ∧ percentsAhead w < percentsAhead t)) :
    toRepair w < toRepair t := by
  rw [toRepair, toRepair, Prod.Lex.toLex_lt_toLex]
  exact h.imp_right fun ⟨hunclosed, hrest⟩ => ⟨hunclosed, Prod.Lex.toLex_lt_toLex.2 hrest⟩

theorem isRemovable_of_isPlain {c : Char} (h : IsPlain c) : isRemovable c = true := by
  have hdigit := (Bool.or_eq_false_iff.1 h.1).1
  rw [isRemovable, hdigit, bne_iff_ne.2 h.2.2]
  rfl

/-- A character that is taken away by itself leaves the same groups open. -/
theorem unclosed_append_cons {c : Char} (h : IsPlain c) (u v : Text) :
    unclosed (u ++ c :: v) = unclosed (u ++ v) := by
  simp only [unclosed, List.count_append, List.count_cons_of_ne h.2.1,
    List.count_cons_of_ne h.2.2]

theorem unclosed_append_group (u v : Text) :
    unclosed (u ++ '(' :: ')' :: v) = unclosed (u ++ v) := by
  have hopening : List.count '(' ('(' :: ')' :: v) = v.count '(' + 1 := by
    rw [List.count_cons_self, List.count_cons_of_ne (by decide)]
  have hclosing : List.count ')' ('(' :: ')' :: v) = v.count ')' + 1 := by
    rw [List.count_cons_of_ne (by decide), List.count_cons_self]
  simp only [unclosed, List.count_append, hopening, hclosing]
  omega

theorem countP_isRemovable_append_lt {c : Char} (h : IsPlain c) (u v : Text) :
    (u ++ v).countP isRemovable < (u ++ c :: v).countP isRemovable := by
  rw [List.countP_append, List.countP_append, List.countP_cons_of_pos (isRemovable_of_isPlain h)]
  omega

theorem countP_isRemovable_append_group_lt (u v : Text) :
    (u ++ v).countP isRemovable < (u ++ '(' :: ')' :: v).countP isRemovable := by
  have hclosing : ¬isRemovable ')' = true := Bool.false_ne_true
  rw [List.countP_append, List.countP_append, List.countP_cons_of_pos rfl,
    List.countP_cons_of_neg hclosing]
  omega

/-- Each step leaves less to repair. -/
theorem toRepair_lt_of_mends {t w : Text} (h : Mends t w) : toRepair w < toRepair t := by
  apply toRepair_lt
  cases h with
  | @repeated u v c hc =>
      have hplain := isPlain_of_isOperator hc
      exact Or.inr ⟨(unclosed_append_cons hplain u (c :: v)).symm,
        Or.inl (countP_isRemovable_append_lt hplain u (c :: v))⟩
  | group u v =>
      exact Or.inr ⟨(unclosed_append_group u v).symm,
        Or.inl (countP_isRemovable_append_group_lt u v)⟩
  | @operand u v c hc =>
      have hplain := isPlain_of_isOperator hc
      have hunclosed := unclosed_append_cons hplain u ('(' :: ')' :: v)
      refine Or.inr ⟨(hunclosed.trans (unclosed_append_group u v)).symm, Or.inl ?_⟩
      exact (countP_isRemovable_append_group_lt u v).trans
        (countP_isRemovable_append_lt hplain u ('(' :: ')' :: v))
  | @percent u v d hd hu =>
      have hpercent : d ≠ '%' := by
        rintro rfl
        cases hd
      have hperm : (u ++ d :: '%' :: v).Perm (u ++ '%' :: d :: v) :=
        (List.Perm.swap ..).append_left u
      refine Or.inr ⟨?_, Or.inr ⟨hperm.countP_eq _, ?_⟩⟩
      · rw [unclosed, unclosed, hperm.count_eq, hperm.count_eq]
      · simp [percentsAhead_append, percentsAhead, hd, hpercent]
  | @start _ c hc =>
      have hplain := isPlain_of_isBlank hc
      exact Or.inr ⟨(unclosed_append_cons hplain [] w).symm,
        Or.inl (countP_isRemovable_append_lt hplain [] w)⟩
  | @ending _ c hc =>
      have hplain := isPlain_of_ending hc
      have hunclosed := unclosed_append_cons hplain w []
      have hless := countP_isRemovable_append_lt hplain w []
      rw [List.append_nil] at hunclosed hless
      exact Or.inr ⟨hunclosed.symm, Or.inl hless⟩
  | close hlt =>
      left
      rw [unclosed, unclosed, List.count_append, List.count_append, List.count_singleton_self,
        List.count_singleton, if_neg (by decide)]
      omega

theorem toRepair_orZero (t : Text) : toRepair t.orZero = toRepair t := by
  unfold Text.orZero
  split
  · next hnil => rw [hnil]; rfl
  · rfl

theorem toRepair_fix_lt {t : Text} {s : Suggestion} (h : suggest t = some s) :
    toRepair s.fix < toRepair t := by
  obtain ⟨w, hfix, hmends⟩ := transGen_mends_of_suggest h
  rw [hfix, toRepair_orZero]
  clear hfix
  induction hmends with
  | single h => exact toRepair_lt_of_mends h
  | tail _ h ih => exact (toRepair_lt_of_mends h).trans ih

/-- The text with the suggestion accepted, if there is one. -/
def repaired (t : Text) : Text :=
  (suggest t).elim t Suggestion.fix

theorem repaired_of_suggest {t : Text} {s : Suggestion} (h : suggest t = some s) :
    repaired t = s.fix := by
  rw [repaired, h, Option.elim_some]

/-- What holds where nothing is suggested, and of a text if it holds of its
suggestion, holds of every text. -/
theorem suggest_induction {P : Text → Prop} (hnone : ∀ t : Text, suggest t = none → P t)
    (hsome : ∀ (t : Text) (s : Suggestion), suggest t = some s → P s.fix → P t) (t : Text) :
    P t := by
  induction t using WellFounded.induction (InvImage.wf toRepair wellFounded_lt) with
  | _ t ih =>
      cases h : suggest t with
      | none => exact hnone t h
      | some s => exact hsome t s h (ih s.fix (toRepair_fix_lt h))

theorem exists_suggest_iterate_eq_none (t : Text) : ∃ n : Nat, suggest (repaired^[n] t) = none := by
  induction t using suggest_induction with
  | hnone t h => exact ⟨0, h⟩
  | hsome t s h ih =>
      obtain ⟨n, hn⟩ := ih
      refine ⟨n + 1, ?_⟩
      rw [Function.iterate_succ_apply, repaired_of_suggest h]
      exact hn

namespace Editor

/-- Accepts the suggestion on offer and evaluates again. -/
def retry (e : Editor) : Editor :=
  e.run [.applyFix, .commit]

/-- There is nothing to try again: the expression has a value, it has none and
nothing is suggested, or it is `0`. -/
def Finished (e : Editor) : Prop :=
  e.executed = true ∨ (∃ r : Report, e.report? = some r) ∧ e.suggestion? = none ∨
    e.buffer = Text.zero

/-- After a suggestion the editor is finished, or it has failed on the text
suggested. -/
theorem retry_of_failed {e : Editor} {r : Report} {s : Suggestion}
    (h : e.status = .failed r (some s)) :
    e.retry.Finished ∨ ∃ r' : Report, e.retry.status = .failed r' (suggest s.fix) := by
  have happly : e.applyFix.1 = e.edit s.fix := by
    rw [applyFix, suggestion?, h]
  have hretry : e.retry = (e.edit s.fix).commit.1 := by
    rw [← happly]
    rfl
  have hediting : (e.edit s.fix).executed = false := rfl
  rw [hretry, commit, hediting, if_neg Bool.false_ne_true]
  split
  · next hzero => exact Or.inl (Or.inr (Or.inr hzero))
  · split
    · exact Or.inl (Or.inl rfl)
    · next f hf => exact Or.inr ⟨Report.on s.fix f, rfl⟩

theorem finished_of_failed {e : Editor} {r : Report} (h : e.status = .failed r none) :
    e.Finished := by
  refine Or.inr (Or.inl ⟨⟨r, ?_⟩, ?_⟩)
  · rw [report?, h]
  · rw [suggestion?, h]

theorem exists_finished_of_failed (t : Text) {e : Editor} {r : Report} {s : Suggestion}
    (h : e.status = .failed r (some s)) (ht : s.fix = t) :
    ∃ n : Nat, (retry^[n] e).Finished := by
  induction t using suggest_induction generalizing e r s with
  | hnone t hnone =>
      rcases retry_of_failed h with hdone | ⟨r', hfailed⟩
      · exact ⟨1, hdone⟩
      · rw [ht, hnone] at hfailed
        exact ⟨1, finished_of_failed hfailed⟩
  | hsome t s' hsome ih =>
      rcases retry_of_failed h with hdone | ⟨r', hfailed⟩
      · exact ⟨1, hdone⟩
      · rw [ht, hsome] at hfailed
        obtain ⟨n, hn⟩ := ih hfailed rfl
        exact ⟨n + 1, hn⟩

/-- Wherever an editor has failed, it is finished after some more tries. -/
theorem exists_finished {e : Editor} {r : Report} (h : e.report? = some r) :
    ∃ n : Nat, (retry^[n] e).Finished := by
  obtain ⟨buffer, status, answer⟩ := e
  cases status with
  | editing => cases h
  | executed x => cases h
  | failed report suggestion =>
      cases suggestion with
      | none => exact ⟨0, finished_of_failed rfl⟩
      | some s => exact exists_finished_of_failed s.fix (r := report) (s := s) rfl rfl

end Editor

/-- Repairing a text again and again comes to an end, at a settled text and never
at an empty one. So does an editor that has failed, if each suggestion is accepted
and evaluated: it shows a result, a fault for which nothing is suggested, or `0`. -/
theorem repair_terminates :
    (∀ t : Text, ∃ n : Nat, suggest (repaired^[n] t) = none) ∧
      (∀ t : Text, suggest t = none ↔ Settled t) ∧
      (∀ (t : Text) (s : Suggestion), suggest t = some s → t ≠ [] → s.fix ≠ []) ∧
      ∀ (e : Editor) (r : Report), e.report? = some r →
        ∃ n : Nat, (Editor.retry^[n] e).Finished := by
  refine ⟨exists_suggest_iterate_eq_none, suggest_eq_none_iff_settled, ?_, ?_⟩
  · exact fun t s h _ => fix_ne_nil_of_suggest h
  · exact fun e r h => Editor.exists_finished h

end Calculator
