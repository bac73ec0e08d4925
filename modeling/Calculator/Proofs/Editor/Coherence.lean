import Calculator.Proofs.Editor.Commit
import Calculator.Proofs.Editor.Segment
import Calculator.Proofs.Repair.Fix

/-!
# The state of the editor

What the status of an editor says about its texts is true in every session: a
result that is shown is the result of the expression that is kept, and a report
and a suggestion are those of the buffer (`coherent_run`). Every action but one
either edits, and then nothing is said any more, or evaluates. The change of sign
leaves a report as it is; there the buffer is a number too large for binary64,
and the report does not depend on its sign (`statusHolds_toggleSign`).
-/

namespace Calculator

open Buffer (isBareNumber)

theorem Glyph.text_ne_nil (g : Glyph) : g.text ≠ [] := by
  cases g <;> exact List.cons_ne_nil _ _

namespace Buffer

theorem TypesNumeric.ne_nil {t s : Text} {g : Glyph} (h : TypesNumeric t g s) : s ≠ [] := by
  cases h with
  | pointFirst _ => exact List.append_ne_nil_of_right_ne_nil t (List.cons_ne_nil _ _)
  | point _ _ => exact List.append_ne_nil_of_right_ne_nil t (List.cons_ne_nil _ _)
  | zeroFirst _ => exact List.append_ne_nil_of_right_ne_nil t (List.cons_ne_nil _ _)
  | digits _ _ _ => exact List.append_ne_nil_of_right_ne_nil t g.text_ne_nil
  | replace _ _ _ => exact List.append_ne_nil_of_right_ne_nil t.dropLast g.text_ne_nil

theorem Appends.ne_nil {t s : Text} {g : Glyph} (h : Appends t g s) (ht : t ≠ []) : s ≠ [] := by
  cases h with
  | refused => exact ht
  | replace _ => exact List.append_ne_nil_of_right_ne_nil _ (List.cons_ne_nil _ _)
  | operator _ _ => exact List.append_ne_nil_of_left_ne_nil ht _
  | percent _ => exact List.append_ne_nil_of_left_ne_nil ht _
  | numeric hs => exact hs.ne_nil

theorem Toggles.ne_nil {t s : Text} (h : Toggles t s) (ht : t ≠ []) : s ≠ [] := by
  cases h with
  | refused => exact ht
  | first => exact List.cons_ne_nil _ _
  | _ => exact List.append_ne_nil_of_right_ne_nil _ (List.cons_ne_nil _ _)

theorem insertAnswer_ne_nil {t answer : Text} (ht : t ≠ []) (hanswer : answer ≠ []) :
    insertAnswer t answer ≠ [] := by
  unfold insertAnswer
  split
  · exact hanswer
  · split
    · exact List.append_ne_nil_of_left_ne_nil ht _
    · exact List.append_ne_nil_of_left_ne_nil ht _

end Buffer

/-- What the status of an editor says is true of its texts. -/
def Editor.StatusHolds (e : Editor) : Prop :=
  match e.status with
  | .editing => True
  | .executed expression =>
      ∃ v : Float, evaluate expression = .ok v ∧ e.buffer = resultText v ∧
        e.lastAnswer = resultText v
  | .failed report suggestion =>
      evaluate e.buffer = .error report.fault ∧ report = Report.on e.buffer report.fault ∧
        suggestion = suggest e.buffer

/-- The status holds, the buffer is not empty, and the last answer is a number. -/
structure Editor.Coherent (e : Editor) : Prop where
  buffer_ne_nil : e.buffer ≠ []
  isBareNumber_lastAnswer : isBareNumber e.lastAnswer = true
  statusHolds : e.StatusHolds

namespace Editor

namespace Coherent

theorem ne_nil_of_isBareNumber {t : Text} (h : isBareNumber t = true) : t ≠ [] := by
  rintro rfl
  cases h

theorem new : ({} : Editor).Coherent :=
  ⟨List.cons_ne_nil _ _, rfl, trivial⟩

theorem edit {e : Editor} (h : e.Coherent) {buffer : Text} (hbuffer : buffer ≠ []) :
    (e.edit buffer).Coherent :=
  ⟨hbuffer, h.isBareNumber_lastAnswer, trivial⟩

theorem append {e : Editor} (h : e.Coherent) (g : Glyph) : (e.append g).Coherent := by
  unfold Editor.append
  split
  · exact h.edit ((Buffer.appends_append _ _).ne_nil h.buffer_ne_nil)
  · exact h.edit (List.append_ne_nil_of_left_ne_nil h.buffer_ne_nil _)
  · exact h.edit ((Buffer.appends_append _ _).ne_nil (List.cons_ne_nil _ _))
  · refine h.edit ?_
    split
    · exact (Buffer.appends_append _ _).ne_nil (List.cons_ne_nil _ _)
    · exact List.cons_ne_nil _ _

theorem toggleGroup {e : Editor} (h : e.Coherent) : e.toggleGroup.Coherent := by
  refine h.edit ?_
  split
  · exact List.cons_ne_nil _ _
  · exact (Buffer.toggles_toggleGroup _).ne_nil h.buffer_ne_nil

theorem insertAnswer {e : Editor} (h : e.Coherent) : e.insertAnswer.Coherent := by
  have hanswer := ne_nil_of_isBareNumber h.isBareNumber_lastAnswer
  refine h.edit ?_
  split
  · exact hanswer
  · exact Buffer.insertAnswer_ne_nil h.buffer_ne_nil hanswer

/-- The result that is shown is a bare number. -/
theorem isBareNumber_buffer {e : Editor} (h : e.Coherent) {x : Text}
    (hstatus : e.status = .executed x) : isBareNumber e.buffer = true := by
  have hholds := h.statusHolds
  rw [StatusHolds, hstatus] at hholds
  obtain ⟨v, hv, hbuffer, -⟩ := hholds
  rw [hbuffer]
  exact isBareNumber_resultText (isFinite_of_evaluate hv)

/-- A number that is too large is reported in the same way with the other sign. -/
theorem statusHolds_toggleSign {e : Editor} (h : e.Coherent)
    (hbare : isBareNumber e.buffer = true) {r : Report} {s : Option Suggestion}
    (hstatus : e.status = .failed r s) :
    ({ e with buffer := Buffer.toggleSign e.buffer, status := .failed r s } :
      Editor).StatusHolds := by
  have hholds := h.statusHolds
  rw [StatusHolds, hstatus] at hholds
  obtain ⟨hfault, hreport, hsuggestion⟩ := hholds
  have hbare' := isBareNumber_toggleSign hbare
  obtain ⟨hmalformed, hvalue⟩ := evaluate_toggleSign hbare hfault
  rw [hmalformed] at hreport
  rw [report_of_isBareNumber hbare] at hreport
  rw [suggest_of_isBareNumber hbare] at hsuggestion
  rw [StatusHolds]
  simp only [hmalformed]
  rw [report_of_isBareNumber hbare', suggest_of_isBareNumber hbare']
  exact ⟨hvalue, hreport, hsuggestion⟩

theorem toggleSign {e : Editor} (h : e.Coherent) : e.toggleSign.Coherent := by
  unfold Editor.toggleSign
  split
  · next x hstatus =>
      have hbare := isBareNumber_toggleSign (h.isBareNumber_buffer hstatus)
      exact h.edit (ne_nil_of_isBareNumber hbare)
  · split
    · next hne hbare =>
        refine ⟨ne_nil_of_isBareNumber (isBareNumber_toggleSign hbare),
          h.isBareNumber_lastAnswer, ?_⟩
        cases hstatus : e.status with
        | editing => trivial
        | executed x => exact absurd hstatus (hne x)
        | failed r s => exact h.statusHolds_toggleSign hbare hstatus
    · exact h

theorem commit {e : Editor} (h : e.Coherent) : e.commit.1.Coherent := by
  have hcommits := e.commits_commit
  generalize e.commit = outcome at hcommits
  cases hcommits with
  | shown _ => exact h
  | zero _ _ => exact ⟨h.buffer_ne_nil, h.isBareNumber_lastAnswer, trivial⟩
  | value _ _ hv =>
      have hbare := isBareNumber_resultText (isFinite_of_evaluate hv)
      exact ⟨ne_nil_of_isBareNumber hbare, hbare, _, hv, rfl, rfl⟩
  | fault _ _ hf => exact ⟨h.buffer_ne_nil, h.isBareNumber_lastAnswer, hf, rfl, rfl⟩

/-- The suggestion on offer is the one for the buffer. -/
theorem suggest_of_suggestion? {e : Editor} (h : e.Coherent) {s : Suggestion}
    (hs : e.suggestion? = some s) : suggest e.buffer = some s := by
  obtain ⟨buffer, status, answer⟩ := e
  cases status with
  | failed r suggestion =>
      cases hs
      exact h.statusHolds.2.2.symm
  | editing => cases hs
  | executed x => cases hs

theorem applyFix {e : Editor} (h : e.Coherent) : e.applyFix.1.Coherent := by
  unfold Editor.applyFix
  split
  · next s hs => exact h.edit (fix_ne_nil_of_suggest (h.suggest_of_suggestion? hs))
  · exact h

/-- One action. -/
theorem perform {e : Editor} (h : e.Coherent) (a : Action) : (e.perform a).1.Coherent := by
  cases a with
  | append g => exact h.append g
  | toggleGroup => exact h.toggleGroup
  | backspace => exact h.edit (Text.orZero_ne_nil _)
  | toggleSign => exact h.toggleSign
  | insertAnswer => exact h.insertAnswer
  | commit => exact h.commit
  | applyFix => exact h.applyFix
  | load expression => exact h.edit (Text.orZero_ne_nil _)
  | clear => exact h.edit (List.cons_ne_nil _ _)

theorem run {e : Editor} (h : e.Coherent) (actions : List Action) : (e.run actions).Coherent := by
  induction actions generalizing e with
  | nil => exact h
  | cons a actions ih => exact ih (h.perform a)

end Coherent

theorem executed_iff (e : Editor) :
    e.executed = true ↔ ∃ x : Text, e.lastExpression? = some x := by
  obtain ⟨buffer, status, answer⟩ := e
  cases status with
  | executed x => exact ⟨fun _ => ⟨x, rfl⟩, fun _ => rfl⟩
  | _ => simp [executed, lastExpression?]

theorem suggestion?_of_report? {e : Editor} (h : e.report? = none) : e.suggestion? = none := by
  obtain ⟨buffer, status, answer⟩ := e
  cases status with
  | failed r s => cases h
  | _ => rfl

namespace Coherent

theorem of_lastExpression? {e : Editor} (h : e.Coherent) {x : Text}
    (hx : e.lastExpression? = some x) :
    ∃ v : Float, evaluate x = .ok v ∧ e.buffer = resultText v ∧ e.lastAnswer = resultText v ∧
      e.report? = none := by
  obtain ⟨buffer, status, answer⟩ := e
  cases status with
  | executed y =>
      cases hx
      obtain ⟨v, hv, hbuffer, hanswer⟩ := h.statusHolds
      exact ⟨v, hv, hbuffer, hanswer, rfl⟩
  | editing => cases hx
  | failed r s => cases hx

theorem of_report? {e : Editor} (h : e.Coherent) {r : Report} (hr : e.report? = some r) :
    e.executed = false ∧ evaluate e.buffer = .error r.fault ∧
      r = Report.on e.buffer r.fault ∧ e.suggestion? = suggest e.buffer := by
  obtain ⟨buffer, status, answer⟩ := e
  cases status with
  | failed report suggestion =>
      cases hr
      exact ⟨rfl, h.statusHolds⟩
  | editing => cases hr
  | executed x => cases hr

end Coherent

end Editor

/-- In every session from a new editor on, the texts of the editor belong
together: no buffer is empty, a result comes with its expression and without a
report, and a report and a suggestion are those of the buffer. -/
theorem coherent_run (actions : List Action) :
    let e := ({} : Editor).run actions
    e.buffer ≠ [] ∧
      (e.executed = true ↔ ∃ x : Text, e.lastExpression? = some x) ∧
      (∀ x : Text, e.lastExpression? = some x →
        ∃ v : Float, evaluate x = .ok v ∧ e.buffer = resultText v ∧
          e.lastAnswer = resultText v ∧ e.report? = none) ∧
      (∀ r : Report, e.report? = some r →
        e.executed = false ∧ evaluate e.buffer = .error r.fault ∧
          r = Report.on e.buffer r.fault ∧ e.suggestion? = suggest e.buffer) ∧
      (e.report? = none → e.suggestion? = none) := by
  intro e
  have h : e.Coherent := Editor.Coherent.new.run actions
  refine ⟨h.buffer_ne_nil, e.executed_iff, ?_, ?_, Editor.suggestion?_of_report?⟩
  · exact fun x hx => h.of_lastExpression? hx
  · exact fun r hr => h.of_report? hr

end Calculator
