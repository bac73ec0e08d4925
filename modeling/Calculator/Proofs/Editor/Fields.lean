import Calculator.Editor.Action

/-!
# The editor as six fields

The status of an editor is one of three, and what goes with it cannot outlive it. Here the same
editor is kept in fields that know nothing of one another: whether a result is shown, the report,
the suggestion and the last expression are set and cleared one by one, by each operation as far
as it is concerned (`Fields.perform`).

`fields_perform` is the simulation: an operation on the fields of an editor leads to the fields
of the editor after it, with the same reply. So what the constructors of `Status` rule out does
not come about in the fields either, in any session (`fieldsCoupled_run`).
-/

namespace Calculator

namespace Editor

/-- The state of an editor in six fields. -/
structure Fields where
  buffer : Text := Text.zero
  executed : Bool := false
  report : Option Report := none
  suggestion : Option Suggestion := none
  lastAnswer : Text := Text.zero
  lastExpression : Option Text := none
  deriving DecidableEq

namespace Fields

/-- Clears what is known of the last evaluation, but not whether a result is shown. -/
def clearDiagnosis (s : Fields) : Fields :=
  { s with report := none, suggestion := none, lastExpression := none }

/-- Goes on with another buffer that shows no result. -/
def edit (s : Fields) (buffer : Text) : Fields :=
  { s.clearDiagnosis with executed := false, buffer }

def append (s : Fields) (g : Glyph) : Fields :=
  if s.report.isSome then
    s.edit (if g.canStart then Buffer.append Text.zero g else Text.zero)
  else if s.executed then
    match g with
    | .operator op => s.edit (s.buffer ++ [op.glyph])
    | g => s.edit (Buffer.append Text.zero g)
  else { s.clearDiagnosis with buffer := Buffer.append s.buffer g }

def toggleGroup (s : Fields) : Fields :=
  if s.executed then s.edit ['(']
  else { s.clearDiagnosis with buffer := Buffer.toggleGroup s.buffer }

def backspace (s : Fields) : Fields :=
  s.edit (Buffer.backspace s.buffer)

/-- Neither the report nor the suggestion is cleared. -/
def toggleSign (s : Fields) : Fields :=
  let s := { s with lastExpression := none }
  if s.executed || Buffer.isBareNumber s.buffer then
    { s with executed := false, buffer := Buffer.toggleSign s.buffer }
  else s

def insertAnswer (s : Fields) : Fields :=
  if s.executed then s.edit s.lastAnswer
  else { s.clearDiagnosis with buffer := Buffer.insertAnswer s.buffer s.lastAnswer }

/-- The last expression stays where the buffer is `0`. -/
def commit (s : Fields) : Fields × Option Calculation :=
  if s.executed then (s, none)
  else
    let s := { s with report := none, suggestion := none }
    if s.buffer = Text.zero then (s, none)
    else
      match evaluate s.buffer with
      | .ok value =>
          let result := resultText value
          ({ s with
              lastAnswer := result
              lastExpression := some s.buffer
              buffer := result
              executed := true },
            some ⟨s.buffer, result⟩)
      | .error fault =>
          ({ s with
              report := some (Report.on s.buffer fault)
              suggestion := suggest s.buffer
              lastExpression := none
              executed := false },
            none)

def applyFix (s : Fields) : Fields × Bool :=
  match s.suggestion with
  | some suggestion => (s.edit suggestion.fix, true)
  | none => (s, false)

def load (s : Fields) (expression : Text) : Fields :=
  s.edit expression.orZero

def clear (s : Fields) : Fields :=
  s.edit Text.zero

/-- The result that the expression being typed would have. -/
def preview (s : Fields) : Option Text :=
  if s.executed || s.report.isSome || Buffer.isBareNumber s.buffer then none
  else (evaluate s.buffer).toOption.map resultText

/-- Does one action. -/
def perform (s : Fields) : Action → Fields × Reply
  | .append g => (s.append g, .done)
  | .toggleGroup => (s.toggleGroup, .done)
  | .backspace => (s.backspace, .done)
  | .toggleSign => (s.toggleSign, .done)
  | .insertAnswer => (s.insertAnswer, .done)
  | .commit => s.commit.map id .calculated
  | .applyFix => s.applyFix.map id .applied
  | .load expression => (s.load expression, .done)
  | .clear => (s.clear, .done)

/-- Does a list of actions, the first one first. -/
def run (s : Fields) (actions : List Action) : Fields :=
  actions.foldl (fun s a => (s.perform a).1) s

/-- What the fields say of one another. -/
structure Coupled (s : Fields) : Prop where
  executed_iff : s.executed = true ↔ s.lastExpression.isSome = true
  executed_of_report : s.report.isSome = true → s.executed = false
  report_of_suggestion : s.suggestion.isSome = true → s.report.isSome = true

end Fields

/-- The fields that an editor stands for. -/
def fields (e : Editor) : Fields where
  buffer := e.buffer
  executed := e.executed
  report := e.report?
  suggestion := e.suggestion?
  lastAnswer := e.lastAnswer
  lastExpression := e.lastExpression?

section Simulation

variable (e : Editor)

theorem fields_edit (t : Text) : e.fields.edit t = (e.edit t).fields := rfl

theorem fields_append (g : Glyph) : e.fields.append g = (e.append g).fields := by
  obtain ⟨buffer, status, answer⟩ := e
  cases status with
  | editing => rfl
  | executed x => cases g <;> rfl
  | failed r s => cases g <;> rfl

theorem fields_toggleGroup : e.fields.toggleGroup = e.toggleGroup.fields := by
  obtain ⟨buffer, status, answer⟩ := e
  cases status <;> rfl

theorem fields_toggleSign : e.fields.toggleSign = e.toggleSign.fields := by
  obtain ⟨buffer, status, answer⟩ := e
  by_cases hbare : Buffer.isBareNumber buffer = true <;> cases status <;>
    simp [Fields.toggleSign, toggleSign, edit, fields, executed, lastExpression?, report?,
      suggestion?, hbare]

theorem fields_insertAnswer : e.fields.insertAnswer = e.insertAnswer.fields := by
  obtain ⟨buffer, status, answer⟩ := e
  cases status <;> rfl

theorem fields_commit : e.fields.commit = e.commit.map fields id := by
  have hbuffer : e.fields.buffer = e.buffer := rfl
  have hshown : e.fields.executed = e.executed := rfl
  cases hexecuted : e.executed with
  | true => simp only [Fields.commit, commit, hshown, hexecuted, if_true, Prod.map, id]
  | false =>
      have hlast : e.fields.lastExpression = none := by
        cases hstatus : e.status <;> simp_all [fields, executed, lastExpression?]
      by_cases hzero : e.buffer = Text.zero
      · -- the last expression is not cleared here, but there is none
        simp only [Fields.commit, commit, hbuffer, hshown, hlast, hexecuted, hzero,
          Bool.false_eq_true, if_true, if_false]
        rfl
      · cases hvalue : evaluate e.buffer <;>
          simp only [Fields.commit, commit, hbuffer, hshown, hexecuted, hzero, hvalue,
            Bool.false_eq_true, if_false] <;>
          rfl

theorem fields_applyFix : e.fields.applyFix = e.applyFix.map fields id := by
  obtain ⟨buffer, status, answer⟩ := e
  cases status with
  | editing => rfl
  | executed x => rfl
  | failed r s => cases s <;> rfl

theorem fields_preview : e.fields.preview = e.preview := by
  obtain ⟨buffer, status, answer⟩ := e
  cases status with
  | editing => simp [Fields.preview, preview, fields, executed, report?]
  | executed x => rfl
  | failed r s => rfl

/-- The fields of an editor follow it through every operation. -/
theorem fields_perform (a : Action) :
    e.fields.perform a = (e.perform a).map fields id := by
  cases a with
  | append g => exact congrArg (·, Reply.done) (fields_append e g)
  | toggleGroup => exact congrArg (·, Reply.done) (fields_toggleGroup e)
  | backspace => rfl
  | toggleSign => exact congrArg (·, Reply.done) (fields_toggleSign e)
  | insertAnswer => exact congrArg (·, Reply.done) (fields_insertAnswer e)
  | commit => rw [Fields.perform, fields_commit]; rfl
  | applyFix => rw [Fields.perform, fields_applyFix]; rfl
  | load x => rfl
  | clear => rfl

theorem fields_run (actions : List Action) : e.fields.run actions = (e.run actions).fields := by
  induction actions generalizing e with
  | nil => rfl
  | cons a actions ih =>
      rw [run_cons, ← ih, Fields.run, List.foldl_cons, fields_perform]
      rfl

theorem coupled_fields : e.fields.Coupled := by
  obtain ⟨buffer, status, answer⟩ := e
  cases status with
  | editing => exact ⟨by simp [fields, executed, lastExpression?], nofun, nofun⟩
  | executed x => exact ⟨by simp [fields, executed, lastExpression?], nofun, nofun⟩
  | failed r s => exact ⟨by simp [fields, executed, lastExpression?], fun _ => rfl, fun _ => rfl⟩

end Simulation

/-- In every session that begins with empty fields, they are those of an editor, and agree with
one another: there is a last expression exactly where a result is shown, no report there, and no
suggestion without a report. -/
theorem fieldsCoupled_run (actions : List Action) :
    ({} : Fields).run actions = (({} : Editor).run actions).fields ∧
      (({} : Fields).run actions).Coupled := by
  have hrun : ({} : Fields).run actions = (({} : Editor).run actions).fields :=
    fields_run {} actions
  exact ⟨hrun, hrun ▸ coupled_fields _⟩

end Editor

end Calculator
