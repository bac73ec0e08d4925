import Calculator.Decimal
import Calculator.Editor.Buffer
import Calculator.Expression
import Calculator.Repair
import Calculator.Zone

/-!
# The editor

The editor of a session: a buffer, the status of what the buffer shows, and the
last answer. The buffer is being edited, or it shows the result of an expression
that was executed, or it holds an expression that failed, with the report on the
fault and perhaps a suggestion. These are the three constructors of `Status`, so
that a result with a pending report, or a suggestion without one, cannot occur.

Every operation is total. Only `commit` evaluates for good; `preview` evaluates
without touching the state.
-/

namespace Calculator

/-- What the buffer of an editor shows. -/
inductive Status
  /-- An expression being typed. -/
  | editing
  /-- The result of `expression`. -/
  | executed (expression : Text)
  /-- An expression that has no value. -/
  | failed (report : Report) (suggestion : Option Suggestion)
  deriving DecidableEq, Repr

/-- A successful calculation, as it goes into a history. -/
structure Calculation where
  expression : Text
  result : Text
  deriving DecidableEq, Repr

/-- The state of the input of one session. A new editor holds `0`, and so does
its last answer. -/
structure Editor where
  buffer : Text := Text.zero
  status : Status := .editing
  lastAnswer : Text := Text.zero
  deriving DecidableEq, Repr

namespace Editor

/-- The buffer shows a result. -/
def executed (e : Editor) : Bool :=
  match e.status with
  | .executed _ => true
  | _ => false

/-- The expression whose result the buffer shows. -/
def lastExpression? (e : Editor) : Option Text :=
  match e.status with
  | .executed expression => some expression
  | _ => none

/-- The report on the expression in the buffer, if it failed. -/
def report? (e : Editor) : Option Report :=
  match e.status with
  | .failed report _ => some report
  | _ => none

/-- The repair on offer. -/
def suggestion? (e : Editor) : Option Suggestion :=
  match e.status with
  | .failed _ suggestion => suggestion
  | _ => none

/-- The result that the expression being typed would have. A number by itself
has none, nor has an expression without a value. -/
def preview (e : Editor) : Option Text :=
  match e.status with
  | .editing =>
      if Buffer.isBareNumber e.buffer then none
      else (evaluate e.buffer).toOption.map resultText
  | _ => none

/-- Goes on editing with another buffer. -/
def edit (e : Editor) (buffer : Text) : Editor :=
  { e with buffer, status := .editing }

/-- Types a glyph. After a result an operator goes on with it and anything else
starts anew; after a failure everything does. -/
def append (e : Editor) (g : Glyph) : Editor :=
  match e.status, g with
  | .editing, g => e.edit (Buffer.append e.buffer g)
  | .executed _, .operator op => e.edit (e.buffer ++ [op.glyph])
  | .executed _, g => e.edit (Buffer.append Text.zero g)
  | .failed _ _, g =>
      e.edit (if g.canStart then Buffer.append Text.zero g else Text.zero)

/-- Closes or opens a group. After a result a new expression is opened. -/
def toggleGroup (e : Editor) : Editor :=
  e.edit (if e.executed then ['('] else Buffer.toggleGroup e.buffer)

/-- Takes the last character of the buffer away. -/
def backspace (e : Editor) : Editor :=
  e.edit (Buffer.backspace e.buffer)

/-- Changes the sign of a result or of a number by itself. A result is edited
from then on; the report on a number that failed stays. -/
def toggleSign (e : Editor) : Editor :=
  match e.status with
  | .executed _ => e.edit (Buffer.toggleSign e.buffer)
  | _ =>
      if Buffer.isBareNumber e.buffer then { e with buffer := Buffer.toggleSign e.buffer }
      else e

/-- Writes the last answer into the buffer. -/
def insertAnswer (e : Editor) : Editor :=
  e.edit (if e.executed then e.lastAnswer else Buffer.insertAnswer e.buffer e.lastAnswer)

/-- Evaluates the buffer. A success puts the result in its place, a failure
leaves it and reports the fault; `0` and a result already shown are not
evaluated. -/
def commit (e : Editor) : Editor × Option Calculation :=
  if e.executed then (e, none)
  else if e.buffer = Text.zero then ({ e with status := .editing }, none)
  else
    match evaluate e.buffer with
    | .ok value =>
        let result := resultText value
        ({ buffer := result, status := .executed e.buffer, lastAnswer := result },
          some ⟨e.buffer, result⟩)
    | .error fault =>
        ({ e with status := .failed (Report.on e.buffer fault) (suggest e.buffer) }, none)

/-- Puts the suggested text into the buffer; says whether there was one. -/
def applyFix (e : Editor) : Editor × Bool :=
  match e.suggestion? with
  | some s => (e.edit s.fix, true)
  | none => (e, false)

/-- Replaces the whole buffer. -/
def load (e : Editor) (expression : Text) : Editor :=
  e.edit expression.orZero

/-- Forgets everything but the last answer. -/
def clear (e : Editor) : Editor :=
  e.edit Text.zero

end Editor

end Calculator
