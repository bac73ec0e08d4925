import Calculator.Keypad

/-!
# Sessions

A session is an editor together with the last calculation that succeeded, which
is kept for a history. Every change goes through `perform`, so that the
calculation kept is always one that the editor has replied.
-/

namespace Calculator

/-- The state of a session. -/
structure Session where
  editor : Editor := {}
  lastCalculation : Option Calculation := none
  deriving DecidableEq, Repr

namespace Session

/-- Does one action and keeps the calculation it makes, if it makes one. -/
def perform (s : Session) (a : Action) : Session :=
  let (editor, reply) := s.editor.perform a
  { editor, lastCalculation := reply.calculation?.or s.lastCalculation }

/-- Presses a key. -/
def press (s : Session) (key : Key) : Session :=
  s.perform key.action

/-- Presses keys one after the other. -/
def pressAll (s : Session) (keys : List Key) : Session :=
  keys.foldl press s

/-- Accepts the suggestion on offer. -/
def applyFix (s : Session) : Session :=
  s.perform .applyFix

/-- Replaces the whole buffer. -/
def load (s : Session) (expression : Text) : Session :=
  s.perform (.load expression)

@[simp] theorem pressAll_nil (s : Session) : s.pressAll [] = s := rfl

theorem pressAll_cons (s : Session) (key : Key) (keys : List Key) :
    s.pressAll (key :: keys) = (s.press key).pressAll keys := rfl

/-- The editor of a session follows the actions on their own. -/
@[simp] theorem editor_perform (s : Session) (a : Action) :
    (s.perform a).editor = (s.editor.perform a).1 := rfl

/-- So does it follow the keys. -/
theorem editor_pressAll (s : Session) (keys : List Key) :
    (s.pressAll keys).editor = s.editor.run (keys.map Key.action) := by
  induction keys generalizing s with
  | nil => rfl
  | cons key keys ih => rw [pressAll_cons, ih, List.map_cons, Editor.run_cons]; rfl

end Session

end Calculator
