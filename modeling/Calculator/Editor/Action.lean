import Calculator.Editor.State

/-!
# Actions on the editor

The operations of the editor as values, so that a session is a list of actions
and what holds in every session is said over such lists. `perform` does one
action and gives its reply, `run` does a list of them.
-/

namespace Calculator

/-- One operation on the editor. -/
inductive Action
  | append (glyph : Glyph)
  | toggleGroup
  | backspace
  | toggleSign
  | insertAnswer
  | commit
  | applyFix
  | load (expression : Text)
  | clear
  deriving DecidableEq, Repr

/-- What an operation answers besides the new state. -/
inductive Reply
  | done
  /-- The calculation that was made, if one was. -/
  | calculated (calculation : Option Calculation)
  /-- Whether there was a suggestion to apply. -/
  | applied (found : Bool)
  deriving DecidableEq, Repr

/-- The calculation that a reply tells of. -/
def Reply.calculation? : Reply → Option Calculation
  | .calculated calculation => calculation
  | _ => none

namespace Editor

/-- Does one action. -/
def perform (e : Editor) : Action → Editor × Reply
  | .append g => (e.append g, .done)
  | .toggleGroup => (e.toggleGroup, .done)
  | .backspace => (e.backspace, .done)
  | .toggleSign => (e.toggleSign, .done)
  | .insertAnswer => (e.insertAnswer, .done)
  | .commit =>
      let (next, calculation) := e.commit
      (next, .calculated calculation)
  | .applyFix =>
      let (next, found) := e.applyFix
      (next, .applied found)
  | .load expression => (e.load expression, .done)
  | .clear => (e.clear, .done)

/-- Does a list of actions, the first one first. -/
def run (e : Editor) (actions : List Action) : Editor :=
  actions.foldl (fun e a => (e.perform a).1) e

@[simp] theorem run_nil (e : Editor) : e.run [] = e := rfl

theorem run_cons (e : Editor) (a : Action) (actions : List Action) :
    e.run (a :: actions) = (e.perform a).1.run actions := rfl

end Editor

end Calculator
