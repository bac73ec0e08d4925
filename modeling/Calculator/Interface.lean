import Calculator.Screen

/-!
# The interface

What a user does in front of the screen: use the keyboard, click on a label, or
bring in a whole expression. `Session.handle` is one such gesture, and
`Session.run` a list of them.
-/

namespace Calculator

/-- An event of the keyboard. -/
inductive KeyEvent
  | typed (t : Text)
  /-- A named key goes down or up. -/
  | named (name : Text) (pressed : Bool)
  deriving DecidableEq, Repr

/-- The keys of the keypad that an event stands for. A key that goes up stands
for none. -/
def KeyEvent.keys : KeyEvent → List Key
  | .typed t => Key.ofTyped t
  | .named name pressed => if pressed then (Key.ofName? name).toList else []

/-- What a user does at once. -/
inductive Gesture
  /-- The keyboard events of one frame, in order. -/
  | keyboard (events : List KeyEvent)
  | click (label : Text)
  | load (expression : Text)
  deriving DecidableEq, Repr

namespace Session

/-- A click on the label finds it. Only the labels of buttons are looked for:
that of a key is always found on the keypad, and that of the button of a
suggestion wherever it is read on the screen, so that a buffer with this very
text is found too. Any other text is not found, even if it is shown. -/
def finds (s : Session) (label : Text) : Bool :=
  (Keypad.find? label).isSome ||
    (label == applyLabel && (Screen.ofEditor s.editor).lines.any fun line => line.text == label)

/-- A click on a label. Only the keys and the button of a suggestion react to it,
and where no suggestion is on offer there is no such button. -/
def click (s : Session) (label : Text) : Session :=
  match Keypad.find? label with
  | some key => s.press key
  | none => if label = applyLabel then s.applyFix else s

/-- Does one gesture. -/
def handle (s : Session) : Gesture → Session
  | .keyboard events => s.pressAll (events.flatMap KeyEvent.keys)
  | .click label => s.click label
  | .load expression => s.load expression

/-- Does a list of gestures, the first one first. -/
def run (s : Session) (gestures : List Gesture) : Session :=
  gestures.foldl handle s

@[simp] theorem run_nil (s : Session) : s.run [] = s := rfl

theorem run_cons (s : Session) (g : Gesture) (gestures : List Gesture) :
    s.run (g :: gestures) = (s.handle g).run gestures := rfl

end Session

end Calculator
