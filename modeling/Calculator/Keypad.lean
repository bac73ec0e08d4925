import Calculator.Editor.Action

/-!
# The keypad

The keys of the calculator, their labels and their places. A key is reached by
a click on its label, by a typed character or by a named key of the keyboard,
and stands for one action on the editor.
-/

namespace Calculator

/-- A key of the keypad. -/
inductive Key
  | glyph (g : Glyph)
  | group
  | sign
  | answer
  | backspace
  | clear
  | equals
  deriving DecidableEq, Repr

namespace Key

/-- What is written on a key. -/
def label : Key → Text
  | .glyph g => g.text
  | .group => ['(', ' ', ')']
  | .sign => ['±']
  | .answer => ['A', 'n', 's']
  | .backspace => ['←']
  | .clear => ['A', 'C']
  | .equals => ['=']

/-- The action that a key stands for. -/
def action : Key → Action
  | .glyph g => .append g
  | .group => .toggleGroup
  | .sign => .toggleSign
  | .answer => .insertAnswer
  | .backspace => .backspace
  | .clear => .clear
  | .equals => .commit

/-- The key for a typed character. Either parenthesis is the key for both, and
the letter x in either case is a product sign. -/
def ofChar? (c : Char) : Option Key :=
  if c = '(' ∨ c = ')' then some .group
  else if c = '=' then some .equals
  else if c = 'x' ∨ c = 'X' then some (.glyph (.operator .times))
  else (Glyph.ofChar? c).map .glyph

/-- The keys for a typed text; characters without a key are skipped. -/
def ofTyped (t : Text) : List Key :=
  t.filterMap ofChar?

/-- The key for a named key of the keyboard. -/
def ofName? (name : Text) : Option Key :=
  if name = "Enter".toList then some .equals
  else if name = "Backspace".toList then some .backspace
  else if name = "Escape".toList then some .clear
  else none

end Key

namespace Keypad

/-- The rows of the keypad from top to bottom. -/
def rows : List (List Key) :=
  [[.clear, .backspace, .answer, .glyph .percent, .glyph (.operator .divide)],
   [.glyph (.digit 7), .glyph (.digit 8), .glyph (.digit 9), .sign, .glyph (.operator .times)],
   [.glyph (.digit 4), .glyph (.digit 5), .glyph (.digit 6), .group, .glyph (.operator .minus)],
   [.glyph (.digit 1), .glyph (.digit 2), .glyph (.digit 3), .glyph .point,
    .glyph (.operator .plus)],
   [.glyph (.digit 0), .glyph .doubleZero, .glyph .tripleZero, .equals]]

/-- The keys row by row. -/
def keys : List Key :=
  rows.flatten

/-- The key with the given label. -/
def find? (label : Text) : Option Key :=
  keys.find? fun key => key.label == label

end Keypad

end Calculator
