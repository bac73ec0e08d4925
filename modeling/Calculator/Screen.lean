import Calculator.Session

/-!
# The screen

What is shown of a session, as texts from top to bottom: a title, the expression
of the result on display, the buffer, the preview, and a diagnosis. The
diagnosis marks the zone of the fault by underlining it, words the fault, and
offers the suggestion or says that there is none.
-/

namespace Calculator

/-- How a text on the screen is drawn. -/
inductive Style
  | plain
  | underlined
  | button
  deriving DecidableEq, Repr

/-- A text on the screen. -/
structure Line where
  text : Text
  style : Style
  deriving DecidableEq, Repr

/-- What is shown above the keypad. -/
structure Screen where
  lastExpression : Option Text
  buffer : Text
  preview : Option Text
  report : Option Report
  suggestion : Option Suggestion
  deriving DecidableEq, Repr

/-- The title of the screen. -/
def screenTitle : Text :=
  "Calculatrice de poche".toList

/-- The label of the button that accepts a suggestion. -/
def applyLabel : Text :=
  "Appliquer".toList

namespace Screen

/-- The screen of an editor. -/
def ofEditor (e : Editor) : Screen :=
  { lastExpression := e.lastExpression?
    buffer := e.buffer
    preview := e.preview
    report := e.report?
    suggestion := e.suggestion? }

/-- The three parts of a zone, the marked one underlined. -/
def zoneLines (z : Zone) : List Line :=
  [⟨z.before, .plain⟩, ⟨z.marked, .underlined⟩, ⟨z.after, .plain⟩]

/-- The offer of a suggestion and its button, or the wording for none. -/
def suggestionLines : Option Suggestion → List Line
  | some s =>
      [⟨s.repair.message ++ [' ', '→', ' '] ++ s.fix, .plain⟩, ⟨applyLabel, .button⟩]
  | none => [⟨noSuggestionMessage, .plain⟩]

/-- The diagnosis of a failure. -/
def diagnosisLines (report : Report) (suggestion : Option Suggestion) : List Line :=
  (report.zone.map zoneLines).getD [] ++
    ⟨report.message, .plain⟩ :: suggestionLines suggestion

/-- The texts of a screen from top to bottom. Empty ones are not shown. -/
def lines (s : Screen) : List Line :=
  let expression := s.lastExpression.map fun t => Line.mk (t ++ [' ', '=']) .plain
  let preview := s.preview.map fun t => Line.mk ('=' :: ' ' :: t) .plain
  let diagnosis := s.report.map fun report => diagnosisLines report s.suggestion
  (⟨screenTitle, .plain⟩ :: expression.toList ++ ⟨s.buffer, .plain⟩ :: preview.toList ++
    diagnosis.getD []).filter fun line => line.text != []

end Screen

end Calculator
