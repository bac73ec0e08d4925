import Calculator.Operator
import Calculator.Text

/-!
# Repairs

An expression without a value can often be repaired by a small change. There
are five repairs, tried in a fixed order; the first that changes the text is
suggested, as a whole new text, and no second one is applied on top of it.

A repair never reads the fault: it looks at the text alone, so that `suggest`
is a function of the text.
-/

namespace Calculator

/-- A way of repairing a text. -/
inductive Repair
  /-- Repetitions of one operator become a single one. -/
  | mergeOperators
  /-- Empty groups go, each with the operator before it. -/
  | removeEmptyGroups
  /-- A percent sign before its operand moves behind the next digit. -/
  | movePercent
  /-- Operators and percent signs at the end go. -/
  | trimEnd
  /-- The missing closing parentheses are added. -/
  | closeGroups
  deriving DecidableEq, Repr

/-- A repair to offer, with the text that it leads to. -/
structure Suggestion where
  repair : Repair
  fix : Text
  deriving DecidableEq, Repr

/-- Leaves out each operator that repeats the one before it. -/
def mergeOperators : Text → Text
  | c :: d :: rest =>
      if c = d ∧ isOperator c then mergeOperators (d :: rest)
      else c :: mergeOperators (d :: rest)
  | t => t

/-- Takes the operator off the top of a text that is kept in reverse. -/
def dropOperator : Text → Text
  | c :: rest => if isOperator c then rest else c :: rest
  | [] => []

/-- The text without its empty groups. Each takes along the operator that ends
what is kept so far, in reverse, in `kept`. -/
def withoutEmptyGroups (kept : Text) : Text → Text
  | '(' :: ')' :: rest => withoutEmptyGroups (dropOperator kept) rest
  | c :: rest => withoutEmptyGroups (c :: kept) rest
  | [] => kept.reverse

/-- Removes empty groups; a text that has nothing else becomes `0`. -/
def removeEmptyGroups (t : Text) : Text :=
  if t = [] then [] else (withoutEmptyGroups [] t).orZero

/-- Swaps each percent sign that follows no numeral with the digit behind it;
`numeral` says whether the character before the text belongs to a numeral. -/
def movePercent (numeral : Bool) : Text → Text
  | c :: d :: rest =>
      if c = '%' ∧ numeral = false ∧ d.isDigit then d :: '%' :: movePercent true rest
      else c :: movePercent (isNumeric c) (d :: rest)
  | t => t

/-- A character that an expression does not end with. -/
def isDangling (c : Char) : Bool :=
  isOperator c || c == '%'

/-- Removes the operators and percent signs at the end, blanks aside; a text
that has nothing else becomes `0`, and one that has none stays as it is. -/
def trimEnd (t : Text) : Text :=
  let trimmed := t.trim
  let kept := Text.dropEndWhile isDangling trimmed
  if kept = trimmed then t else kept.orZero

/-- Adds a closing parenthesis for each opening one in excess. -/
def closeGroups (t : Text) : Text :=
  t ++ List.replicate (t.count '(' - t.count ')') ')'

namespace Repair

/-- The repairs in the order in which they are tried. -/
def all : List Repair :=
  [.mergeOperators, .removeEmptyGroups, .movePercent, .trimEnd, .closeGroups]

/-- What a repair makes of a text. -/
def apply : Repair → Text → Text
  | .mergeOperators, t => Calculator.mergeOperators t
  | .removeEmptyGroups, t => Calculator.removeEmptyGroups t
  | .movePercent, t => Calculator.movePercent false t
  | .trimEnd, t => Calculator.trimEnd t
  | .closeGroups, t => Calculator.closeGroups t

/-- The wording that goes with a repair. -/
def message : Repair → Text
  | .mergeOperators => "Opérateur en double supprimé.".toList
  | .removeEmptyGroups => "Parenthèses vides supprimées.".toList
  | .movePercent => "Signe % replacé après le nombre.".toList
  | .trimEnd => "Opérateur final supprimé.".toList
  | .closeGroups => "Parenthèse fermante ajoutée.".toList

end Repair

/-- The suggestion of the first repair that changes the text, if any does. -/
def suggest (t : Text) : Option Suggestion :=
  Repair.all.findSome? fun repair =>
    let fix := repair.apply t
    if fix = t then none else some ⟨repair, fix⟩

/-- The wording where no repair is suggested. -/
def noSuggestionMessage : Text :=
  "L’expression contient une erreur.".toList

/-- The repair that is suggested changes the text, and the ones before it do not. -/
theorem suggest_eq_some_iff {t : Text} {s : Suggestion} :
    suggest t = some s ↔
      s.repair.apply t = s.fix ∧ s.fix ≠ t ∧
        ∃ before after : List Repair, Repair.all = before ++ s.repair :: after ∧
          ∀ repair ∈ before, Repair.apply repair t = t := by
  obtain ⟨repair, fix⟩ := s
  simp only [suggest, List.findSome?_eq_some_iff, Option.ite_none_left_eq_some, Option.some.injEq,
    Suggestion.mk.injEq]
  constructor
  · rintro ⟨before, _, after, hall, ⟨hne, rfl, rfl⟩, hbefore⟩
    exact ⟨rfl, hne, before, after, hall, by simpa using hbefore⟩
  · rintro ⟨rfl, hne, before, after, hall, hbefore⟩
    exact ⟨before, repair, after, hall, ⟨hne, rfl, rfl⟩, by simpa using hbefore⟩

/-- A suggestion changes the text, by the repair it names. -/
theorem apply_of_suggest {t : Text} {s : Suggestion} (h : suggest t = some s) :
    s.repair.apply t = s.fix ∧ s.fix ≠ t :=
  (suggest_eq_some_iff.1 h).imp_right And.left

/-- Nothing is suggested exactly where every repair leaves the text alone. -/
theorem suggest_eq_none_iff (t : Text) :
    suggest t = none ↔ ∀ repair, Repair.apply repair t = t := by
  constructor
  · intro h repair
    have hall := List.findSome?_eq_none_iff.1 h repair (by cases repair <;> simp [Repair.all])
    by_cases hfix : repair.apply t = t
    · exact hfix
    · simp [hfix] at hall
  · intro h
    exact List.findSome?_eq_none_iff.2 fun repair _ => by simp [h repair]

end Calculator
