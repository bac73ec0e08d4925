import Calculator.Fault
import Calculator.Operator

/-!
# Zones and reports

A zone is a cut of a text in three: what comes before a marked part, the marked
part, and what comes after. `Zone.first?` marks the first place of a text that
a rule accepts, where the rule sees the character before the place and all that
follows. Its law is `text_of_first?`: the three parts make up the text.

`locate` gives the zone in which the cause of a fault is visible, for the
faults that have such a place. It only reads the text, and the value of an
expression never depends on it.

A report is what the user is told about a fault: its wording and its zone. A
stray percent sign has a wording of its own, plainer than that of an unknown
symbol.
-/

namespace Calculator

/-- A text cut around a marked part. -/
structure Zone where
  before : Text
  marked : Text
  after : Text
  deriving DecidableEq, Repr

namespace Zone

/-- The text that a zone is a cut of. -/
def text (z : Zone) : Text :=
  z.before ++ z.marked ++ z.after

/-- The zone one character further from the start. -/
def cons (c : Char) (z : Zone) : Zone :=
  { z with before := c :: z.before }

/-- The zone at the first place where `width` is not zero. It is given the
character before the place and the text from there on, and says how many
characters are marked. -/
def first? (width : Option Char → Text → Nat) (previous : Option Char) :
    Text → Option Zone
  | [] => none
  | c :: rest =>
      match width previous (c :: rest) with
      | 0 => (first? width (some c) rest).map (cons c)
      | n => some ⟨[], (c :: rest).take n, (c :: rest).drop n⟩

@[simp] theorem text_cons (c : Char) (z : Zone) : (cons c z).text = c :: z.text := rfl

/-- The parts of a zone make up the text it was found in. -/
theorem text_of_first? {width : Option Char → Text → Nat} {previous : Option Char}
    {t : Text} {z : Zone} (h : first? width previous t = some z) : z.text = t := by
  induction t generalizing previous z with
  | nil => simp [first?] at h
  | cons c rest ih =>
      unfold first? at h
      split at h
      · obtain ⟨y, hy, rfl⟩ := Option.map_eq_some_iff.1 h
        rw [text_cons, ih hy]
      · cases h
        exact List.take_append_drop _ _

end Zone

/-- A percent sign that follows neither a digit nor a point. -/
def strayPercentWidth (previous : Option Char) : Text → Nat
  | c :: _ => if c = '%' ∧ previous.all (fun p => !isNumeric p) then 1 else 0
  | [] => 0

/-- An opening parenthesis behind which no parenthesis comes any more. -/
def lastOpeningWidth (_ : Option Char) : Text → Nat
  | c :: rest => if c = '(' ∧ rest.all (fun d => d != '(' && d != ')') then 1 else 0
  | [] => 0

/-- A division sign and the lone zero behind it; a zero that a point follows is
the start of a numeral and may not be zero. -/
def zeroDivisorWidth (_ : Option Char) : Text → Nat
  | c :: '0' :: rest =>
      if Operator.ofChar? c = some .divide ∧ rest.head? ≠ some '.' then 2 else 0
  | _ => 0

/-- An empty group. -/
def emptyGroupWidth (_ : Option Char) : Text → Nat
  | '(' :: ')' :: _ => 2
  | _ => 0

/-- Where the cause of a fault is visible in the text. -/
def locate (t : Text) : Fault → Option Zone
  | .unknownSymbol c => if c = '%' then Zone.first? strayPercentWidth none t else none
  | .unbalanced =>
      if t.count ')' < t.count '(' then Zone.first? lastOpeningWidth none t else none
  | .divisionByZero => Zone.first? zeroDivisorWidth none t
  | .malformed => Zone.first? emptyGroupWidth none t
  | .decimalPoint => none

/-- A zone is a cut of the text it was asked for. -/
theorem text_of_locate {t : Text} {f : Fault} {z : Zone} (h : locate t f = some z) :
    z.text = t := by
  cases f with
  | decimalPoint => simp [locate] at h
  | unknownSymbol c =>
      by_cases hc : c = '%'
      · rw [locate, if_pos hc] at h; exact Zone.text_of_first? h
      · simp [locate, hc] at h
  | unbalanced =>
      by_cases hlt : t.count ')' < t.count '('
      · rw [locate, if_pos hlt] at h; exact Zone.text_of_first? h
      · simp [locate, hlt] at h
  | malformed => exact Zone.text_of_first? h
  | divisionByZero => exact Zone.text_of_first? h

/-- What is shown about a fault. -/
structure Report where
  fault : Fault
  message : Text
  zone : Option Zone
  deriving DecidableEq, Repr

/-- The wording for a percent sign that follows no operand. -/
def strayPercentMessage : Text :=
  "format de pourcentage invalide".toList

/-- The report on a fault of the expression `t`. -/
def Report.on (t : Text) (fault : Fault) : Report :=
  { fault
    message := if fault.isStrayPercent then strayPercentMessage else fault.message
    zone := locate t fault }

@[simp] theorem Report.fault_on (t : Text) (fault : Fault) :
    (Report.on t fault).fault = fault := rfl

end Calculator
