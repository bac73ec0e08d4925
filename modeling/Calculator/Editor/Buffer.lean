import Calculator.Editor.Glyph

/-!
# Edits of the buffer

The buffer is the text being typed, and `0` stands for nothing typed. Each key
is a total function on the buffer that keeps it close to an expression: an
operator replaces the one before it, a numeral has one point and no superfluous
zero in front, and a product sign is written where an operand follows another.
A key that would break this is refused and leaves the buffer as it is.

The numeral being typed is the `activeSegment`, what follows the last operator,
parenthesis or percent sign.
-/

namespace Calculator

namespace Buffer

/-- A character at which the numeral being typed starts anew. -/
def isBoundary (c : Char) : Bool :=
  isOperator c || c == '(' || c == ')' || c == '%'

/-- What follows the last operator, parenthesis or percent sign. -/
def activeSegment (t : Text) : Text :=
  Text.takeEndWhile (fun c => !isBoundary c) t

/-- A non-empty text of decimal digits. -/
def isDigits (t : Text) : Bool :=
  t ≠ [] && t.all Char.isDigit

/-- The text without a minus sign in front. -/
def unsigned : Text → Text
  | '-' :: rest => rest
  | t => t

/-- A number by itself: digits, perhaps a minus sign before them, perhaps a
point and more digits behind. -/
def isBareNumber (t : Text) : Bool :=
  let body := unsigned t
  let whole := body.takeWhile (· != '.')
  match body.dropWhile (· != '.') with
  | [] => isDigits whole
  | _ :: fraction => isDigits whole && isDigits fraction

/-- Some group of the buffer is still open. -/
def hasOpenGroup (t : Text) : Bool :=
  t.count ')' < t.count '('

/-- The buffer ends where an operand is due. -/
def operandDue (t : Text) : Bool :=
  t.getLast?.any fun c => c == '(' || isOperator c

/-- A percent sign may follow: the buffer ends with a group, or with a numeral
other than `0`. -/
def percentAllowed (t : Text) : Bool :=
  t.getLast? == some ')' || (activeSegment t != [] && activeSegment t != Text.zero)

/-- How many opening parentheses may stand in a row. -/
def maxOpenings : Nat := 2

/-- Writes an operator. It replaces an operator at the end and is refused behind
an opening parenthesis. -/
def appendOperator (t : Text) (op : Operator) : Text :=
  if t.getLast?.any isOperator then t.dropLast ++ [op.glyph]
  else if t.getLast? = some '(' then t
  else t ++ [op.glyph]

/-- Writes a product sign behind a group or a percent sign. -/
def closeOperand (t : Text) : Text :=
  if t.getLast? = some ')' ∨ t.getLast? = some '%' then t ++ ['×'] else t

/-- Writes digits or the point at the end of the numeral being typed; `none` if
they are refused there. A point gets a zero in front of it, zeros do not follow
a lone zero, and a digit replaces one. -/
def appendNumeric? (t : Text) (g : Glyph) : Option Text :=
  let segment := activeSegment t
  if g = .point then
    if '.' ∈ segment then none
    else if segment = [] then some (t ++ ['0', '.'])
    else some (t ++ ['.'])
  else if g.isZeros then
    if segment = Text.zero then none
    else if segment = [] then some (t ++ ['0'])
    else some (t ++ g.text)
  else if segment = Text.zero then some (t.dropLast ++ g.text)
  else some (t ++ g.text)

/-- Writes a glyph. -/
def append (t : Text) : Glyph → Text
  | .operator op => appendOperator t op
  | .percent => if percentAllowed t then t ++ ['%'] else t
  | g => (appendNumeric? (closeOperand t) g).getD t

/-- Closes the innermost open group if its last operand is there, and opens a
new one otherwise, up to `maxOpenings` in a row. -/
def toggleGroup (t : Text) : Text :=
  if hasOpenGroup t && !operandDue t then t ++ [')']
  else if maxOpenings ≤ (Text.takeEndWhile (· == '(') t).length then t
  else if t = Text.zero then ['(']
  else if t.getLast?.any fun c => c.isDigit || c == ')' || c == '%' then t ++ ['×', '(']
  else t ++ ['(']

/-- Takes the last character away; `0` is left of a single one. -/
def backspace (t : Text) : Text :=
  Text.orZero t.dropLast

/-- Puts a minus sign in front or takes it away; `0` keeps its sign. -/
def toggleSign (t : Text) : Text :=
  if t = Text.zero then t
  else
    match t with
    | '-' :: rest => rest
    | t => '-' :: t

/-- Writes an answer in place of `0`, and otherwise at the end, as a factor
behind a digit or a group. -/
def insertAnswer (t answer : Text) : Text :=
  if t = Text.zero then answer
  else if t.getLast?.any fun c => c.isDigit || c == ')' then t ++ '×' :: answer
  else t ++ answer

end Buffer

end Calculator
