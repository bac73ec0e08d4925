import Calculator.Binary64
import Calculator.Fault

/-!
# Decimal numbers

A decimal number is a natural number with a count of places: `⟨1250, 3⟩` is
1.250. It is what a numeral is read to and what a value is rounded to before it
is shown, so that reading and showing are two sides of one type.

`ofRun` reads a run of digits and points and refuses two points or a lone
point. `text` writes a number without superfluous zeros: no zero at the end of
the fraction, no point without a fraction, and a single digit before the point
where the number is below one. `toFloat` is the nearest binary64 number, for
numerals of any length.
-/

namespace Calculator

/-- The number `mantissa / 10 ^ places`. -/
structure Decimal where
  /-- The digits of the number, read without the point. -/
  mantissa : Nat
  /-- How many of the digits stand behind the point. -/
  places : Nat
  deriving DecidableEq, Repr

/-- A run that reads as a number: at least one digit, at most one point. -/
def isLiteral (run : Text) : Bool :=
  run.count '.' ≤ 1 && run.any Char.isDigit

namespace Decimal

/-- Reads a run of digits and points. A point may stand first or last, but not
alone and not twice. -/
def ofRun (run : Text) : Except Fault Decimal :=
  if 1 < run.count '.' then .error .decimalPoint
  else if run.any Char.isDigit then
    let whole := run.takeWhile (· != '.')
    let fraction := (run.dropWhile (· != '.')).drop 1
    .ok ⟨Nat.ofDigitChars 10 (whole ++ fraction) 0, fraction.length⟩
  else .error .malformed

/-- The digits before the point. -/
def wholeDigits (d : Decimal) : Text :=
  Nat.toDigits 10 (d.mantissa / Nat.pow 10 d.places)

/-- The digits behind the point, without the zeros at their end. -/
def fractionDigits (d : Decimal) : Text :=
  Text.dropEndWhile (· == '0')
    ((Nat.toDigits 10 (d.mantissa % Nat.pow 10 d.places)).leftpad d.places '0')

/-- The written form of a decimal number. -/
def text (d : Decimal) : Text :=
  match d.fractionDigits with
  | [] => d.wholeDigits
  | fraction => d.wholeDigits ++ '.' :: fraction

/-- The binary64 number nearest to a decimal number. -/
def toFloat (d : Decimal) : Float :=
  Binary64.nearest d.mantissa (Nat.pow 10 d.places)

/-- A run is read exactly when it is a literal. -/
theorem isOk_ofRun (run : Text) : (ofRun run).isOk = isLiteral run := by
  unfold ofRun isLiteral
  by_cases h : run.count '.' ≤ 1
  · rw [if_neg (by omega)]
    by_cases hd : run.any Char.isDigit = true <;> simp [h, hd, Except.isOk, Except.toBool]
  · rw [if_pos (by omega)]
    simp [h, Except.isOk, Except.toBool]

end Decimal

/-- Puts a minus sign before a text if `negative` holds. -/
def signed (negative : Bool) (t : Text) : Text :=
  if negative then '-' :: t else t

/-- The text of a value that is not finite. The sign of a value that is not a
number is not shown. -/
def nonFiniteText (x : Float) : Text :=
  if x.isNaN then ['N', 'a', 'N'] else signed (Binary64.isNegative x) ['i', 'n', 'f']

/-- How many decimal places a result is rounded to. -/
def resultPlaces : Nat := 10

/-- The magnitude of a finite value, rounded to `resultPlaces` places. -/
def roundedMagnitude (x : Float) : Decimal :=
  let scaled := Binary64.units (Binary64.rank x) * Nat.pow 10 resultPlaces
  ⟨roundHalfEven scaled Binary64.unitsPerOne, resultPlaces⟩

/-- The text in which a value is shown as a result. -/
def resultText (x : Float) : Text :=
  if x.isFinite then
    let d := roundedMagnitude x
    signed (Binary64.isNegative x && d.mantissa != 0) d.text
  else nonFiniteText x

end Calculator
