import Calculator.Decimal

/-!
# The shortest decimal that reads back

The magnitude of a binary64 number is an exact decimal number (`exact`). Its
shortest text keeps the fewest leading digits of that number such that one of
the two neighbours on their grid still has the magnitude as its nearest one. Of
two such neighbours the nearer one is taken, and the upper one if they are
equally near.

Seventeen digits always suffice; the exact decimal stands behind them, so that
the search needs no proof of that to be total.
-/

namespace Calculator

namespace Decimal

/-- The exact decimal expansion of the magnitude with rank `r`: where its last
bit weighs `2 ^ -k`, it has `k` places. -/
def exact (r : Nat) : Decimal :=
  let s := Binary64.exponent r
  ⟨Binary64.significand r * Nat.pow 2 (s - 1074) * Nat.pow 5 (1074 - s), 1074 - s⟩

/-- The number reads back as the magnitude with the given rank. -/
def readsBack (r : Nat) (d : Decimal) : Bool :=
  Binary64.nearestRank d.mantissa (Nat.pow 10 d.places) == r

/-- The neighbour of the magnitude with rank `r` that reads back as it, on the
grid that keeps all but the last `dropped` digits of its exact expansion. -/
def neighbour? (r dropped : Nat) : Option Decimal :=
  let value := exact r
  let step := Nat.pow 10 dropped
  let lower := value.mantissa / step * step
  let upper := lower + step
  match readsBack r ⟨lower, value.places⟩, readsBack r ⟨upper, value.places⟩ with
  | true, true =>
      let nearer := if value.mantissa - lower < upper - value.mantissa then lower else upper
      some ⟨nearer, value.places⟩
  | true, false => some ⟨lower, value.places⟩
  | false, true => some ⟨upper, value.places⟩
  | false, false => none

/-- The shortest decimal number that reads back as the magnitude with rank
`r`: grids of one to seventeen leading digits are tried in order. -/
def shortest (r : Nat) : Decimal :=
  let length := (Nat.toDigits 10 (exact r).mantissa).length
  ((List.range 17).findSome? fun n => neighbour? r (length - (n + 1))).getD (exact r)

end Decimal

/-- The shortest text that reads back as the value: positional, with the sign
of zero kept and no point on whole numbers. -/
def shortestText (x : Float) : Text :=
  if x.isFinite then
    signed (Binary64.isNegative x) (Decimal.shortest (Binary64.rank x)).text
  else nonFiniteText x

end Calculator
