import Calculator.Rounding

/-!
# Binary64 numbers as ranks and units

The finite magnitudes of binary64 are all multiples of `2 ^ -1074`, the
spacing of the numbers next to zero. They are handled here by two natural
numbers, so that no exponent is negative: the `rank` of a magnitude is its place
in increasing order, which is the number written by its lower 63 bits, and its
`units` say how many times `2 ^ -1074` it is.

`nearestRank num den` is the rank of the number nearest to a quotient, a tie
going to the even rank; a quotient too large has the rank of infinity. That a
rank and its units belong together is `units_add`: along one binade the units
grow by the spacing of that binade.
-/

namespace Calculator

namespace Binary64

/-- How many units make one: a unit is `2 ^ -1074`. -/
def unitsPerOne : Nat := Nat.pow 2 1074

/-- The ranks of one binade, which are also the units of the first normal
number. -/
def binade : Nat := Nat.pow 2 52

/-- The rank of infinity, above the ranks of all finite magnitudes. -/
def infinityRank : Nat := 2047 * binade

/-- The place of the magnitude of `x` in increasing order. -/
def rank (x : Float) : Nat :=
  x.toBits.toNat % Nat.pow 2 63

/-- The sign bit of `x` is set. -/
def isNegative (x : Float) : Bool :=
  Nat.pow 2 63 ≤ x.toBits.toNat

/-- The significant bits of a finite magnitude. A subnormal one has no leading
bit besides those of its rank. -/
def significand (r : Nat) : Nat :=
  if r < binade then r else binade + r % binade

/-- The spacing at a finite magnitude is `2 ^ exponent r` units: one unit in the
first two binades, and twice as much with each binade from there on. -/
def exponent (r : Nat) : Nat :=
  r / binade - 1

/-- How many units a finite magnitude is. -/
def units (r : Nat) : Nat :=
  significand r * Nat.pow 2 (exponent r)

/-- The rank of the magnitude nearest to `num / den`, ties to the even rank.
The spacing at the quotient is `2 ^ s` units, where `s` leaves 53 significant
bits, or is zero where the quotient has fewer. -/
def nearestRank (num den : Nat) : Nat :=
  let scaled := num * unitsPerOne
  let s := Nat.log2 (scaled / den) - 52
  min (s * binade + roundHalfEven scaled (den * Nat.pow 2 s)) infinityRank

/-- The number with sign bit zero and the given rank. -/
def ofRank (r : Nat) : Float :=
  Float.ofBits (UInt64.ofNat r)

/-- The binary64 number nearest to `num / den`. -/
def nearest (num den : Nat) : Float :=
  ofRank (nearestRank num den)

theorem binade_pos : 0 < binade := by decide

theorem units_of_lt_binade {r : Nat} (h : r < binade) : units r = r := by
  rw [units, significand, if_pos h, exponent, Nat.div_eq_of_lt h, Nat.zero_sub, Nat.pow_eq,
    Nat.pow_zero, Nat.mul_one]

/-- The units of the numbers of one normal binade, counted from its first. -/
theorem units_of_lt (s k : Nat) (hk : k < binade) :
    units ((s + 1) * binade + k) = (binade + k) * Nat.pow 2 s := by
  have hge : binade ≤ (s + 1) * binade := Nat.le_mul_of_pos_left binade s.succ_pos
  have hdiv : ((s + 1) * binade + k) / binade = s + 1 := by
    rw [Nat.mul_comm, Nat.mul_add_div binade_pos, Nat.div_eq_of_lt hk, Nat.add_zero]
  rw [units, significand, exponent, if_neg (by omega), Nat.mul_add_mod_of_lt hk, hdiv,
    Nat.add_sub_cancel]

/-- Along one binade, and up to the first number of the next, the units grow by
the spacing of that binade. -/
theorem units_add (s m : Nat) (hlo : s = 0 ∨ binade ≤ m) (hhi : m ≤ 2 * binade) :
    units (s * binade + m) = m * Nat.pow 2 s := by
  by_cases hm : m < binade
  · have hs : s = 0 := by omega
    subst hs
    rw [Nat.zero_mul, Nat.zero_add, units_of_lt_binade hm, Nat.pow_eq, Nat.pow_zero,
      Nat.mul_one]
  · obtain ⟨k, rfl⟩ : ∃ k, m = binade + k := ⟨m - binade, by omega⟩
    by_cases hk : k < binade
    · have hsum : s * binade + (binade + k) = (s + 1) * binade + k := by
        rw [Nat.succ_mul]; omega
      rw [hsum, units_of_lt s k hk]
    · have hsum : s * binade + (binade + k) = (s + 1 + 1) * binade + 0 := by
        rw [Nat.succ_mul, Nat.succ_mul]; omega
      rw [hsum, units_of_lt (s + 1) 0 binade_pos, Nat.add_zero, Nat.pow_eq, Nat.pow_succ,
        Nat.pow_eq]
      have htop : binade + k = binade * 2 := by omega
      rw [htop, Nat.mul_assoc, Nat.mul_comm 2]

end Binary64

end Calculator
