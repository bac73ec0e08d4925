import Mathlib
import Calculator.Proofs.Binary64.Value
import Calculator.Proofs.Decimal.BareNumber
import Calculator.Proofs.Token.Scan

/-!
# What a numeral reads as

The number that a numeral stands for is given by the places of its digits (`numeralValue`).
It is the value of the decimal number the numeral is read to (`value_of_ofRun`), whose nearest
binary64 magnitude becomes the token: along an expression the numbers among its tokens are
those of its numerals, each correctly rounded (`readsTo_of_expressionTokens`). The text of a
decimal number stands for that number again (`numeralValue_text`). A numeral stands for zero if
all of its digits are `0` (`numeralValue_eq_zero_iff`), and it reads as zero if it stands for
no more than half of the least magnitude (`Decimal.toFloat_beq_zero_iff`).
-/

namespace Calculator

/-- The number that digits behind a point stand for. -/
def fractionValue : Text → ℚ
  | [] => 0
  | c :: rest => (((c.toNat - '0'.toNat : ℕ) : ℚ) + fractionValue rest) / 10

/-- The number that a numeral stands for. -/
def numeralValue (t : Text) : ℚ :=
  Nat.ofDigitChars 10 (t.takeWhile (· != '.')) 0 +
    fractionValue ((t.dropWhile (· != '.')).drop 1)

theorem ofDigitChars_cons_zero (c : Char) (f : Text) :
    Nat.ofDigitChars 10 (c :: f) 0 =
      10 ^ f.length * (c.toNat - '0'.toNat) + Nat.ofDigitChars 10 f 0 := by
  rw [Nat.ofDigitChars_cons, Nat.mul_zero, Nat.zero_add]
  exact Nat.ofDigitChars_eq_ofDigitChars_zero

theorem fractionValue_eq (f : Text) :
    fractionValue f = Nat.ofDigitChars 10 f 0 / 10 ^ f.length := by
  induction f with
  | nil => simp [fractionValue]
  | cons c f ih =>
      rw [fractionValue, ih, ofDigitChars_cons_zero, List.length_cons, pow_succ]
      push_cast
      field_simp

theorem fractionValue_append_zeros (f : Text) (n : ℕ) :
    fractionValue (f ++ List.replicate n '0') = fractionValue f := by
  induction f with
  | nil =>
      rw [List.nil_append, fractionValue_eq, Nat.ofDigitChars_replicate_zero, Nat.mul_zero,
        Nat.cast_zero, zero_div, fractionValue]
  | cons c f ih => rw [List.cons_append, fractionValue, fractionValue, ih]

theorem numeralValue_whole {w : Text} (hw : ∀ c ∈ w, c.isDigit = true) :
    numeralValue w = Nat.ofDigitChars 10 w 0 := by
  obtain ⟨htake, hdrop⟩ := cut_digits hw
  rw [numeralValue, htake, hdrop, List.drop_nil, fractionValue, add_zero]

theorem numeralValue_fraction {w : Text} (hw : ∀ c ∈ w, c.isDigit = true) (f : Text) :
    numeralValue (w ++ '.' :: f) = Nat.ofDigitChars 10 w 0 + fractionValue f := by
  obtain ⟨htake, hdrop⟩ := cut_point hw f
  rw [numeralValue, htake, hdrop, List.drop_one, List.tail_cons]

theorem toNat_sub_eq_zero_iff {c : Char} (hc : isNumeric c = true) :
    c.toNat - '0'.toNat = 0 ↔ c = '0' ∨ c = '.' := by
  rw [isNumeric, Bool.or_eq_true, beq_iff_eq] at hc
  constructor
  · intro hzero
    refine hc.imp_left fun hdigit => Char.toNat_inj.1 ?_
    have hle := (Char.isDigit_iff_toNat.1 hdigit).1
    omega
  · rintro (rfl | rfl) <;> rfl

/-- Digits and points are read to zero if no digit is another one than `0`. -/
theorem ofDigitChars_eq_zero_iff {w : Text} (hw : ∀ c ∈ w, isNumeric c = true) :
    Nat.ofDigitChars 10 w 0 = 0 ↔ ∀ c ∈ w, c = '0' ∨ c = '.' := by
  induction w with
  | nil => exact iff_of_true rfl (List.forall_mem_nil _)
  | cons c w ih =>
      obtain ⟨hc, hw⟩ := List.forall_mem_cons.1 hw
      have hpower : 10 ^ w.length ≠ 0 := pow_ne_zero _ (by decide)
      rw [ofDigitChars_cons_zero, Nat.add_eq_zero_iff, mul_eq_zero, or_iff_right hpower, ih hw,
        toNat_sub_eq_zero_iff hc, List.forall_mem_cons]

/-- A numeral stands for zero if no digit of it is another one than `0`. -/
theorem numeralValue_eq_zero_iff {r : Text} (hr : ∀ c ∈ r, isNumeric c = true) :
    numeralValue r = 0 ↔ ∀ c ∈ r, c = '0' ∨ c = '.' := by
  have hcut := List.takeWhile_append_dropWhile (p := (· != '.')) (l := r)
  have hparts : numeralValue r = 0 ↔ Nat.ofDigitChars 10 (r.takeWhile (· != '.')) 0 = 0 ∧
      Nat.ofDigitChars 10 ((r.dropWhile (· != '.')).drop 1) 0 = 0 := by
    rw [numeralValue, fractionValue_eq,
      add_eq_zero_iff_of_nonneg (Nat.cast_nonneg _) (by positivity), Nat.cast_eq_zero,
      div_eq_zero_iff, or_iff_left (by positivity), Nat.cast_eq_zero]
  have hwhole : ∀ c ∈ r.takeWhile (· != '.'), isNumeric c = true :=
    fun c hc => hr c ((List.takeWhile_sublist _).subset hc)
  have hfraction : ∀ c ∈ (r.dropWhile (· != '.')).drop 1, isNumeric c = true :=
    fun c hc => hr c (((List.drop_sublist _ _).trans (List.dropWhile_sublist _)).subset hc)
  rw [hparts, ofDigitChars_eq_zero_iff hwhole, ofDigitChars_eq_zero_iff hfraction]
  -- the point between the two parts is no digit
  cases hdrop : r.dropWhile (· != '.') with
  | nil =>
      rw [hdrop, List.append_nil] at hcut
      rw [hcut]
      exact and_iff_left (List.forall_mem_nil _)
  | cons c f =>
      have hpoint : c = '.' := by
        have hhead := List.head?_dropWhile_not (· != '.') r
        rw [hdrop] at hhead
        simpa using hhead
      rw [hdrop, hpoint] at hcut
      rw [List.drop_one, List.tail_cons]
      conv_rhs => rw [← hcut, List.forall_mem_append, List.forall_mem_cons]
      exact and_congr_right fun _ => (and_iff_right (Or.inr rfl)).symm

namespace Decimal

open Binary64 (IsNearest rank isNegative)

variable {d : Decimal} {t : Text}

/-- The number that a decimal number is. -/
def value (d : Decimal) : ℚ :=
  d.mantissa / 10 ^ d.places

/-- A numeral is read to the number that it stands for. -/
theorem value_of_ofRun (h : ofRun t = .ok d) : d.value = numeralValue t := by
  unfold ofRun at h
  split at h
  · cases h
  · split at h
    · cases h
      rw [value, numeralValue, fractionValue_eq, Nat.ofDigitChars_append,
        Nat.ofDigitChars_eq_ofDigitChars_zero]
      push_cast
      field_simp
    · cases h

theorem rank_toFloat (d : Decimal) :
    rank d.toFloat = Binary64.nearestRank d.mantissa (Nat.pow 10 d.places) :=
  Binary64.rank_ofRank (Nat.min_le_right _ _)

theorem isNegative_toFloat (d : Decimal) : isNegative d.toFloat = false :=
  Binary64.isNegative_ofRank (Nat.min_le_right _ _)

/-- The number is rounded to the nearest binary64 magnitude. -/
theorem isNearest_toFloat (d : Decimal) : IsNearest d.value (rank d.toFloat) := by
  have hnearest := Binary64.isNearest_nearestRank d.mantissa (Nat.pow_pos (n := d.places)
    (show 0 < 10 by decide))
  rw [rank_toFloat]
  rw [Nat.cast_pow] at hnearest
  exact hnearest

/-- A number is read to zero if it is at most half of the least magnitude. -/
theorem toFloat_beq_zero_iff (d : Decimal) :
    (d.toFloat == 0.0) = true ↔ d.value ≤ 1 / 2 ^ 1075 := by
  have hnonneg : 0 ≤ d.value := div_nonneg (Nat.cast_nonneg _) (by positivity)
  rw [Binary64.beq_zero_iff, d.isNearest_toFloat.eq_zero_iff hnonneg]

/-- There is a place for each digit behind the point. -/
theorem length_toDigits_mod_le (m : ℕ) {places : ℕ} (h : 0 < places) :
    (Nat.toDigits 10 (m % 10 ^ places)).length ≤ places :=
  (Nat.length_toDigits_le_iff (by decide) h).2 (Nat.mod_lt _ (Nat.pow_pos (by decide)))

/-- The digits behind the point stand for what is behind it. -/
theorem fractionValue_fractionDigits (d : Decimal) :
    fractionValue d.fractionDigits = (d.mantissa % 10 ^ d.places : ℕ) / 10 ^ d.places := by
  let padded : Text := (Nat.toDigits 10 (d.mantissa % 10 ^ d.places)).leftpad d.places '0'
  have hlength : padded.length = max d.places _ := List.length_leftpad
  have hzeros : Text.takeEndWhile (· == '0') padded =
      List.replicate (Text.takeEndWhile (· == '0') padded).length '0' := by
    refine List.eq_replicate_of_mem fun c hc => ?_
    rw [Text.takeEndWhile, List.mem_reverse] at hc
    have hzero : (c == '0') = true := List.mem_takeWhile_imp (p := (· == '0')) hc
    exact eq_of_beq hzero
  have hpadded : fractionValue d.fractionDigits = fractionValue padded := by
    have hcut : d.fractionDigits ++ Text.takeEndWhile (· == '0') padded = padded :=
      Text.dropEndWhile_append_takeEndWhile _ _
    rw [← fractionValue_append_zeros, ← hzeros, hcut]
  have hdigits : Nat.ofDigitChars 10 padded 0 = d.mantissa % 10 ^ d.places := by
    change Nat.ofDigitChars 10 (List.replicate _ '0' ++ Nat.toDigits 10 _) 0 = _
    rw [Nat.ofDigitChars_append, Nat.ofDigitChars_replicate_zero, Nat.mul_zero,
      Nat.ofDigitChars_ten_toDigits]
  rw [hpadded, fractionValue_eq, hdigits, hlength]
  by_cases hplaces : d.places = 0
  · rw [hplaces, pow_zero, Nat.mod_one, Nat.cast_zero, zero_div, zero_div]
  · rw [max_eq_left (length_toDigits_mod_le _ (Nat.pos_of_ne_zero hplaces))]

/-- The text of a number stands for it. -/
theorem numeralValue_text (d : Decimal) : numeralValue d.text = d.value := by
  have hwhole : ∀ c ∈ d.wholeDigits, c.isDigit = true := (isDigits_iff.1 (isDigits_toDigits _)).2
  have hwholeValue : Nat.ofDigitChars 10 d.wholeDigits 0 = d.mantissa / 10 ^ d.places :=
    Nat.ofDigitChars_ten_toDigits
  have hsplit : numeralValue d.text =
      (d.mantissa / 10 ^ d.places : ℕ) + fractionValue d.fractionDigits := by
    rw [← hwholeValue, text]
    split
    · next hnone => rw [hnone, fractionValue, add_zero, numeralValue_whole hwhole]
    · exact numeralValue_fraction hwhole _
  rw [hsplit, fractionValue_fractionDigits, value]
  have hdiv := Nat.div_add_mod' d.mantissa (10 ^ d.places)
  have hcast : ((d.mantissa / 10 ^ d.places : ℕ) : ℚ) * 10 ^ d.places +
      (d.mantissa % 10 ^ d.places : ℕ) = d.mantissa := by exact_mod_cast hdiv
  rw [← hcast]
  field_simp

end Decimal

/-- The value is the number that the numeral stands for, correctly rounded. -/
structure ReadsTo (r : Text) (v : Float) : Prop where
  isLiteral : isLiteral r = true
  isNegative : Binary64.isNegative v = false
  isNearest : Binary64.IsNearest (numeralValue r) (Binary64.rank v)

theorem readsTo_of_ofRun {r : Text} {d : Decimal} (h : Decimal.ofRun r = .ok d) :
    ReadsTo r d.toFloat where
  isLiteral := by
    rw [← Decimal.isOk_ofRun, h]
    rfl
  isNegative := d.isNegative_toFloat
  isNearest := Decimal.value_of_ofRun h ▸ d.isNearest_toFloat

namespace Token

/-- The number of a token, if it is one. -/
def number? : Token → Option Float
  | .number v => some v
  | _ => none

theorem readsTo_of_ofLexemes {due : Bool} {ls : List Lexeme} {ts : List Token}
    (h : ofLexemes due ls = .ok ts) :
    List.Forall₂ ReadsTo (ls.filterMap Lexeme.run?) (ts.filterMap number?) := by
  induction ls generalizing due ts with
  | nil =>
      cases h
      exact .nil
  | cons l ls ih =>
      obtain ⟨-, token, us, htoken, hus, rfl⟩ := ofLexemes_cons_eq_ok_iff.1 h
      cases l with
      | run r =>
          obtain ⟨d, hd, rfl⟩ := ofLexeme_run_eq_ok_iff.1 htoken
          exact .cons (readsTo_of_ofRun hd) (ih hus)
      | symbol c =>
          have hnone : token.number? = none := by
            rcases symbol_cases (ofLexeme_symbol_eq_ok_iff.1 htoken) with
              ⟨-, rfl⟩ | ⟨-, rfl⟩ | ⟨-, -, rfl⟩ | ⟨op, -, rfl⟩ <;> rfl
          rw [List.filterMap_cons_none hnone]
          exact ih hus

end Token

/-- The numbers among the tokens of an expression are those of its numerals, in order. -/
theorem readsTo_of_expressionTokens {t : Text} {ts : List Token}
    (h : expressionTokens t = .ok ts) :
    List.Forall₂ ReadsTo (runs (canonical (absorbPercent t))) (ts.filterMap Token.number?) :=
  Token.readsTo_of_ofLexemes h

end Calculator
