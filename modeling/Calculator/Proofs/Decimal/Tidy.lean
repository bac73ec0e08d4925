import Calculator.Proofs.Decimal.BareNumber

/-!
# Tidy numerals

A numeral is tidy if nothing in it is superfluous before the point: a single `0`, or
digits that do not begin with one. Typing a digit or a point at its end and taking the
last character away lead from tidy numerals to tidy ones, and so does writing a
number: the digits of a natural number do not begin with `0` (`isWhole_toDigits`).
-/

namespace Calculator

open Buffer (isDigits isBareNumber)

/-- The part of a tidy numeral before the point. -/
inductive IsWhole : Text → Prop
  | zero : IsWhole Text.zero
  | digits {c : Char} {w : Text} :
      c.isDigit = true → c ≠ '0' → (∀ x ∈ w, x.isDigit = true) → IsWhole (c :: w)

/-- A whole part, perhaps a point behind it and any digits behind that. -/
inductive IsTidy : Text → Prop
  | whole {w : Text} : IsWhole w → IsTidy w
  | point {w f : Text} : IsWhole w → (∀ x ∈ f, x.isDigit = true) → IsTidy (w ++ '.' :: f)

namespace IsWhole

theorem ne_nil {w : Text} (h : IsWhole w) : w ≠ [] := by
  cases h <;> exact List.cons_ne_nil _ _

theorem isDigit {w : Text} (h : IsWhole w) : ∀ c ∈ w, c.isDigit = true := by
  cases h with
  | zero => exact List.forall_mem_singleton.2 rfl
  | digits hc _ hw => exact List.forall_mem_cons.2 ⟨hc, hw⟩

theorem append {w : Text} (h : IsWhole w) (hzero : w ≠ Text.zero) {v : Text}
    (hv : ∀ c ∈ v, c.isDigit = true) : IsWhole (w ++ v) := by
  cases h with
  | zero => exact absurd rfl hzero
  | digits hc hne hw => exact .digits hc hne (List.forall_mem_append.2 ⟨hw, hv⟩)

theorem dropLast {r : Text} {c : Char} (h : IsWhole (r ++ [c])) : r = [] ∨ IsWhole r := by
  cases r with
  | nil => exact Or.inl rfl
  | cons d r =>
      right
      generalize ht : d :: r ++ [c] = t at h
      cases h with
      | zero => simp [Text.zero] at ht
      | digits hd hne hw =>
          obtain ⟨rfl, rfl⟩ := List.cons.inj ht
          exact .digits hd hne (List.forall_mem_append.1 hw).1

end IsWhole

namespace IsTidy

theorem ne_nil {r : Text} (h : IsTidy r) : r ≠ [] := by
  cases h with
  | whole hw => exact hw.ne_nil
  | point hw _ => exact List.append_ne_nil_of_left_ne_nil hw.ne_nil _

theorem isNumeric {r : Text} (h : IsTidy r) : ∀ c ∈ r, isNumeric c = true := by
  have hdigits : ∀ {w : Text}, (∀ c ∈ w, c.isDigit = true) →
      ∀ c ∈ w, Calculator.isNumeric c = true :=
    fun hw c hc => isNumeric_of_isDigit (hw c hc)
  cases h with
  | whole hw => exact hdigits hw.isDigit
  | point hw hf =>
      exact List.forall_mem_append.2
        ⟨hdigits hw.isDigit, List.forall_mem_cons.2 ⟨rfl, hdigits hf⟩⟩

theorem count_point_le {r : Text} (h : IsTidy r) : r.count '.' ≤ 1 := by
  have hnone : ∀ {w : Text}, (∀ c ∈ w, c.isDigit = true) → w.count '.' = 0 := fun hw =>
    List.count_eq_zero.2 fun hmem => ne_point_of_isDigit (hw '.' hmem) rfl
  cases h with
  | whole hw => rw [hnone hw.isDigit]; exact Nat.zero_le 1
  | point hw hf =>
      rw [List.count_append, List.count_cons_self, hnone hw.isDigit, hnone hf]

/-- Digits are typed behind a numeral other than `0`. -/
theorem append {r : Text} (h : IsTidy r) (hzero : r ≠ Text.zero) {v : Text}
    (hv : ∀ c ∈ v, c.isDigit = true) : IsTidy (r ++ v) := by
  cases h with
  | whole hw => exact .whole (hw.append hzero hv)
  | point hw hf =>
      rw [List.append_assoc, List.cons_append]
      exact .point hw (List.forall_mem_append.2 ⟨hf, hv⟩)

/-- A point is typed behind a numeral without one. -/
theorem push_point {r : Text} (h : IsTidy r) (hpoint : '.' ∉ r) : IsTidy (r ++ ['.']) := by
  cases h with
  | whole hw => exact .point hw (List.forall_mem_nil _)
  | point hw hf => exact absurd (by simp) hpoint

/-- The last character is taken away. -/
theorem dropLast {r : Text} {c : Char} (h : IsTidy (r ++ [c])) : r = [] ∨ IsTidy r := by
  generalize ht : r ++ [c] = t at h
  cases h with
  | whole hw =>
      rw [← ht] at hw
      exact hw.dropLast.imp_right .whole
  | @point w f hw hf =>
      right
      rcases List.eq_nil_or_concat' f with rfl | ⟨f, x, rfl⟩
      · obtain ⟨rfl, -⟩ := List.append_inj' ht rfl
        exact .whole hw
      · have hcut : r ++ [c] = (w ++ '.' :: f) ++ [x] := by simpa using ht
        obtain ⟨rfl, -⟩ := List.append_inj' hcut rfl
        exact .point hw (List.forall_mem_append.1 hf).1

end IsTidy

/-- The digits of a natural number do not begin with `0`, but for those of zero. -/
theorem isWhole_toDigits (n : Nat) : IsWhole (Nat.toDigits 10 n) := by
  suffices hpos : 0 < n → IsWhole (Nat.toDigits 10 n) ∧ Nat.toDigits 10 n ≠ Text.zero by
    rcases Nat.eq_zero_or_pos n with rfl | h
    · exact .zero
    · exact (hpos h).1
  have hdigit : ∀ k < 10, 0 < k → k.digitChar ≠ '0' := by decide
  induction n using Nat.strongRecOn with
  | _ n ih =>
      intro h
      rcases Nat.lt_or_ge n 10 with hlt | hge
      · rw [Nat.toDigits_of_lt_base hlt]
        have hne := hdigit n hlt h
        refine ⟨.digits (by simpa using hlt) hne (List.forall_mem_nil _), fun heq => hne ?_⟩
        exact List.head_eq_of_cons_eq heq
      · rw [Nat.toDigits_of_base_le (by decide) hge]
        obtain ⟨hwhole, hzero⟩ := ih (n / 10) (by omega) (by omega)
        have hlast : (n % 10).digitChar.isDigit = true := by
          simpa using Nat.mod_lt n (by decide)
        refine ⟨hwhole.append hzero (List.forall_mem_singleton.2 hlast), fun heq => ?_⟩
        have hlength := congrArg List.length heq
        simp [Text.zero] at hlength

theorem isTidy_text (d : Decimal) : IsTidy d.text := by
  have hwhole : IsWhole d.wholeDigits := isWhole_toDigits _
  have hfraction : ∀ c ∈ d.fractionDigits, c.isDigit = true :=
    fun c hc => isDigit_of_mem_fractionDigits hc
  unfold Decimal.text
  split
  · exact .whole hwhole
  · exact .point hwhole hfraction

/-- A result is a tidy numeral, perhaps with a minus sign before it. -/
theorem exists_isTidy_of_resultText {x : Float} (hx : x.isFinite = true) :
    ∃ n : Text, IsTidy n ∧ (resultText x = n ∨ resultText x = '-' :: n) := by
  refine ⟨_, isTidy_text (roundedMagnitude x), ?_⟩
  rw [resultText, if_pos hx, signed]
  split
  · exact Or.inr rfl
  · exact Or.inl rfl

end Calculator
