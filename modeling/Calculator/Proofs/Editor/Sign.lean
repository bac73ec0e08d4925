import Mathlib
import Calculator.Proofs.Binary64.Sign
import Calculator.Proofs.Editor.Coherence

/-!
# The sign of a number

The change of sign leads from a number by itself to the same digits with the other sign
(`exists_signs_of_toggleSign`). What is read from them is the same number, and only the minus
sign before it negates it, so that the two texts have opposite outcomes
(`opposite_evaluate_negated`). The minus sign that was written is taken away by the next change,
and the one that was taken away is written again, unless only `0` was left.

A result that is shown is a number by itself in every session, so that both kinds of buffers
whose sign can be changed are of this form (`Editor.Coherent.isBareNumber_of_signed`).
-/

namespace Calculator

open Binary64 (isNegative rank)
open Buffer (isBareNumber)

/-- The outcomes are a value and its negation, which has the other sign bit and the same other
bits, or they are the same fault. -/
inductive Opposite : Except Fault Float → Except Fault Float → Prop
  | value {v : Float} : isNegative (-v) = !isNegative v → rank (-v) = rank v →
      Opposite (.ok v) (.ok (-v))
  | fault {f : Fault} : Opposite (.error f) (.error f)

namespace Opposite

theorem of_isFinite {v : Float} (hv : v.isFinite = true) : Opposite (.ok v) (.ok (-v)) :=
  .value (Binary64.isNegative_neg hv) (Binary64.rank_neg hv)

theorem symm {x y : Except Fault Float} (h : Opposite x y) : Opposite y x := by
  cases h with
  | @value v hsign hrank =>
      have hback : Opposite (.ok (-v)) (.ok (- -v)) := by
        refine .value ?_ ?_
        · rw [Binary64.neg_neg, hsign, Bool.not_not]
        · rw [Binary64.neg_neg, hrank]
      rwa [Binary64.neg_neg] at hback
  | fault => exact .fault

end Opposite

section Text

variable {t : Text}

theorem opposite_evaluate_negated {n : Text} {d : Decimal} (h : IsNumeral n d) :
    Opposite (evaluate n) (evaluate ('-' :: n)) := by
  rw [evaluate_plain h, evaluate_negated h]
  by_cases hfinite : d.toFloat.isFinite = true
  · rw [if_pos hfinite, if_pos hfinite]
    exact .of_isFinite hfinite
  · rw [if_neg hfinite, if_neg hfinite]
    exact .fault

theorem IsPlainNumber.toggleSign_eq {n : Text} (h : IsPlainNumber n) (hzero : n ≠ Text.zero) :
    Buffer.toggleSign n = '-' :: n := by
  obtain ⟨c, rest, rfl, hc⟩ := h.exists_cons
  rw [Buffer.toggleSign, if_neg hzero]
  exact fun _ heq => ne_minus_of_isDigit hc (List.head_eq_of_cons_eq heq)

theorem toggleSign_negated (n : Text) : Buffer.toggleSign ('-' :: n) = n := by
  rw [Buffer.toggleSign, if_neg (by simp [Text.zero])]

/-- The change of sign writes a minus sign before a number or takes it away. -/
theorem exists_signs_of_toggleSign (h : isBareNumber t = true) (hzero : t ≠ Text.zero) :
    ∃ n : Text, IsPlainNumber n ∧
      (t = n ∧ Buffer.toggleSign t = '-' :: n ∨ t = '-' :: n ∧ Buffer.toggleSign t = n) := by
  obtain ⟨n, hn, rfl | rfl⟩ := exists_of_isBareNumber h
  · exact ⟨t, hn, Or.inl ⟨rfl, hn.toggleSign_eq hzero⟩⟩
  · exact ⟨n, hn, Or.inr ⟨rfl, toggleSign_negated n⟩⟩

theorem opposite_evaluate_toggleSign (h : isBareNumber t = true) (hzero : t ≠ Text.zero) :
    Opposite (evaluate t) (evaluate (Buffer.toggleSign t)) := by
  obtain ⟨n, hn, ⟨rfl, htoggle⟩ | ⟨rfl, htoggle⟩⟩ := exists_signs_of_toggleSign h hzero
  · obtain ⟨d, hd⟩ := hn.exists_isNumeral
    rw [htoggle]
    exact opposite_evaluate_negated hd
  · obtain ⟨d, hd⟩ := hn.exists_isNumeral
    rw [htoggle]
    exact (opposite_evaluate_negated hd).symm

/-- A second change undoes the first one, but the zero without its sign stays. -/
theorem toggleSign_toggleSign (h : isBareNumber t = true) (hzero : t ≠ Text.zero) :
    Buffer.toggleSign (Buffer.toggleSign t) = if t = ['-', '0'] then Text.zero else t := by
  obtain ⟨n, hn, ⟨rfl, htoggle⟩ | ⟨rfl, htoggle⟩⟩ := exists_signs_of_toggleSign h hzero
  · obtain ⟨c, rest, hcons, hc⟩ := hn.exists_cons
    have hminus : t ≠ ['-', '0'] := by
      rintro rfl
      exact ne_minus_of_isDigit hc (List.head_eq_of_cons_eq hcons).symm
    rw [htoggle, toggleSign_negated, if_neg hminus]
  · rw [htoggle]
    by_cases hn0 : n = Text.zero
    · rw [hn0]
      rfl
    · have hminus : '-' :: n ≠ ['-', '0'] := fun heq => hn0 (List.tail_eq_of_cons_eq heq)
      rw [hn.toggleSign_eq hn0, if_neg hminus]

end Text

namespace Editor

/-- The sign of a result or of a number by itself is changed, and nothing else is. -/
theorem buffer_toggleSign (e : Editor) :
    e.toggleSign.buffer =
      if e.executed = true ∨ isBareNumber e.buffer = true then Buffer.toggleSign e.buffer
      else e.buffer := by
  obtain ⟨buffer, status, answer⟩ := e
  cases status with
  | executed x => rfl
  | _ =>
      simp only [toggleSign, executed, Bool.false_eq_true, false_or]
      split <;> rfl

theorem executed_toggleSign (e : Editor) : e.toggleSign.executed = false := by
  obtain ⟨buffer, status, answer⟩ := e
  cases status with
  | executed x => rfl
  | _ =>
      simp only [toggleSign]
      by_cases hbare : isBareNumber buffer = true
      · rw [if_pos hbare]
        rfl
      · rw [if_neg hbare]
        rfl

/-- Where the sign can be changed the buffer is a number by itself. -/
theorem Coherent.isBareNumber_of_signed {e : Editor} (h : e.Coherent)
    (hsigned : e.executed = true ∨ isBareNumber e.buffer = true) :
    isBareNumber e.buffer = true := by
  rcases hsigned with hexecuted | hbare
  · obtain ⟨x, hx⟩ := e.executed_iff.1 hexecuted
    obtain ⟨v, hv, hbuffer, -⟩ := h.of_lastExpression? hx
    rw [hbuffer]
    exact isBareNumber_resultText (isFinite_of_evaluate hv)
  · exact hbare

end Editor

/-- In every session the change of sign negates a result or a number by itself, and is undone by
a second one, unless the buffer is `-0`. Everywhere else, and on `0`, it leaves the buffer. -/
theorem toggleSign_negates_run (actions : List Action) :
    let e := ({} : Editor).run actions
    (e.buffer ≠ Text.zero → (e.executed = true ∨ isBareNumber e.buffer = true) →
      isBareNumber e.toggleSign.buffer = true ∧ e.toggleSign.executed = false ∧
        Opposite (evaluate e.buffer) (evaluate e.toggleSign.buffer) ∧
        e.toggleSign.toggleSign.buffer =
          if e.buffer = ['-', '0'] then Text.zero else e.buffer) ∧
      (e.buffer = Text.zero ∨ e.executed = false ∧ isBareNumber e.buffer = false →
        e.toggleSign.buffer = e.buffer) := by
  intro e
  have h : e.Coherent := Editor.Coherent.new.run actions
  constructor
  · intro hzero hsigned
    have hbare := h.isBareNumber_of_signed hsigned
    have hbuffer := e.buffer_toggleSign
    rw [if_pos hsigned] at hbuffer
    have hbare' : isBareNumber e.toggleSign.buffer = true := by
      rw [hbuffer]
      exact isBareNumber_toggleSign hbare
    refine ⟨hbare', e.executed_toggleSign, ?_, ?_⟩
    · rw [hbuffer]
      exact opposite_evaluate_toggleSign hbare hzero
    · rw [e.toggleSign.buffer_toggleSign, if_pos (Or.inr hbare'), hbuffer]
      exact toggleSign_toggleSign hbare hzero
  · intro hkept
    rw [e.buffer_toggleSign]
    split
    · next hsigned =>
        rcases hkept with hzero | ⟨hexecuted, hbare⟩
        · rw [hzero]
          rfl
        · simp [hexecuted, hbare] at hsigned
    · rfl

/-- The result of `2-5` is `-3`: the change of sign makes it 3, and a second one -3 again. On
`2-5` itself the sign stays. -/
theorem toggleSign_negates_difference :
    let typed : List Action :=
      [.append (.digit 2), .append (.operator .minus), .append (.digit 5)]
    let e := ({} : Editor).run (typed ++ [.commit])
    e.buffer = ['-', '3'] ∧ e.toggleSign.executed = false ∧
      Opposite (evaluate ['-', '3']) (evaluate e.toggleSign.buffer) ∧
      e.toggleSign.toggleSign.buffer = ['-', '3'] ∧
      (({} : Editor).run typed).toggleSign.buffer = (({} : Editor).run typed).buffer := by
  intro typed e
  have hbuffer : e.buffer = ['-', '3'] := by decide +kernel
  have hexecuted : e.executed = true := by decide +kernel
  obtain ⟨hsigned, -⟩ := toggleSign_negates_run (typed ++ [.commit])
  obtain ⟨-, hkept⟩ := toggleSign_negates_run typed
  obtain ⟨-, hshown, hopposite, hback⟩ :=
    hsigned (by rw [hbuffer]; decide) (Or.inl hexecuted)
  rw [hbuffer] at hopposite hback
  exact ⟨hbuffer, hshown, hopposite, hback, hkept (Or.inr ⟨rfl, by decide⟩)⟩

end Calculator
