import Calculator.Proofs.Editor.Coherence
import Calculator.Proofs.Editor.Commit
import Calculator.Session

/-!
# The calculation that is kept

A session keeps the last calculation that was made. It is kept beside the editor, but no
action lets the two drift apart (`Faithful.perform`): an action calculates, and then the
calculation, the last answer and the result that is shown are all new, or it leaves the
first two and shows nothing new. An expression that was calculated once is calculated
again wherever it is loaded (`Editor.commit_load`).
-/

namespace Calculator

theorem Editor.commit_load (e : Editor) {x : Text} {v : Float} (hzero : x ≠ Text.zero)
    (hv : evaluate x = .ok v) : (e.load x).commit.2 = some ⟨x, resultText v⟩ := by
  have hne : x ≠ [] := by
    rintro rfl
    cases hv
  rw [load, Text.orZero_of_ne_nil hne]
  exact commit_eq_some_iff.2 ⟨rfl, hzero, v, hv, rfl⟩

namespace Session

/-- Does a list of actions, the first one first. -/
def performAll (s : Session) (actions : List Action) : Session :=
  actions.foldl perform s

/-- The calculation that is kept was made, its result is the last answer, and a result
that is shown is the one that was calculated last. -/
structure Faithful (s : Session) : Prop where
  calculated : ∀ c : Calculation, s.lastCalculation = some c →
    c.expression ≠ Text.zero ∧
      ∃ v : Float, evaluate c.expression = .ok v ∧ c.result = resultText v
  answer : s.editor.lastAnswer = (s.lastCalculation.map Calculation.result).getD Text.zero
  shown : ∀ x : Text, s.editor.lastExpression? = some x →
    s.lastCalculation = some ⟨x, s.editor.buffer⟩

namespace Faithful

variable {s : Session}

theorem new : ({} : Session).Faithful where
  calculated _ hc := nomatch hc
  answer := rfl
  shown _ hx := nomatch hx

/-- One action. -/
theorem perform (h : s.Faithful) (a : Action) : (s.perform a).Faithful := by
  have hperforms := s.editor.performs_perform a
  unfold Session.perform
  generalize s.editor.perform a = outcome at hperforms
  cases hperforms with
  | @calculates v hzero hv =>
      refine ⟨fun c hc => ?_, rfl, fun x hx => ?_⟩
      · cases hc
        exact ⟨hzero, v, hv, rfl⟩
      · cases hx
        rfl
  | @keeps next reply hreply hanswer hshown =>
      -- the calculation is still the one of before
      simp only [hreply, Option.none_or]
      refine ⟨h.calculated, hanswer.trans h.answer, fun x hx => ?_⟩
      obtain rfl : next = s.editor := hshown ((Editor.executed_iff next).2 ⟨x, hx⟩)
      exact h.shown x hx

theorem performAll (h : s.Faithful) (actions : List Action) :
    (s.performAll actions).Faithful := by
  induction actions generalizing s with
  | nil => exact h
  | cons a actions ih => exact ih (h.perform a)

end Faithful

end Session

/-- In every session the calculation that is kept is the value of its expression, its
result is the last answer, and its expression gives the same calculation again from every
state of an editor. Where none is kept there is no last answer yet, and a result that is
shown belongs to the calculation that is kept. -/
theorem history_performAll (actions : List Action) :
    let s := ({} : Session).performAll actions
    (∀ c : Calculation, s.lastCalculation = some c →
      (∃ v : Float, evaluate c.expression = .ok v ∧ c.result = resultText v) ∧
        s.editor.lastAnswer = c.result ∧
        ∀ e : Editor, (e.load c.expression).commit.2 = some c) ∧
      (s.lastCalculation = none → s.editor.lastAnswer = Text.zero) ∧
      (s.editor.executed = true →
        ∃ x : Text, s.editor.lastExpression? = some x ∧
          s.lastCalculation = some ⟨x, s.editor.buffer⟩) := by
  intro s
  have h : s.Faithful := Session.Faithful.new.performAll actions
  refine ⟨fun c hc => ?_, fun hnone => ?_, fun hexecuted => ?_⟩
  · obtain ⟨hzero, v, hv, hresult⟩ := h.calculated c hc
    refine ⟨⟨v, hv, hresult⟩, ?_, fun e => ?_⟩
    · rw [h.answer, hc]
      rfl
    · rw [e.commit_load hzero hv, ← hresult]
  · rw [h.answer, hnone]
    rfl
  · obtain ⟨x, hx⟩ := s.editor.executed_iff.1 hexecuted
    exact ⟨x, hx, h.shown x hx⟩

/-- After `2+3=` the sum is kept, and it is calculated again in the place of `7-1`; before
the first calculation there is no last answer. -/
theorem history_after_sum :
    (({} : Session).performAll [.append (.digit 2), .append (.operator .plus),
        .append (.digit 3), .commit]).lastCalculation = some ⟨['2', '+', '3'], ['5']⟩ ∧
      ((({} : Editor).load ['7', '-', '1']).load ['2', '+', '3']).commit.2 =
        some ⟨['2', '+', '3'], ['5']⟩ ∧
      (({} : Session).performAll [.append (.digit 2)]).editor.lastAnswer = Text.zero := by
  obtain ⟨hkept, -, hshown⟩ := history_performAll [.append (.digit 2),
    .append (.operator .plus), .append (.digit 3), .commit]
  obtain ⟨-, hnone, -⟩ := history_performAll [.append (.digit 2)]
  obtain ⟨x, hx, hcalculation⟩ := hshown (by decide +kernel)
  have hexpression : (({} : Session).performAll [.append (.digit 2), .append (.operator .plus),
      .append (.digit 3), .commit]).editor.lastExpression? = some ['2', '+', '3'] := by
    decide +kernel
  have hbuffer : (({} : Session).performAll [.append (.digit 2), .append (.operator .plus),
      .append (.digit 3), .commit]).editor.buffer = ['5'] := by decide +kernel
  obtain rfl : ['2', '+', '3'] = x := Option.some.inj (hexpression.symm.trans hx)
  rw [hbuffer] at hcalculation
  exact ⟨hcalculation, (hkept _ hcalculation).2.2 _, hnone rfl⟩

end Calculator
