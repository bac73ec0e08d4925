import Calculator.Proofs.Editor.Coherence
import Calculator.Proofs.Editor.Commit

/-!
# The preview

The preview shows the result that evaluation would put into the buffer
(`preview_eq_some_iff`). The two look at the state in different ways: the preview shows
nothing where a fault is reported, and evaluation evaluates there again. They agree as a
report is always one on the buffer, so that the second evaluation fails as the first did.
-/

namespace Calculator

open Buffer (isBareNumber)

namespace Editor

theorem preview_of_editing {e : Editor} (hstatus : e.status = .editing) {s : Text} :
    e.preview = some s ↔
      isBareNumber e.buffer = false ∧
        ∃ v : Float, evaluate e.buffer = .ok v ∧ resultText v = s := by
  rw [preview, hstatus]
  cases isBareNumber e.buffer with
  | true => simp
  | false =>
      cases evaluate e.buffer with
      | error f => simp [Except.toOption]
      | ok v => simp [Except.toOption]

namespace Coherent

variable {e : Editor}

/-- Evaluation calculates only what is being edited. -/
theorem editing_of_evaluate (h : e.Coherent) (hexecuted : e.executed = false) {v : Float}
    (hv : evaluate e.buffer = .ok v) : e.status = .editing := by
  cases hstatus : e.status with
  | editing => rfl
  | executed x =>
      rw [executed, hstatus] at hexecuted
      cases hexecuted
  | failed r s =>
      obtain ⟨-, hfault, -⟩ := h.of_report? (r := r) (by rw [report?, hstatus])
      rw [hv] at hfault
      cases hfault

/-- The preview is the result that evaluation would put into the buffer, unless the
buffer is a bare number. -/
theorem preview_eq_some_iff (h : e.Coherent) {s : Text} :
    e.preview = some s ↔ e.commit.2 = some ⟨e.buffer, s⟩ ∧ isBareNumber e.buffer = false := by
  rw [commit_eq_some_iff]
  constructor
  · intro hs
    have hstatus : e.status = .editing := by
      unfold preview at hs
      split at hs
      · assumption
      · cases hs
    obtain ⟨hbare, v, hv, rfl⟩ := (preview_of_editing hstatus).1 hs
    have hzero : e.buffer ≠ Text.zero := by
      intro hzero
      rw [hzero] at hbare
      cases hbare
    exact ⟨⟨by rw [executed, hstatus], hzero, v, hv, rfl⟩, hbare⟩
  · rintro ⟨⟨hexecuted, -, v, hv, hs⟩, hbare⟩
    have hresult : s = resultText v := congrArg Calculation.result hs
    exact (preview_of_editing (h.editing_of_evaluate hexecuted hv)).2 ⟨hbare, v, hv, hresult.symm⟩

end Coherent

end Editor

/-- In every session the preview shows what evaluation would make of the buffer, where
that is not a bare number. Evaluation calculates nothing but the buffer, changes nothing
when it is done once more, and leaves the buffer and the last answer where it calculates
nothing. -/
theorem preview_run (actions : List Action) :
    let e := ({} : Editor).run actions
    (∀ s : Text, e.preview = some s ↔
      e.commit.2 = some ⟨e.buffer, s⟩ ∧ isBareNumber e.buffer = false) ∧
      (∀ c : Calculation, e.commit.2 = some c → c.expression = e.buffer) ∧
      e.commit.1.commit = (e.commit.1, none) ∧
      (e.commit.2 = none →
        e.commit.1.buffer = e.buffer ∧ e.commit.1.lastAnswer = e.lastAnswer) := by
  intro e
  have h : e.Coherent := Editor.Coherent.new.run actions
  refine ⟨fun s => h.preview_eq_some_iff, fun c hc => ?_, e.commit_commit,
    Editor.buffer_of_commit_eq_none⟩
  obtain ⟨-, -, v, -, rfl⟩ := Editor.commit_eq_some_iff.1 hc
  rfl

/-- `2+3` is previewed as the result that it evaluates to, and `2+` stays as it is. -/
theorem preview_of_sum :
    (({} : Editor).run [.append (.digit 2), .append (.operator .plus),
        .append (.digit 3)]).preview = some ['5'] ∧
      (Calculation.mk ['2', '+', '3'] ['5']).expression =
        (({} : Editor).run [.append (.digit 2), .append (.operator .plus),
          .append (.digit 3)]).buffer ∧
      (({} : Editor).run [.append (.digit 2), .append (.operator .plus)]).commit.1.buffer =
        (({} : Editor).run [.append (.digit 2), .append (.operator .plus)]).buffer := by
  have hcommit : (({} : Editor).run [.append (.digit 2), .append (.operator .plus),
      .append (.digit 3)]).commit.2 = some ⟨['2', '+', '3'], ['5']⟩ := by decide +kernel
  obtain ⟨hpreview, hexpression, -, -⟩ := preview_run [.append (.digit 2),
    .append (.operator .plus), .append (.digit 3)]
  obtain ⟨-, -, -, hfailing⟩ := preview_run [.append (.digit 2), .append (.operator .plus)]
  exact ⟨(hpreview _).2 ⟨hcommit, rfl⟩, hexpression _ hcommit, (hfailing (by decide +kernel)).1⟩

end Calculator
