import Calculator.Proofs.Editor.Coherence

/-!
# What the edits keep

A property of the buffer that every edit keeps is true of the buffer in every session
(`Buffer.Invariant.run`). The edits are those of the actions that are allowed. A
result comes in place of the buffer, an answer is a number by itself, and a suggestion
is one for the text in the buffer; the rest of the state does not matter.
-/

namespace Calculator

open Buffer (isBareNumber)

/-- Every edit keeps the property `P` of the buffer, as far as the action is
allowed. -/
structure Buffer.Invariant (allowed : Action → Prop) (P : Text → Prop) : Prop where
  zero : P Text.zero
  opening : P ['(']
  result {v : Float} : v.isFinite = true → P (resultText v)
  append {t : Text} (g : Glyph) : P t → P (Buffer.append t g)
  toggleGroup {t : Text} : P t → P (Buffer.toggleGroup t)
  backspace {t : Text} : P t → P (Buffer.backspace t)
  toggleSign {t : Text} : isBareNumber t = true → P t → P (Buffer.toggleSign t)
  insertAnswer {t answer : Text} :
    allowed .insertAnswer → isBareNumber answer = true → P t → P (Buffer.insertAnswer t answer)
  fix {t : Text} {s : Suggestion} : allowed .applyFix → suggest t = some s → P t → P s.fix
  load {t : Text} : allowed (.load t) → P t.orZero

/-- An operator goes on with a number. -/
theorem Buffer.append_operator_of_isBareNumber {t : Text} (h : isBareNumber t = true)
    (op : Operator) : Buffer.append t (.operator op) = t ++ [op.glyph] := by
  obtain ⟨rest, c, rfl, hc⟩ := exists_append_of_isBareNumber h
  have hnumeric : isNumeric c = true := isNumeric_of_isDigit hc
  have hoperator : isOperator c = false := isOperator_of_isNumeric hnumeric
  have hopening : c ≠ '(' := by
    rintro rfl
    exact absurd hnumeric (by decide)
  simp [Buffer.append, appendOperator, hoperator, hopening]

namespace Editor.Coherent

theorem exists_result_of_executed {e : Editor} (h : e.Coherent) (hexecuted : e.executed = true) :
    ∃ v : Float, v.isFinite = true ∧ e.buffer = resultText v ∧ e.lastAnswer = resultText v := by
  obtain ⟨x, hx⟩ := e.executed_iff.1 hexecuted
  obtain ⟨v, hv, hbuffer, hanswer, -⟩ := h.of_lastExpression? hx
  exact ⟨v, isFinite_of_evaluate hv, hbuffer, hanswer⟩

/-- A report that evaluation leaves is about the buffer, which it leaves too. -/
theorem of_commit_report? {e : Editor} (h : e.Coherent) {r : Report}
    (hr : e.commit.1.report? = some r) :
    evaluate e.buffer = .error r.fault ∧ e.commit.1.suggestion? = suggest e.buffer := by
  obtain ⟨-, hvalue, -, hsuggestion⟩ := h.commit.of_report? hr
  have hbuffer : e.commit.1.buffer = e.buffer := by
    have hcommits := e.commits_commit
    generalize e.commit = outcome at hcommits hr ⊢
    cases hcommits with
    | value _ _ _ => cases hr
    | _ => rfl
  rw [hbuffer] at hvalue hsuggestion
  exact ⟨hvalue, hsuggestion⟩

end Editor.Coherent

namespace Buffer.Invariant

variable {allowed : Action → Prop} {P : Text → Prop} {e : Editor}

theorem editor_append (h : Invariant allowed P) (he : e.Coherent) (hbuffer : P e.buffer)
    (g : Glyph) : P (e.append g).buffer := by
  unfold Editor.append
  split
  · exact h.append _ hbuffer
  · next x op hstatus =>
      have hbare := he.isBareNumber_buffer hstatus
      have happend := h.append (.operator op) hbuffer
      rwa [append_operator_of_isBareNumber hbare] at happend
  · exact h.append _ h.zero
  · rw [Editor.edit]
    split
    · exact h.append _ h.zero
    · exact h.zero

theorem editor_toggleSign (h : Invariant allowed P) (he : e.Coherent) (hbuffer : P e.buffer) :
    P e.toggleSign.buffer := by
  unfold Editor.toggleSign
  split
  · next x hstatus => exact h.toggleSign (he.isBareNumber_buffer hstatus) hbuffer
  · split
    · next hbare => exact h.toggleSign hbare hbuffer
    · exact hbuffer

theorem editor_insertAnswer (h : Invariant allowed P) (he : e.Coherent) (hbuffer : P e.buffer)
    (hallowed : allowed .insertAnswer) : P e.insertAnswer.buffer := by
  change P (if e.executed then e.lastAnswer else Buffer.insertAnswer e.buffer e.lastAnswer)
  split
  · next hexecuted =>
      obtain ⟨v, hv, -, hanswer⟩ := he.exists_result_of_executed hexecuted
      rw [hanswer]
      exact h.result hv
  · exact h.insertAnswer hallowed he.isBareNumber_lastAnswer hbuffer

theorem editor_commit (h : Invariant allowed P) (hbuffer : P e.buffer) :
    P e.commit.1.buffer := by
  have hcommits := e.commits_commit
  generalize e.commit = outcome at hcommits
  cases hcommits with
  | value _ _ hv => exact h.result (isFinite_of_evaluate hv)
  | _ => exact hbuffer

theorem editor_applyFix (h : Invariant allowed P) (he : e.Coherent) (hbuffer : P e.buffer)
    (hallowed : allowed .applyFix) : P e.applyFix.1.buffer := by
  unfold Editor.applyFix
  split
  · next s hs => exact h.fix hallowed (he.suggest_of_suggestion? hs) hbuffer
  · exact hbuffer

/-- One action. -/
theorem perform (h : Invariant allowed P) (he : e.Coherent) (hbuffer : P e.buffer) {a : Action}
    (ha : allowed a) : P (e.perform a).1.buffer := by
  cases a with
  | append g => exact h.editor_append he hbuffer g
  | toggleGroup =>
      change P (if e.executed then ['('] else Buffer.toggleGroup e.buffer)
      split
      · exact h.opening
      · exact h.toggleGroup hbuffer
  | backspace => exact h.backspace hbuffer
  | toggleSign => exact h.editor_toggleSign he hbuffer
  | insertAnswer => exact h.editor_insertAnswer he hbuffer ha
  | commit => exact h.editor_commit hbuffer
  | applyFix => exact h.editor_applyFix he hbuffer ha
  | load expression => exact h.load ha
  | clear => exact h.zero

/-- Every session from a new editor on. -/
theorem run (h : Invariant allowed P) {actions : List Action}
    (hactions : ∀ a ∈ actions, allowed a) : P (({} : Editor).run actions).buffer := by
  suffices hrun : ∀ e : Editor, e.Coherent → P e.buffer → P (e.run actions).buffer from
    hrun {} .new h.zero
  induction actions with
  | nil => exact fun _ _ hbuffer => hbuffer
  | cons a actions ih =>
      intro e he hbuffer
      obtain ⟨ha, hrest⟩ := List.forall_mem_cons.1 hactions
      exact ih hrest (e.perform a).1 (he.perform a) (h.perform he hbuffer ha)

end Buffer.Invariant

end Calculator
