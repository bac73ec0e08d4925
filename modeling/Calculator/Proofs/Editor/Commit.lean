import Calculator.Editor.Action

/-!
# Evaluation for good

Evaluation does one of four things, and `Commits` lists them with all that each needs
and leaves. So it answers the calculation of the buffer or leaves its texts as they are
(`commit_eq_some_iff`, `buffer_of_commit_eq_none`), and doing it twice is doing it once
(`commit_commit`).

It is the only action that calculates. Every other one leaves the last answer, and shows
a result only where it changes nothing (`performs_perform`).
-/

namespace Calculator

namespace Editor

/-- What evaluating the buffer leads to. -/
inductive Commits (e : Editor) : Editor × Option Calculation → Prop
  | shown : e.executed = true → Commits e (e, none)
  | zero :
      e.executed = false → e.buffer = Text.zero → Commits e ({ e with status := .editing }, none)
  | value {v : Float} :
      e.executed = false → e.buffer ≠ Text.zero → evaluate e.buffer = .ok v →
        Commits e
          ({ buffer := resultText v, status := .executed e.buffer, lastAnswer := resultText v },
            some ⟨e.buffer, resultText v⟩)
  | fault {f : Fault} :
      e.executed = false → e.buffer ≠ Text.zero → evaluate e.buffer = .error f →
        Commits e ({ e with status := .failed (Report.on e.buffer f) (suggest e.buffer) }, none)

theorem commits_commit (e : Editor) : e.Commits e.commit := by
  unfold commit
  split
  · next hexecuted => exact .shown hexecuted
  · next hexecuted =>
      have hexecuted : e.executed = false := eq_false_of_ne_true hexecuted
      split
      · next hzero => exact .zero hexecuted hzero
      · next hzero =>
          split
          · next v hv => exact .value hexecuted hzero hv
          · next f hf => exact .fault hexecuted hzero hf

/-- A calculation that is made is that of the buffer. -/
theorem commit_eq_some_iff {e : Editor} {c : Calculation} :
    e.commit.2 = some c ↔
      e.executed = false ∧ e.buffer ≠ Text.zero ∧
        ∃ v : Float, evaluate e.buffer = .ok v ∧ c = ⟨e.buffer, resultText v⟩ := by
  have hcommits := e.commits_commit
  generalize e.commit = outcome at hcommits
  cases hcommits with
  | shown hexecuted => simp [hexecuted]
  | zero hexecuted hzero => simp [hzero]
  | value hexecuted hzero hv => simp [hexecuted, hzero, hv, eq_comm]
  | fault hexecuted hzero hf => simp [hf]

/-- Where no calculation is made, the texts stay. -/
theorem buffer_of_commit_eq_none {e : Editor} (h : e.commit.2 = none) :
    e.commit.1.buffer = e.buffer ∧ e.commit.1.lastAnswer = e.lastAnswer := by
  have hcommits := e.commits_commit
  generalize e.commit = outcome at hcommits h
  cases hcommits with
  | shown hexecuted => exact ⟨rfl, rfl⟩
  | zero hexecuted hzero => exact ⟨rfl, rfl⟩
  | value hexecuted hzero hv => cases h
  | fault hexecuted hzero hf => exact ⟨rfl, rfl⟩

theorem commit_of_executed {e : Editor} (h : e.executed = true) : e.commit = (e, none) := by
  rw [commit, if_pos h]

/-- Evaluating once more changes nothing. -/
theorem commit_commit (e : Editor) : e.commit.1.commit = (e.commit.1, none) := by
  have hcommits := e.commits_commit
  generalize e.commit = outcome at hcommits
  cases hcommits with
  | shown hexecuted => exact commit_of_executed hexecuted
  | zero hexecuted hzero => simp [commit, executed, hzero]
  | value hexecuted hzero hv => exact commit_of_executed rfl
  | fault hexecuted hzero hf => simp [commit, executed, hzero, hf]

/-- What an action leads to: the calculation of the buffer, or a state with the same last
answer, in which a result is shown only if nothing has changed. -/
inductive Performs (e : Editor) : Editor × Reply → Prop
  | calculates {v : Float} :
      e.buffer ≠ Text.zero → evaluate e.buffer = .ok v →
        Performs e
          ({ buffer := resultText v, status := .executed e.buffer, lastAnswer := resultText v },
            .calculated (some ⟨e.buffer, resultText v⟩))
  | keeps {next : Editor} {reply : Reply} :
      reply.calculation? = none → next.lastAnswer = e.lastAnswer →
        (next.executed = true → next = e) → Performs e (next, reply)

theorem Performs.edit {e : Editor} (buffer : Text) {reply : Reply}
    (hreply : reply.calculation? = none) : Performs e (e.edit buffer, reply) :=
  .keeps hreply rfl fun hexecuted => nomatch hexecuted

theorem performs_perform (e : Editor) (a : Action) : e.Performs (e.perform a) := by
  cases a with
  | append g =>
      change Performs e (e.append g, .done)
      unfold append
      split <;> exact .edit _ rfl
  | toggleGroup => exact .edit _ rfl
  | backspace => exact .edit _ rfl
  | toggleSign =>
      change Performs e (e.toggleSign, .done)
      unfold toggleSign
      split
      · exact .edit _ rfl
      · next hstatus =>
          have hexecuted : e.executed = false := by
            unfold executed
            split
            · next x hx => exact absurd hx (hstatus x)
            · rfl
          split
          · exact .keeps rfl rfl fun htrue => absurd (hexecuted.symm.trans htrue) (by decide)
          · exact .keeps rfl rfl fun _ => rfl
  | insertAnswer => exact .edit _ rfl
  | commit =>
      change Performs e (e.commit.1, .calculated e.commit.2)
      have hcommits := e.commits_commit
      generalize e.commit = outcome at hcommits
      cases hcommits with
      | shown hexecuted => exact .keeps rfl rfl fun _ => rfl
      | zero hexecuted hzero => exact .keeps rfl rfl fun htrue => nomatch htrue
      | value hexecuted hzero hv => exact .calculates hzero hv
      | fault hexecuted hzero hf => exact .keeps rfl rfl fun htrue => nomatch htrue
  | applyFix =>
      change Performs e (e.applyFix.1, .applied e.applyFix.2)
      unfold applyFix
      split
      · exact .edit _ rfl
      · exact .keeps rfl rfl fun _ => rfl
  | load expression => exact .edit _ rfl
  | clear => exact .edit _ rfl

end Editor

end Calculator
