import Calculator.Proofs.Editor.Commit
import Calculator.Screen

/-!
# What is left of a session that is cleared

Clearing keeps the last answer and nothing else, and no action but the insertion of the
answer reads it. So an editor with another last answer (`Editor.withAnswer`) does the same
and replies the same (`perform_withAnswer`): only the answer differs, until a calculation
gives both the same one. Along a list of actions that is `shownAlong_withAnswer` for what
is shown and `lastAnswer_run` for the answer.
-/

namespace Calculator

/-- What can be seen of an action: the screen behind it, whether a result is on it, and
the reply. -/
structure Shown where
  screen : Screen
  executed : Bool
  reply : Reply
  deriving DecidableEq, Repr

/-- The last answer behind a reply, where `answer` was the one before. -/
def Reply.answer (answer : Text) (reply : Reply) : Text :=
  (reply.calculation?.map Calculation.result).getD answer

namespace Editor

/-- What can be seen of a list of actions, one after the other. -/
def shownAlong (e : Editor) : List Action → List Shown
  | [] => []
  | a :: actions =>
      let (next, reply) := e.perform a
      ⟨Screen.ofEditor next, next.executed, reply⟩ :: next.shownAlong actions

/-- The editor with another last answer. -/
def withAnswer (e : Editor) (answer : Text) : Editor :=
  { e with lastAnswer := answer }

section

variable (e : Editor) (answer : Text)

theorem shownAlong_cons (a : Action) (actions : List Action) :
    e.shownAlong (a :: actions) =
      ⟨Screen.ofEditor (e.perform a).1, (e.perform a).1.executed, (e.perform a).2⟩ ::
        (e.perform a).1.shownAlong actions := rfl

/-- The last answer is not on the screen. -/
theorem ofEditor_withAnswer :
    Screen.ofEditor (e.withAnswer answer) = Screen.ofEditor e := rfl

theorem executed_withAnswer : (e.withAnswer answer).executed = e.executed := rfl

theorem append_withAnswer (g : Glyph) :
    (e.withAnswer answer).append g = (e.append g).withAnswer answer := by
  obtain ⟨buffer, status, lastAnswer⟩ := e
  cases status with
  | editing => rfl
  | executed expression => cases g <;> rfl
  | failed report suggestion => rfl

theorem toggleSign_withAnswer :
    (e.withAnswer answer).toggleSign = e.toggleSign.withAnswer answer := by
  obtain ⟨buffer, status, lastAnswer⟩ := e
  cases status with
  | executed expression => rfl
  | _ => by_cases hbare : Buffer.isBareNumber buffer = true <;> simp [toggleSign, withAnswer, hbare]

theorem applyFix_withAnswer :
    (e.withAnswer answer).applyFix = (e.applyFix.1.withAnswer answer, e.applyFix.2) := by
  obtain ⟨buffer, status, lastAnswer⟩ := e
  cases status with
  | failed report suggestion => cases suggestion <;> rfl
  | _ => rfl

/-- A calculation gives both editors the same answer, and without one each keeps its own. -/
theorem commit_withAnswer :
    (e.withAnswer answer).commit =
      (e.commit.1.withAnswer ((Reply.calculated e.commit.2).answer answer), e.commit.2) := by
  by_cases hexecuted : e.executed = true
  · have hkept : (e.withAnswer answer).executed = true := hexecuted
    rw [commit_of_executed hexecuted, commit_of_executed hkept]
    rfl
  · have hbuffer : (e.withAnswer answer).buffer = e.buffer := rfl
    rw [commit, commit, executed_withAnswer, if_neg hexecuted, if_neg hexecuted, hbuffer]
    by_cases hzero : e.buffer = Text.zero
    · rw [if_pos hzero, if_pos hzero]
      rfl
    · rw [if_neg hzero, if_neg hzero]
      cases evaluate e.buffer <;> rfl

/-- Every action but the insertion of the answer does the same for both editors. -/
theorem perform_withAnswer {a : Action} (ha : a ≠ .insertAnswer) :
    (e.withAnswer answer).perform a =
      ((e.perform a).1.withAnswer ((e.perform a).2.answer answer), (e.perform a).2) := by
  cases a with
  | append g => exact congrArg (·, Reply.done) (e.append_withAnswer answer g)
  | toggleGroup => rfl
  | backspace => rfl
  | toggleSign => exact congrArg (·, Reply.done) (e.toggleSign_withAnswer answer)
  | insertAnswer => exact absurd rfl ha
  | commit =>
      change ((e.withAnswer answer).commit.1, Reply.calculated (e.withAnswer answer).commit.2) = _
      rw [commit_withAnswer]
      rfl
  | applyFix =>
      change ((e.withAnswer answer).applyFix.1, Reply.applied (e.withAnswer answer).applyFix.2) = _
      rw [applyFix_withAnswer]
      rfl
  | load expression => rfl
  | clear => rfl

end

/-- What is shown along a list of actions does not depend on the last answer. -/
theorem shownAlong_withAnswer {actions : List Action} (h : .insertAnswer ∉ actions) (e : Editor)
    (answer : Text) :
    (e.withAnswer answer).shownAlong actions = e.shownAlong actions := by
  induction actions generalizing e answer with
  | nil => rfl
  | cons a actions ih =>
      rw [List.mem_cons, not_or] at h
      rw [shownAlong_cons, shownAlong_cons, perform_withAnswer e answer (Ne.symm h.1), ih h.2,
        ofEditor_withAnswer, executed_withAnswer]

/-- The last answer of a run is that of its last calculation, if it makes one. -/
theorem lastAnswer_run (e : Editor) (actions : List Action) :
    (e.run actions).lastAnswer =
      ((e.shownAlong actions).map Shown.reply).foldl Reply.answer e.lastAnswer := by
  induction actions generalizing e with
  | nil => rfl
  | cons a actions ih =>
      rw [run_cons, ih, shownAlong_cons, List.map_cons, List.foldl_cons]
      have hperforms := e.performs_perform a
      generalize e.perform a = outcome at hperforms
      cases hperforms with
      | calculates hzero hv => rfl
      | keeps hreply hanswer hshown => rw [Reply.answer, hreply, hanswer]; rfl

end Editor

section

variable {replies : List Reply}

/-- Without a calculation the last answer stays. -/
theorem Reply.foldl_answer_of_none (h : ∀ r ∈ replies, r.calculation? = none) (answer : Text) :
    replies.foldl Reply.answer answer = answer := by
  induction replies with
  | nil => rfl
  | cons r replies ih =>
      obtain ⟨hr, hrest⟩ := List.forall_mem_cons.1 h
      have hanswer : r.answer answer = answer := by rw [Reply.answer, hr]; rfl
      rw [List.foldl_cons, hanswer, ih hrest]

/-- Behind a calculation it does not matter any more what the last answer was. -/
theorem Reply.foldl_answer_of_exists (h : ∃ r ∈ replies, r.calculation? ≠ none)
    (answer other : Text) :
    replies.foldl Reply.answer answer = replies.foldl Reply.answer other := by
  induction replies generalizing answer other with
  | nil =>
      obtain ⟨r, hr, -⟩ := h
      cases hr
  | cons r replies ih =>
      rw [List.foldl_cons, List.foldl_cons]
      by_cases hr : r.calculation? = none
      · obtain ⟨q, hq, hcalculation⟩ := h
        refine ih ⟨q, ?_, hcalculation⟩ _ _
        exact (List.mem_cons.1 hq).resolve_left fun heq => hcalculation (heq ▸ hr)
      · obtain ⟨c, hc⟩ := Option.ne_none_iff_exists'.1 hr
        rw [Reply.answer, Reply.answer, hc]
        rfl

end

/-- Clearing forgets everything but the last answer: without an insertion of the answer,
all that is shown from then on is what a new editor shows. As soon as a calculation is
made the last answers are equal too, and until then the old one is kept. -/
theorem shownAlong_clear {actions : List Action} (h : .insertAnswer ∉ actions) (e : Editor) :
    e.clear.shownAlong actions = ({} : Editor).shownAlong actions ∧
      ((∃ s ∈ ({} : Editor).shownAlong actions, s.reply.calculation? ≠ none) →
        (e.clear.run actions).lastAnswer = (({} : Editor).run actions).lastAnswer) ∧
      ((∀ s ∈ ({} : Editor).shownAlong actions, s.reply.calculation? = none) →
        (e.clear.run actions).lastAnswer = e.lastAnswer) := by
  have hshown : e.clear.shownAlong actions = ({} : Editor).shownAlong actions :=
    Editor.shownAlong_withAnswer h {} e.lastAnswer
  refine ⟨hshown, ?_, fun hnone => ?_⟩
  · rintro ⟨s, hs, hcalculation⟩
    rw [Editor.lastAnswer_run, Editor.lastAnswer_run, hshown]
    exact Reply.foldl_answer_of_exists ⟨s.reply, List.mem_map_of_mem hs, hcalculation⟩ _ _
  · rw [Editor.lastAnswer_run, hshown]
    exact Reply.foldl_answer_of_none (List.forall_mem_map.2 hnone) _

/-- After `7+1=` and clearing, `2+=` fails as it does on a new editor, and the repaired
expression with `3` behind it leaves the same answer `23`; before that `8` is kept. -/
theorem shownAlong_clear_after_sum :
    let e := ({} : Editor).run [.append (.digit 7), .append (.operator .plus),
      .append (.digit 1), .commit]
    let failing : List Action := [.append (.digit 2), .append (.operator .plus), .commit]
    let repaired : List Action := failing ++ [.applyFix, .append (.digit 3), .commit, .toggleSign,
      .append (.operator .times), .append (.digit 2), .commit]
    e.clear.shownAlong repaired = ({} : Editor).shownAlong repaired ∧
      (e.clear.run repaired).lastAnswer = (({} : Editor).run repaired).lastAnswer ∧
      (e.clear.run failing).lastAnswer = ['8'] := by
  intro e failing repaired
  have hrepaired : .insertAnswer ∉ repaired := by decide
  have hfailing : .insertAnswer ∉ failing := by decide
  obtain ⟨hshown, hanswer, -⟩ := shownAlong_clear hrepaired e
  obtain ⟨-, -, hkept⟩ := shownAlong_clear hfailing e
  have hbefore : e.lastAnswer = ['8'] := by decide +kernel
  exact ⟨hshown, hanswer (by decide +kernel), (hkept (by decide +kernel)).trans hbefore⟩

end Calculator
