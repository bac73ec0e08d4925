import Calculator.Proofs.Editor.Invariant
import Calculator.Proofs.Editor.Segment
import Calculator.Proofs.Expression.Nesting
import Calculator.Proofs.Repair.Closing
import Calculator.Proofs.Repair.Mending
import Calculator.Proofs.Text.Nesting

/-!
# Groups in a session

The key for groups counts parentheses and does not match them, and a repair takes
empty groups out of the middle of the buffer. The buffer nests all the same as long
as no expression is loaded into it (`Nests`): no group is closed in vain, and no row
of parentheses is written that a later repair could turn into a longer one. What
carries this over a repair is that no group is opened directly behind a closed one.
-/

namespace Calculator

open Buffer (isBareNumber isDigits hasOpenGroup maxOpenings)

/-- Three groups opened in a row, and a group opened directly behind a closed one. -/
def forbiddenRows : List Text :=
  [['(', '(', '('], [')', '(']]

/-- None of the rows occurs in the text. -/
def AvoidsRows (t : Text) : Prop :=
  ∀ p ∈ forbiddenRows, ¬p <:+: t

/-- No group of the text is closed in vain, and none of the rows occurs in it. -/
structure Nests (t : Text) : Prop where
  closes : (openGroups? 0 t).isSome = true
  rows : AvoidsRows t

instance (t : Text) : Decidable (AvoidsRows t) :=
  inferInstanceAs (Decidable (∀ p ∈ forbiddenRows, ¬p <:+: t))

theorem parenthesis_of_mem_forbiddenRows :
    ∀ p ∈ forbiddenRows, ∀ c ∈ p, c = '(' ∨ c = ')' := by
  simp [forbiddenRows]

/-- A row goes on with opening parentheses only. -/
theorem opening_of_mem_tail_forbiddenRows :
    ∀ p ∈ forbiddenRows, ∀ c ∈ p.tail, c = '(' := by
  simp [forbiddenRows]

namespace AvoidsRows

theorem of_isInfix {t w : Text} (h : AvoidsRows t) (hw : w <:+: t) : AvoidsRows w :=
  fun p hp hpw => h p hp (hpw.trans hw)

theorem cons {c : Char} {v : Text} (hopening : c ≠ '(') (hclosing : c ≠ ')') (h : AvoidsRows v) :
    AvoidsRows (c :: v) := by
  intro p hp hpv
  have hne : p ≠ [] := by
    rintro rfl
    exact absurd hp (by decide)
  have hgap : ∀ d ∈ [c], d ∉ p := by
    rw [List.forall_mem_singleton]
    exact fun hc => (parenthesis_of_mem_forbiddenRows p hp c hc).elim hopening hclosing
  exact h p hp (isInfix_of_isInfix_gap hne hgap hpv)

/-- A row goes across a cut only if a group is opened directly behind it. -/
theorem append {u v : Text} (hu : AvoidsRows u) (hv : AvoidsRows v)
    (hhead : ∀ c ∈ v.head?, c ≠ '(') : AvoidsRows (u ++ v) := by
  intro p hp hpuv
  have htail : ∀ c ∈ v.head?, c ∉ p.tail := fun c hc hmem =>
    hhead c hc (opening_of_mem_tail_forbiddenRows p hp c hmem)
  rcases isInfix_of_isInfix_append hpuv htail with h | h
  · exact hu p hp h
  · exact hv p hp h

/-- What stands behind a closed group can stand anywhere. -/
theorem append_behind_closing {u v : Text} (hu : AvoidsRows u) (hv : AvoidsRows (')' :: v)) :
    AvoidsRows (u ++ v) := by
  refine hu.append (hv.of_isInfix (List.suffix_cons ..).isInfix) fun c hc heq => ?_
  obtain ⟨rest, rfl⟩ := List.head?_eq_some_iff.1 (heq ▸ hc)
  exact hv [')', '('] (by decide) ⟨[], rest, rfl⟩

theorem of_not_mem {w : Text} (hw : ∀ c ∈ w, c ≠ '(' ∧ c ≠ ')') : AvoidsRows w := by
  induction w with
  | nil =>
      intro p hp hnil
      rw [List.infix_nil.1 hnil] at hp
      exact absurd hp (by decide)
  | cons c w ih =>
      obtain ⟨hc, hrest⟩ := List.forall_mem_cons.1 hw
      exact cons hc.1 hc.2 (ih hrest)

/-- A repair opens no group behind a closed one, whatever it takes away. -/
theorem mends {t w : Text} (h : AvoidsRows t) (hmends : Mends t w) : AvoidsRows w := by
  cases hmends with
  | @repeated u v c hc =>
      have hu : AvoidsRows u := h.of_isInfix (List.prefix_append ..).isInfix
      have hv : AvoidsRows (c :: v) := h.of_isInfix ⟨u ++ [c], [], by simp⟩
      exact hu.append hv (by simpa using (isPlain_of_isOperator hc).2.1)
  | group u v =>
      have hu : AvoidsRows u := h.of_isInfix (List.prefix_append ..).isInfix
      exact hu.append_behind_closing (h.of_isInfix ⟨u ++ ['('], [], by simp⟩)
  | @operand u v c hc =>
      have hu : AvoidsRows u := h.of_isInfix (List.prefix_append ..).isInfix
      exact hu.append_behind_closing (h.of_isInfix ⟨u ++ [c, '('], [], by simp⟩)
  | @percent u v d hd _ =>
      obtain ⟨hopening, hclosing⟩ := ne_parenthesis_of_isNumeric (isNumeric_of_isDigit hd)
      have hu : AvoidsRows u := h.of_isInfix (List.prefix_append ..).isInfix
      have hv : AvoidsRows v := h.of_isInfix ⟨u ++ ['%', d], [], by simp⟩
      have hmoved : AvoidsRows (d :: '%' :: v) :=
        .cons hopening hclosing (.cons (by decide) (by decide) hv)
      exact hu.append hmoved (by simpa using hopening)
  | start v _ => exact h.of_isInfix (List.suffix_cons ..).isInfix
  | ending u _ => exact h.of_isInfix (List.prefix_append ..).isInfix
  | close _ => exact h.append (by decide) (by simp)

end AvoidsRows

/-- A repair closes no group in vain. -/
theorem isSome_openGroups?_of_mends {t w : Text} (h : (openGroups? 0 t).isSome = true)
    (hmends : Mends t w) : (openGroups? 0 w).isSome = true := by
  have hkept : ∀ {u v v' : Text}, (∀ k : Nat, openGroups? k v = openGroups? k v') →
      (openGroups? 0 (u ++ v)).isSome = true → (openGroups? 0 (u ++ v')).isSome = true := by
    intro u v v' hv hsome
    rwa [← openGroups?_append_congr hv]
  cases hmends with
  | @repeated u v c hc =>
      obtain ⟨-, hopening, hclosing⟩ := isPlain_of_isOperator hc
      exact hkept (fun k => openGroups?_cons_of_ne hopening hclosing k (c :: v)) h
  | group u v => exact hkept (v := '(' :: ')' :: v) (fun k => rfl) h
  | @operand u v c hc =>
      obtain ⟨-, hopening, hclosing⟩ := isPlain_of_isOperator hc
      exact hkept (fun k => openGroups?_cons_of_ne hopening hclosing k ('(' :: ')' :: v)) h
  | @percent u v d hd _ =>
      obtain ⟨hopening, hclosing⟩ := ne_parenthesis_of_isNumeric (isNumeric_of_isDigit hd)
      refine hkept (v := '%' :: d :: v) (fun k => ?_) h
      rw [openGroups?_cons_of_ne hopening hclosing]
      exact openGroups?_cons_of_ne hopening hclosing k v
  | @start v c hc =>
      obtain ⟨-, hopening, hclosing⟩ := isPlain_of_isBlank hc
      rwa [openGroups?_cons_of_ne hopening hclosing] at h
  | ending u _ => exact isSome_openGroups?_of_isPrefix (List.prefix_append ..) h
  | close hlt => exact isSome_openGroups?_push_closing h hlt

theorem ne_parenthesis_of_isBareNumber {t : Text} (ht : isBareNumber t = true) {c : Char}
    (hc : c ∈ t) : c ≠ '(' ∧ c ≠ ')' := by
  constructor <;> rintro rfl
  · exact not_mem_of_isBareNumber ht rfl (by decide) hc
  · exact not_mem_of_isBareNumber ht rfl (by decide) hc

namespace Nests

variable {t : Text}

theorem of_isPrefix {u : Text} (h : Nests t) (hu : u <+: t) : Nests u :=
  ⟨isSome_openGroups?_of_isPrefix hu h.closes, h.rows.of_isInfix hu.isInfix⟩

theorem append {w : Text} (h : Nests t) (hw : ∀ c ∈ w, c ≠ '(' ∧ c ≠ ')') : Nests (t ++ w) := by
  constructor
  · obtain ⟨k, hk⟩ := Option.isSome_iff_exists.1 h.closes
    rw [openGroups?_append, hk, Option.bind_some, openGroups?_of_not_mem hw]
    rfl
  · exact h.rows.append (.of_not_mem hw) fun c hc => (hw c (List.mem_of_mem_head? hc)).1

theorem push (h : Nests t) {c : Char} (hopening : c ≠ '(') (hclosing : c ≠ ')') :
    Nests (t ++ [c]) :=
  h.append (List.forall_mem_singleton.2 ⟨hopening, hclosing⟩)

theorem of_not_mem (ht : ∀ c ∈ t, c ≠ '(' ∧ c ≠ ')') : Nests t :=
  append (t := []) ⟨rfl, .of_not_mem (List.forall_mem_nil _)⟩ ht

theorem zero : Nests Text.zero :=
  of_not_mem (List.forall_mem_singleton.2 (by decide))

theorem of_isBareNumber (ht : isBareNumber t = true) : Nests t :=
  of_not_mem fun _ hc => ne_parenthesis_of_isBareNumber ht hc

theorem pushClosing (h : Nests t) (hlt : t.count ')' < t.count '(') : Nests (t ++ [')']) :=
  ⟨isSome_openGroups?_push_closing h.closes hlt, h.rows.append (by decide) (by simp)⟩

theorem pushOpening (h : Nests t) (hrow : ¬['(', '('] <:+ t) (hlast : ¬[')'] <:+ t) :
    Nests (t ++ ['(']) := by
  constructor
  · obtain ⟨k, hk⟩ := Option.isSome_iff_exists.1 h.closes
    rw [openGroups?_append, hk]
    rfl
  · intro p hp hpt
    rcases List.infix_concat_iff.1 hpt with hsuffix | hinfix
    · simp only [forbiddenRows, List.mem_cons, List.not_mem_nil, or_false] at hp
      rcases hp with rfl | rfl
      · exact hrow (List.suffix_append_self_iff.1 hsuffix)
      · exact hlast (List.suffix_append_self_iff.1 hsuffix)
    · exact h.rows p hp hinfix

theorem mends {w : Text} (h : Nests t) (hmends : Mends t w) : Nests w :=
  ⟨isSome_openGroups?_of_mends h.closes hmends, h.rows.mends hmends⟩

theorem fix {s : Suggestion} (hs : suggest t = some s) (h : Nests t) : Nests s.fix :=
  invariant_of_suggest zero (fun hnests hmends => hnests.mends hmends) hs h

theorem buffer_closeOperand (h : Nests t) : Nests (Buffer.closeOperand t) := by
  unfold Buffer.closeOperand
  split
  · exact h.push (by decide) (by decide)
  · exact h

theorem buffer_typesNumeric (h : Nests t) {g : Glyph} {s : Text}
    (hs : Buffer.TypesNumeric t g s) : Nests s := by
  have hdigits : ∀ {w : Text}, isDigits w = true → ∀ c ∈ w, c ≠ '(' ∧ c ≠ ')' := fun hw c hc =>
    ne_parenthesis_of_isNumeric (isNumeric_of_isDigit ((isDigits_iff.1 hw).2 c hc))
  cases hs with
  | pointFirst _ => exact h.append (by simp)
  | point _ _ => exact h.push (by decide) (by decide)
  | zeroFirst _ => exact h.push (by decide) (by decide)
  | digits hw _ _ => exact h.append (hdigits hw)
  | replace hw _ _ => exact (h.of_isPrefix (List.dropLast_prefix t)).append (hdigits hw)

theorem buffer_append (h : Nests t) {g : Glyph} {s : Text} (hs : Buffer.Appends t g s) :
    Nests s := by
  have hglyph : ∀ op : Operator, op.glyph ≠ '(' ∧ op.glyph ≠ ')' := fun op =>
    (isPlain_of_isOperator (isOperator_glyph op)).2
  cases hs with
  | refused => exact h
  | @replace op _ =>
      exact (h.of_isPrefix (List.dropLast_prefix t)).push (hglyph op).1 (hglyph op).2
  | @operator op _ _ => exact h.push (hglyph op).1 (hglyph op).2
  | percent _ => exact h.push (by decide) (by decide)
  | numeric hs => exact h.buffer_closeOperand.buffer_typesNumeric hs

theorem buffer_toggleGroup (h : Nests t) {s : Text} (hs : Buffer.Toggles t s) : Nests s := by
  cases hs with
  | closing hopen _ =>
      rw [hasOpenGroup, decide_eq_true_eq] at hopen
      exact h.pushClosing hopen
  | refused => exact h
  | first => exact ⟨rfl, by decide⟩
  | factor =>
      have hsign := h.push (c := '×') (by decide) (by decide)
      refine hsign.pushOpening ?_ ?_ <;> rintro ⟨u, hu⟩
      · simpa using congrArg List.getLast? hu
      · simpa using congrArg List.getLast? hu
  | opening hfew hlast =>
      refine h.pushOpening ?_ ?_
      · rintro ⟨u, rfl⟩
        refine absurd hfew ?_
        simp [Text.takeEndWhile, maxOpenings]
      · rintro ⟨u, rfl⟩
        simp at hlast

theorem buffer_insertAnswer (h : Nests t) {answer : Text} (hanswer : isBareNumber answer = true) :
    Nests (Buffer.insertAnswer t answer) := by
  have hplain : ∀ c ∈ answer, c ≠ '(' ∧ c ≠ ')' := fun _ hc =>
    ne_parenthesis_of_isBareNumber hanswer hc
  unfold Buffer.insertAnswer
  split
  · exact of_not_mem hplain
  · split
    · exact h.append (List.forall_mem_cons.2 ⟨by decide, hplain⟩)
    · exact h.append hplain

theorem buffer_backspace (h : Nests t) : Nests (Buffer.backspace t) := by
  unfold Buffer.backspace Text.orZero
  split
  · exact zero
  · exact h.of_isPrefix (List.dropLast_prefix t)

/-- Every edit keeps the groups nested, but for a text that is loaded. -/
theorem invariant : Buffer.Invariant (fun a => ∀ x : Text, a ≠ .load x) Nests where
  zero := zero
  opening := ⟨rfl, by decide⟩
  result hv := of_isBareNumber (isBareNumber_resultText hv)
  append g h := h.buffer_append (Buffer.appends_append _ g)
  toggleGroup h := h.buffer_toggleGroup (Buffer.toggles_toggleGroup _)
  backspace h := h.buffer_backspace
  toggleSign hbare _ := of_isBareNumber (isBareNumber_toggleSign hbare)
  insertAnswer _ hanswer h := h.buffer_insertAnswer hanswer
  fix _ hs h := h.fix hs
  load hload := absurd rfl (hload _)

/-- A text that nests is unbalanced if it can be scanned and has a group open. -/
theorem evaluate_eq_unbalanced_iff (h : Nests t) :
    evaluate t = .error .unbalanced ↔
      (∃ ts : List Token, expressionTokens t = .ok ts) ∧ t.count ')' < t.count '(' := by
  rw [evaluate_eq_unbalanced_iff_openGroups?, ne_eq, openGroups?_eq_zero_iff h.closes, not_le]

/-- The groups of a text that nests are all closed once its suggestion goes on with
it. -/
theorem evaluate_fix_ne_unbalanced (h : Nests t) {s : Suggestion} (hs : suggest t = some s)
    {n : Nat} (hfix : s.fix = t ++ List.replicate n ')') :
    evaluate s.fix ≠ .error .unbalanced := by
  have hclose := repair_of_fix_eq_append hs hfix
  have happly := (apply_of_suggest hs).1
  rw [hclose] at happly
  have hclosed : openGroups? 0 s.fix = some 0 := by
    rw [← happly]
    exact openGroups?_append_missing.2 h.closes
  intro hunbalanced
  exact (evaluate_eq_unbalanced_iff_openGroups?.1 hunbalanced).2 hclosed

end Nests

/-- In every session without a loaded expression no beginning of the buffer closes
more groups than it opens, and no three groups are opened in a row. So the buffer is
unbalanced exactly if it can be scanned and a group is open. There is a suggestion
then, and if it goes on with the buffer it is not unbalanced any more. -/
theorem nested_run {actions : List Action} (h : ∀ a ∈ actions, ∀ x : Text, a ≠ .load x) :
    let e := ({} : Editor).run actions
    (∀ p : Text, p <+: e.buffer → p.count ')' ≤ p.count '(') ∧
      ¬['(', '(', '('] <:+: e.buffer ∧
      (evaluate e.buffer = .error .unbalanced ↔
        (∃ ts : List Token, expressionTokens e.buffer = .ok ts) ∧
          e.buffer.count ')' < e.buffer.count '(') ∧
      ∀ r : Report, e.commit.1.report? = some r → r.fault = .unbalanced →
        ∃ s : Suggestion, e.commit.1.suggestion? = some s ∧
          ∀ n : Nat, s.fix = e.buffer ++ List.replicate n ')' →
            evaluate s.fix ≠ .error .unbalanced := by
  intro e
  have hnests : Nests e.buffer := Nests.invariant.run h
  have hcoherent : e.Coherent := Editor.Coherent.new.run actions
  refine ⟨fun p hp => ?_, hnests.rows _ (by decide), hnests.evaluate_eq_unbalanced_iff, ?_⟩
  · simpa using isSome_openGroups?_iff.1 hnests.closes p hp
  · intro r hr hfault
    obtain ⟨hvalue, hsuggestion⟩ := hcoherent.of_commit_report? hr
    rw [hfault] at hvalue
    obtain ⟨-, hlt⟩ := hnests.evaluate_eq_unbalanced_iff.1 hvalue
    cases hs : suggest e.buffer with
    | none => exact absurd ((suggest_eq_none_iff_settled _).1 hs).closed (not_le.2 hlt)
    | some s => exact ⟨s, hsuggestion.trans hs, fun n => hnests.evaluate_fix_ne_unbalanced hs⟩

/-- `(5+3` is unbalanced once its keys are pressed. -/
theorem evaluate_open_sum :
    evaluate (({} : Editor).run [.toggleGroup, .append (.digit 5), .append (.operator .plus),
      .append (.digit 3)]).buffer = .error .unbalanced :=
  (nested_run (by simp)).2.2.1.2 ⟨⟨_, rfl⟩, by decide⟩

end Calculator
