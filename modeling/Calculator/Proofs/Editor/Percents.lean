import Calculator.Proofs.Editor.Invariant
import Calculator.Proofs.Editor.Segment
import Calculator.Proofs.Expression.Percent
import Calculator.Session

/-!
# Percent signs in a session

The keys keep the buffer linked (`Linked.invariant`): what they look at before they
write, which is the last character and the numeral being typed, tells what may stand
behind that character. A repair takes characters away in the middle and brings others
together, so it is not among the actions that keep it. Of a linked text the percent
signs are known, and with them the faults that the buffer can have.
-/

namespace Calculator

open Buffer

/-- A character that stands behind another one belongs to a numeral or parts two. -/
theorem Follows.isNumeric_or_isBoundary {c d : Char} (h : Follows c d) :
    isNumeric d = true ∨ isBoundary d = true := by
  cases h with
  | digit hdigit => exact Or.inl (isNumeric_of_isDigit hdigit)
  | point _ => exact Or.inl rfl
  | percent _ => exact Or.inr rfl
  | opening => exact Or.inr rfl
  | closing _ => exact Or.inr rfl
  | operator hoperator => exact Or.inr (isBoundary_of_isOperator hoperator)

namespace Linked

variable {t : Text}

/-- While a numeral is being typed it stands at the end. -/
theorem isNumeric_of_activeSegment (h : Linked t) (hne : activeSegment t ≠ []) :
    isNumeric (t.getLastD '(') = true := by
  rcases List.eq_nil_or_concat' t with rfl | ⟨t, c, rfl⟩
  · exact absurd rfl hne
  · rw [activeSegment_append_singleton] at hne
    have hboundary : ¬isBoundary c = true := fun hc => hne (if_pos hc)
    have hc : Follows (t.getLastD '(') c := (List.isChain_cons_cons.1 (linked_append.1 h).2).1
    rw [List.getLastD_concat]
    exact hc.isNumeric_or_isBoundary.resolve_right hboundary

theorem zero : Linked Text.zero :=
  nil.append_digits (List.forall_mem_singleton.2 rfl)

theorem dropLast (h : Linked t) : Linked t.dropLast :=
  h.of_isPrefix (List.dropLast_prefix t)

theorem buffer_closeOperand (h : Linked t) : Linked (closeOperand t) := by
  unfold closeOperand
  split
  · exact h.push_operator rfl
  · exact h

theorem buffer_typesNumeric (h : Linked t) {g : Glyph} {s : Text} (hs : TypesNumeric t g s) :
    Linked s := by
  cases hs with
  | pointFirst _ =>
      have hzero : Linked (t ++ ['0']) := h.append_digits (List.forall_mem_singleton.2 rfl)
      have hpoint := hzero.push_point (by rw [List.getLastD_concat]; rfl)
      rwa [List.append_assoc] at hpoint
  | point hne _ => exact h.push_point (h.isNumeric_of_activeSegment hne)
  | zeroFirst _ => exact h.append_digits (List.forall_mem_singleton.2 rfl)
  | digits hdigits _ _ => exact h.append_digits (isDigits_iff.1 hdigits).2
  | replace hdigits _ _ => exact h.dropLast.append_digits (isDigits_iff.1 hdigits).2

/-- A percent sign is typed behind a group or a numeral only. -/
theorem buffer_push_percent (h : Linked t) (hallowed : percentAllowed t = true) :
    Linked (t ++ ['%']) := by
  rw [percentAllowed, Bool.or_eq_true, Bool.and_eq_true, beq_iff_eq, bne_iff_ne] at hallowed
  refine h.push (.percent ?_)
  rcases hallowed with hclosing | ⟨hne, -⟩
  · rw [List.getLastD_eq_getLast?, hclosing]
    exact Or.inr rfl
  · exact Or.inl (h.isNumeric_of_activeSegment hne)

theorem buffer_append (h : Linked t) {g : Glyph} {s : Text} (hs : Appends t g s) : Linked s := by
  cases hs with
  | refused => exact h
  | replace _ => exact h.dropLast.push_operator (isOperator_glyph _)
  | operator _ _ => exact h.push_operator (isOperator_glyph _)
  | percent hallowed => exact h.buffer_push_percent hallowed
  | numeric hs => exact h.buffer_closeOperand.buffer_typesNumeric hs

/-- A group is closed behind its last operand only. -/
theorem buffer_push_closing (h : Linked t) (hopen : hasOpenGroup t = true)
    (hdue : operandDue t = false) : Linked (t ++ [')']) := by
  rcases List.eq_nil_or_concat' t with rfl | ⟨t, c, rfl⟩
  · cases hopen
  · refine h.push (.closing ?_)
    rw [List.getLastD_concat]
    simpa [operandDue, AwaitsOperand] using hdue

theorem buffer_toggleGroup (h : Linked t) {s : Text} (hs : Toggles t s) : Linked s := by
  cases hs with
  | closing hopen hdue => exact h.buffer_push_closing hopen hdue
  | refused => exact h
  | first => exact nil.push .opening
  | factor => exact (h.push_operator rfl).push .opening
  | opening _ _ => exact h.push .opening

theorem buffer_insertAnswer (h : Linked t) {answer : Text} (hanswer : isBareNumber answer = true) :
    Linked (insertAnswer t answer) := by
  unfold insertAnswer
  split
  · exact of_isBareNumber hanswer
  · split
    · have hfactor : Linked (t ++ ['×'] ++ answer) :=
        (h.push_operator rfl).append_bareNumber hanswer
      rwa [List.append_assoc] at hfactor
    · exact h.append_bareNumber hanswer

theorem buffer_backspace (h : Linked t) : Linked (backspace t) := by
  unfold backspace Text.orZero
  split
  · exact zero
  · exact h.dropLast

/-- Every edit keeps the buffer linked, but for a repair and a text that is loaded. -/
theorem invariant :
    Buffer.Invariant (fun a => a ≠ .applyFix ∧ ∀ x : Text, a ≠ .load x) Linked where
  zero := zero
  opening := nil.push .opening
  result hv := of_isBareNumber (isBareNumber_resultText hv)
  append g h := h.buffer_append (appends_append _ g)
  toggleGroup h := h.buffer_toggleGroup (toggles_toggleGroup _)
  backspace h := h.buffer_backspace
  toggleSign hbare _ := of_isBareNumber (isBareNumber_toggleSign hbare)
  insertAnswer _ hanswer h := h.buffer_insertAnswer hanswer
  fix hallowed := absurd rfl hallowed.1
  load hallowed := absurd rfl (hallowed.2 _)

end Linked

theorem Key.action_allowed (key : Key) :
    key.action ≠ .applyFix ∧ ∀ x : Text, key.action ≠ .load x := by
  cases key <;> exact ⟨nofun, nofun⟩

/-- Whatever keys are pressed, the fault of the buffer is never an unknown character. A
percent sign that is not spelled out stands behind a numeral with two points, and the
fault of that numeral is the one that is reported. -/
theorem evaluate_pressAll_ne_unknownSymbol (keys : List Key) :
    let b := (({} : Session).pressAll keys).editor.buffer
    (∀ c : Char, evaluate b ≠ .error (.unknownSymbol c)) ∧
      ∀ u v : Text, absorbPercent b = u ++ '%' :: v →
        Decimal.ofRun (Text.takeEndWhile isNumeric u) = .error .decimalPoint ∧
          evaluate b = .error .decimalPoint := by
  intro b
  have hb : b = (({} : Editor).run (keys.map Key.action)).buffer :=
    congrArg Editor.buffer (Session.editor_pressAll {} keys)
  have hlinked : Linked b := by
    rw [hb]
    refine Linked.invariant.run fun a ha => ?_
    obtain ⟨key, -, rfl⟩ := List.mem_map.1 ha
    exact key.action_allowed
  refine ⟨hlinked.evaluate_ne_unknownSymbol, fun u v huv => ?_⟩
  obtain ⟨hfaulty, hvalue⟩ := hlinked.evaluate_of_percent huv
  exact ⟨if_pos hfaulty, hvalue⟩

/-- `5.` and the last answer `0.5` make a numeral with two points, and its percent sign
stays. -/
theorem evaluate_second_point_percent :
    (({} : Session).pressAll [.glyph .point, .glyph (.digit 5), .equals, .glyph (.digit 5),
        .glyph .point, .answer, .glyph .percent]).editor.buffer =
        ['5', '.', '0', '.', '5', '%'] ∧
      absorbPercent ['5', '.', '0', '.', '5', '%'] = ['5', '.', '0', '.', '5'] ++ ['%'] ∧
      evaluate ['5', '.', '0', '.', '5', '%'] = .error .decimalPoint := by
  have hbuffer : (({} : Session).pressAll [.glyph .point, .glyph (.digit 5), .equals,
      .glyph (.digit 5), .glyph .point, .answer, .glyph .percent]).editor.buffer =
        ['5', '.', '0', '.', '5', '%'] := by decide +kernel
  obtain ⟨-, hpercent⟩ := evaluate_pressAll_ne_unknownSymbol [.glyph .point, .glyph (.digit 5),
    .equals, .glyph (.digit 5), .glyph .point, .answer, .glyph .percent]
  rw [hbuffer] at hpercent
  exact ⟨hbuffer, rfl, (hpercent ['5', '.', '0', '.', '5'] [] rfl).2⟩

end Calculator
