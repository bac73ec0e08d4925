import Calculator.Proofs.Editor.Segment
import Calculator.Proofs.Typing.Position

/-!
# The end of a text that is being typed

A text that is typed is read to its end by a reader that is not loose
(`Stands`). Where the reader stands is what can be seen at the end of the text:
the numeral being typed (`segment_of_stands`), the open groups
(`hasOpenGroup_iff`), whether an operand is due (`operandDue_of_stands`), and
whether a minus sign is an operator (`endsWithSign_iff`).
-/

namespace Calculator

open Buffer
open Position (origin run? Advances)

/-- A reader that is not loose stands at the position behind the text. -/
def Stands (t : Text) (p : Position) : Prop :=
  run? false origin t = some p

theorem stands_append_singleton {s : Text} {c : Char} {p : Position} :
    Stands (s ++ [c]) p ↔ ∃ r : Position, Stands s r ∧ Advances false r c p :=
  Position.run?_append_singleton

theorem Stands.append {s : Text} {p : Position} (h : Stands s p) (t : Text) {q : Position} :
    Stands (s ++ t) q ↔ run? false p t = some q := by
  rw [Stands, Position.run?_append_of_eq h]

theorem Stands.push {s : Text} {c : Char} {p q : Position} (h : Stands s p)
    (hstep : Advances false p c q) : Stands (s ++ [c]) q :=
  stands_append_singleton.2 ⟨p, h, hstep⟩

/-- What the numeral being typed is like in a phase. -/
def Phase.Segment : Phase → Text → Prop
  | .whole, segment => segment ≠ [] ∧ '.' ∉ segment
  | .point, segment => '.' ∈ segment
  | .fraction, segment => '.' ∈ segment
  | _, segment => segment = []

theorem Phase.Segment.digit {p q : Phase} (hp : p.digit? = some q) {segment : Text}
    (h : p.Segment segment) {c : Char} (hc : c.isDigit = true) : q.Segment (segment ++ [c]) := by
  have hpoint : '.' ∉ segment → '.' ∉ segment ++ [c] := by
    intro hsegment hmem
    rcases List.mem_append.1 hmem with hmem | hmem
    · exact hsegment hmem
    · exact ne_point_of_isDigit hc (List.mem_singleton.1 hmem).symm
  have hwhole : '.' ∉ segment → Phase.whole.Segment (segment ++ [c]) := fun hsegment =>
    ⟨List.append_ne_nil_of_right_ne_nil segment (List.cons_ne_nil c []), hpoint hsegment⟩
  have hfraction : '.' ∈ segment → Phase.fraction.Segment (segment ++ [c]) :=
    List.mem_append_left [c]
  have hnil : segment = [] → '.' ∉ segment := fun heq => heq ▸ List.not_mem_nil
  cases p with
  | start => cases hp; exact hwhole (hnil h)
  | signed => cases hp; exact hwhole (hnil h)
  | whole => cases hp; exact hwhole h.2
  | point => cases hp; exact hfraction h
  | fraction => cases hp; exact hfraction h
  | closed => cases hp

theorem segment_of_advances {p q : Position} {c : Char} (h : Advances false p c q)
    {segment : Text} (hp : p.phase.Segment segment) :
    q.phase.Segment (if isBoundary c then [] else segment ++ [c]) := by
  cases h with
  | digit hc hq =>
      rw [isBoundary_of_isNumeric (isNumeric_of_isDigit hc)]
      exact hp.digit hq hc
  | @point p q d hq =>
      cases p with
      | whole => cases hq; exact List.mem_append_right segment (List.mem_singleton_self '.')
      | _ => cases hq
  | opening hp => rfl
  | closing hp => rfl
  | percent hp => rfl
  | operator op hp => cases op <;> rfl
  | sign => rfl

theorem segment_of_stands {t : Text} {p : Position} (h : Stands t p) :
    p.phase.Segment (activeSegment t) := by
  induction t using List.reverseRecOn generalizing p with
  | nil => cases h; rfl
  | append_singleton s c ih =>
      obtain ⟨r, hr, hstep⟩ := stands_append_singleton.1 h
      rw [activeSegment_append_singleton]
      exact segment_of_advances hstep (ih hr)

theorem depth_of_advances {p q : Position} {c : Char} (h : Advances false p c q) :
    p.depth + [c].count '(' = [c].count ')' + q.depth := by
  have hother : ∀ {c : Char} (d : Nat), c ≠ '(' → c ≠ ')' →
      d + [c].count '(' = [c].count ')' + d := by
    intro c d hopening hclosing
    rw [List.count_eq_zero.2 (by simpa using hopening.symm),
      List.count_eq_zero.2 (by simpa using hclosing.symm), Nat.add_zero, Nat.zero_add]
  cases h with
  | digit hc hq =>
      refine hother _ ?_ ?_ <;>
        · rintro rfl
          cases hc
  | point hq => exact hother _ (by decide) (by decide)
  | @opening p d hp => exact (Nat.zero_add (d + 1)).symm
  | @closing p d hp => exact Nat.add_comm d 1
  | percent hp => exact hother _ (by decide) (by decide)
  | operator op hp => cases op <;> exact hother _ (by decide) (by decide)
  | sign => exact hother _ (by decide) (by decide)

/-- The open groups are counted by their parentheses. -/
theorem depth_of_stands {t : Text} {p : Position} (h : Stands t p) :
    t.count '(' = t.count ')' + p.depth := by
  induction t using List.reverseRecOn generalizing p with
  | nil => cases h; rfl
  | append_singleton s c ih =>
      obtain ⟨r, hr, hstep⟩ := stands_append_singleton.1 h
      have hs := ih hr
      have hc := depth_of_advances hstep
      rw [List.count_append, List.count_append]
      omega

theorem hasOpenGroup_iff {t : Text} {p : Position} (h : Stands t p) :
    hasOpenGroup t = true ↔ 0 < p.depth := by
  rw [hasOpenGroup, decide_eq_true_eq, depth_of_stands h]
  omega

/-- Only a loose reader comes to stand behind a point with no digit before it. -/
theorem phase_of_stands {t : Text} {p : Position} (h : Stands t p) : p.phase ≠ .point := by
  rcases List.eq_nil_or_concat' t with rfl | ⟨s, c, rfl⟩
  · cases h
    exact Phase.noConfusion
  · obtain ⟨r, -, hstep⟩ := stands_append_singleton.1 h
    cases hstep with
    | digit hc hq => rcases Phase.eq_of_digit? hq with rfl | rfl <;> exact Phase.noConfusion
    | point hq => rw [(Phase.eq_of_point? hq).2]; exact Phase.noConfusion
    | _ => exact Phase.noConfusion

theorem isEnd_of_stands {t : Text} {p : Position} (h : Stands t p) (hp : p.phase.isDue = false) :
    p.phase.isEnd = true := by
  have hpoint := phase_of_stands h
  cases hphase : p.phase with
  | point => exact absurd hphase hpoint
  | start => rw [hphase] at hp; cases hp
  | signed => rw [hphase] at hp; cases hp
  | _ => rfl

theorem operandDue_append_singleton (s : Text) (c : Char) :
    operandDue (s ++ [c]) = (c == '(' || isOperator c) := by
  simp [operandDue]

/-- An operand is due behind a text where one may begin. -/
theorem operandDue_of_stands {t : Text} {p : Position} (h : Stands t p) (hne : t ≠ []) :
    operandDue t = p.phase.isDue := by
  obtain ⟨s, c, rfl⟩ := (List.eq_nil_or_concat' t).resolve_left hne
  obtain ⟨r, -, hstep⟩ := stands_append_singleton.1 h
  rw [operandDue_append_singleton]
  cases hstep with
  | @digit p q d c hc hq =>
      have hopening : (c == '(') = false := beq_false_of_ne fun heq => by rw [heq] at hc; cases hc
      rw [hopening, isOperator_of_isNumeric (isNumeric_of_isDigit hc)]
      rcases Phase.eq_of_digit? hq with rfl | rfl <;> rfl
  | point hq => rw [(Phase.eq_of_point? hq).2]; rfl
  | operator op hp => rw [isOperator_glyph, Bool.or_true]; rfl
  | _ => rfl

/-- An operand ends with a digit, a closing parenthesis or a percent sign. -/
theorem isEnd_of_last {s : Text} {c : Char} {p : Position} (h : Stands (s ++ [c]) p)
    (hc : c.isDigit = true ∨ c = ')' ∨ c = '%') : p.phase.isEnd = true := by
  refine isEnd_of_stands h ?_
  rw [← operandDue_of_stands h (by simp), operandDue_append_singleton]
  rcases hc with hc | rfl | rfl
  · rw [isOperator_of_isNumeric (isNumeric_of_isDigit hc), Bool.or_false]
    refine beq_false_of_ne ?_
    rintro rfl
    cases hc
  · rfl
  · rfl

/-- The text ends with a minus sign that is no operator: nothing stands before
it, or an operand is due there. -/
def endsWithSign (t : Text) : Bool :=
  t.getLast? == some '-' && (t.dropLast == [] || operandDue t.dropLast)

theorem isDue_of_isEnd {p : Phase} (hp : p.isEnd = true) : p.isDue = false := by
  cases p <;> first | rfl | cases hp

/-- The minus sign is one where the reader takes it for one. -/
theorem endsWithSign_iff {t : Text} {p : Position} (h : Stands t p) :
    endsWithSign t = true ↔ p.phase = .signed := by
  rcases List.eq_nil_or_concat' t with rfl | ⟨s, c, rfl⟩
  · cases h
    decide
  · obtain ⟨r, hr, hstep⟩ := stands_append_singleton.1 h
    have hends : endsWithSign (s ++ [c]) = (c == '-' && (s == [] || operandDue s)) := by
      simp [endsWithSign]
    have hbefore : (s == [] || operandDue s) = r.phase.isDue := by
      cases s with
      | nil => cases hr; rfl
      | cons x s => exact operandDue_of_stands hr (List.cons_ne_nil x s)
    rw [hends, hbefore]
    cases hstep with
    | digit hc hq =>
        rw [beq_false_of_ne (ne_minus_of_isDigit hc)]
        rcases Phase.eq_of_digit? hq with rfl | rfl <;> simp
    | point hq => rw [(Phase.eq_of_point? hq).2]; simp
    | operator op hp => simp [isDue_of_isEnd hp]
    | sign => simp [Phase.isDue]
    | _ => simp

/-- The last character brought the reader to where it stands. -/
theorem exists_advances_of_getLast? {t : Text} {c : Char} {p : Position} (h : Stands t p)
    (hlast : t.getLast? = some c) : ∃ r : Position, Advances false r c p := by
  obtain ⟨s, rfl⟩ := List.getLast?_eq_some_iff.1 hlast
  obtain ⟨r, -, hstep⟩ := stands_append_singleton.1 h
  exact ⟨r, hstep⟩

end Calculator
