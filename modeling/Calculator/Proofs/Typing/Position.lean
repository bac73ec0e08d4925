import Calculator.Grammar

/-!
# Reading a text character by character

Where a reader stands in a text is told by a `Phase` and by the number of groups
that are open. Every character leads to the next position or to none, and then
no text goes on like this. `Advances` lists the steps that there are, one for
each kind of character.

A numeral may begin with its point, but none that is typed does. A reader that
is not `loose` refuses such a point, and a loose one is never stopped earlier
(`run?_loose`).
-/

namespace Calculator

/-- Where a reader stands inside of a group. -/
inductive Phase
  /-- An operand is due, with or without a sign. -/
  | start
  /-- An operand is due behind its sign. -/
  | signed
  /-- In a numeral without a point. -/
  | whole
  /-- Behind a point before which no digit stands. -/
  | point
  /-- In a numeral that has a point and a digit. -/
  | fraction
  /-- Behind a group or a percent sign. -/
  | closed
  deriving DecidableEq

namespace Phase

/-- A primary may begin. -/
def isDue : Phase → Bool
  | start => true
  | signed => true
  | _ => false

/-- An operand may end. -/
def isEnd : Phase → Bool
  | whole => true
  | fraction => true
  | closed => true
  | _ => false

/-- The phase behind a digit. -/
def digit? : Phase → Option Phase
  | start => some whole
  | signed => some whole
  | whole => some whole
  | point => some fraction
  | fraction => some fraction
  | closed => none

/-- The phase behind a point. -/
def point? (loose : Bool) : Phase → Option Phase
  | start => if loose then some point else none
  | signed => if loose then some point else none
  | whole => some fraction
  | _ => none

theorem eq_of_digit? {p q : Phase} (h : p.digit? = some q) : q = whole ∨ q = fraction := by
  cases p <;> cases h <;> simp

theorem exists_digit? {p : Phase} (h : p ≠ closed) : ∃ q : Phase, p.digit? = some q := by
  cases p with
  | closed => exact absurd rfl h
  | point => exact ⟨fraction, rfl⟩
  | fraction => exact ⟨fraction, rfl⟩
  | _ => exact ⟨whole, rfl⟩

theorem eq_of_point? {p q : Phase} (h : p.point? false = some q) : p = whole ∧ q = fraction := by
  cases p <;> cases h
  exact ⟨rfl, rfl⟩

end Phase

/-- The character displays an operator. -/
def isGlyph (c : Char) : Bool :=
  (Operator.ofChar? c).any fun op => op.glyph == c

theorem isGlyph_iff {c : Char} : isGlyph c = true ↔ ∃ op : Operator, c = op.glyph := by
  constructor
  · intro h
    obtain ⟨op, -, hop⟩ := (Option.any_eq_true _ _).1 h
    exact ⟨op, (eq_of_beq hop).symm⟩
  · rintro ⟨op, rfl⟩
    cases op <;> rfl

/-- Where a reader stands in a text: the phase in the innermost open group and
the number of open groups. -/
structure Position where
  phase : Phase
  depth : Nat
  deriving DecidableEq

namespace Position

/-- Where a text starts. -/
def origin : Position :=
  ⟨.start, 0⟩

/-- The position behind a character. -/
def advance? (loose : Bool) (p : Position) (c : Char) : Option Position :=
  if c.isDigit then p.phase.digit?.map fun q => ⟨q, p.depth⟩
  else if c = '.' then (p.phase.point? loose).map fun q => ⟨q, p.depth⟩
  else if c = '(' then if p.phase.isDue then some ⟨.start, p.depth + 1⟩ else none
  else if c = ')' then
    if p.phase.isEnd then
      match p.depth with
      | 0 => none
      | d + 1 => some ⟨.closed, d⟩
    else none
  else if c = '%' then if p.phase.isEnd then some ⟨.closed, p.depth⟩ else none
  else if isGlyph c then
    if p.phase.isEnd then some ⟨.start, p.depth⟩
    else if c = '-' ∧ p.phase = .start then some ⟨.signed, p.depth⟩
    else none
  else none

/-- The position behind a text. -/
def run? (loose : Bool) (p : Position) (t : Text) : Option Position :=
  t.foldlM (advance? loose) p

/-- One step from position to position. -/
inductive Advances (loose : Bool) : Position → Char → Position → Prop
  | digit {p q : Phase} {d : Nat} {c : Char} :
      c.isDigit = true → p.digit? = some q → Advances loose ⟨p, d⟩ c ⟨q, d⟩
  | point {p q : Phase} {d : Nat} :
      p.point? loose = some q → Advances loose ⟨p, d⟩ '.' ⟨q, d⟩
  | opening {p : Phase} {d : Nat} :
      p.isDue = true → Advances loose ⟨p, d⟩ '(' ⟨.start, d + 1⟩
  | closing {p : Phase} {d : Nat} :
      p.isEnd = true → Advances loose ⟨p, d + 1⟩ ')' ⟨.closed, d⟩
  | percent {p : Phase} {d : Nat} :
      p.isEnd = true → Advances loose ⟨p, d⟩ '%' ⟨.closed, d⟩
  | operator {p : Phase} {d : Nat} (op : Operator) :
      p.isEnd = true → Advances loose ⟨p, d⟩ op.glyph ⟨.start, d⟩
  | sign {d : Nat} : Advances loose ⟨.start, d⟩ '-' ⟨.signed, d⟩

theorem advances_of_advance? {loose : Bool} {p q : Position} {c : Char}
    (h : advance? loose p c = some q) : Advances loose p c q := by
  obtain ⟨p, d⟩ := p
  unfold advance? at h
  split at h
  · next hdigit =>
      obtain ⟨q, hq, rfl⟩ := Option.map_eq_some_iff.1 h
      exact .digit hdigit hq
  · split at h
    · next hpoint =>
        obtain ⟨q, hq, rfl⟩ := Option.map_eq_some_iff.1 h
        exact hpoint ▸ .point hq
    · split at h
      · next hopening =>
          obtain ⟨hdue, heq⟩ := Option.ite_none_right_eq_some.1 h
          cases heq
          exact hopening ▸ .opening hdue
      · split at h
        · next hclosing =>
            obtain ⟨hend, heq⟩ := Option.ite_none_right_eq_some.1 h
            cases d with
            | zero => cases heq
            | succ d =>
                cases heq
                exact hclosing ▸ .closing hend
        · split at h
          · next hpercent =>
              obtain ⟨hend, heq⟩ := Option.ite_none_right_eq_some.1 h
              cases heq
              exact hpercent ▸ .percent hend
          · obtain ⟨hglyph, heq⟩ := Option.ite_none_right_eq_some.1 h
            obtain ⟨op, rfl⟩ := isGlyph_iff.1 hglyph
            split at heq
            · next hend =>
                cases heq
                exact .operator op hend
            · obtain ⟨⟨hminus, hstart⟩, heq⟩ := Option.ite_none_right_eq_some.1 heq
              cases heq
              rw [hminus]
              have hphase : p = .start := hstart
              exact hphase ▸ .sign

theorem advance?_of_advances {loose : Bool} {p q : Position} {c : Char}
    (h : Advances loose p c q) : advance? loose p c = some q := by
  cases h with
  | digit hdigit hq => simp [advance?, hdigit, hq]
  | point hq => simp [advance?, hq]
  | opening hdue => simp [advance?, hdue]
  | closing hend => simp [advance?, hend]
  | percent hend => simp [advance?, hend]
  | operator op hend =>
      cases op <;> simp [advance?, hend, isGlyph, Operator.glyph, Operator.ofChar?]
  | sign => simp [advance?, isGlyph, Operator.ofChar?, Operator.glyph, Phase.isEnd]

theorem advance?_eq_some_iff {loose : Bool} {p q : Position} {c : Char} :
    advance? loose p c = some q ↔ Advances loose p c q :=
  ⟨advances_of_advance?, advance?_of_advances⟩

theorem Advances.exists_digit? {loose : Bool} {p q : Position} {c : Char}
    (h : Advances loose p c q) (hc : c.isDigit = true) :
    ∃ r : Phase, p.phase.digit? = some r := by
  have hstep := advance?_of_advances h
  rw [advance?, if_pos hc] at hstep
  obtain ⟨r, hr, -⟩ := Option.map_eq_some_iff.1 hstep
  exact ⟨r, hr⟩

theorem Advances.phase_point {p q : Position} (h : Advances false p '.' q) :
    q.phase = .fraction := by
  have hstep := advance?_of_advances h
  rw [advance?, if_neg (by decide), if_pos rfl] at hstep
  obtain ⟨r, hr, rfl⟩ := Option.map_eq_some_iff.1 hstep
  exact (Phase.eq_of_point? hr).2

theorem Advances.phase_percent {loose : Bool} {p q : Position} (h : Advances loose p '%' q) :
    q.phase = .closed := by
  have hstep := advance?_of_advances h
  rw [advance?, if_neg (by decide), if_neg (by decide), if_neg (by decide), if_neg (by decide),
    if_pos rfl] at hstep
  obtain ⟨-, heq⟩ := Option.ite_none_right_eq_some.1 hstep
  cases heq
  rfl

/-- A step of a reader is a step of a loose one. -/
theorem Advances.loose {loose : Bool} {p q : Position} {c : Char} (h : Advances loose p c q) :
    Advances true p c q := by
  cases h with
  | digit hdigit hq => exact .digit hdigit hq
  | @point p q d hq =>
      refine .point ?_
      cases p <;> cases loose <;> first | exact hq | cases hq
  | opening hdue => exact .opening hdue
  | closing hend => exact .closing hend
  | percent hend => exact .percent hend
  | operator op hend => exact .operator op hend
  | sign => exact .sign

variable {loose : Bool}

theorem run?_append (p : Position) (s t : Text) :
    run? loose p (s ++ t) = (run? loose p s).bind fun q => run? loose q t :=
  List.foldlM_append

theorem run?_cons (p : Position) (c : Char) (t : Text) :
    run? loose p (c :: t) = (advance? loose p c).bind fun q => run? loose q t :=
  List.foldlM_cons

theorem run?_append_of_eq {p q : Position} {s : Text} (h : run? loose p s = some q) (t : Text) :
    run? loose p (s ++ t) = run? loose q t := by
  rw [run?_append, h, Option.bind_some]

theorem run?_cons_of_advances {p q : Position} {c : Char} (h : Advances loose p c q) (t : Text) :
    run? loose p (c :: t) = run? loose q t := by
  rw [run?_cons, advance?_eq_some_iff.2 h, Option.bind_some]

/-- The last step of a text. -/
theorem run?_append_singleton {p q : Position} {s : Text} {c : Char} :
    run? loose p (s ++ [c]) = some q ↔
      ∃ r : Position, run? loose p s = some r ∧ Advances loose r c q := by
  rw [run?_append, Option.bind_eq_some_iff]
  refine exists_congr fun r => and_congr_right fun _ => ?_
  rw [run?_cons, ← advance?_eq_some_iff]
  cases advance? loose r c <;> rfl

/-- What is read is read by a loose reader. -/
theorem run?_loose {p q : Position} {t : Text} (h : run? loose p t = some q) :
    run? true p t = some q := by
  induction t generalizing p with
  | nil => exact h
  | cons c t ih =>
      rw [run?_cons] at h
      obtain ⟨r, hr, hrest⟩ := Option.bind_eq_some_iff.1 h
      rw [run?_cons_of_advances (advance?_eq_some_iff.1 hr).loose]
      exact ih hrest

/-- A reader of a text has read its beginnings. -/
theorem exists_run?_of_isPrefix {p q : Position} {s t : Text} (h : run? loose p t = some q)
    (hst : s <+: t) : ∃ r : Position, run? loose p s = some r := by
  obtain ⟨rest, rfl⟩ := hst
  rw [run?_append] at h
  obtain ⟨r, hr, -⟩ := Option.bind_eq_some_iff.1 h
  exact ⟨r, hr⟩

/-- Digits prolong a numeral. -/
theorem run?_digits {p : Phase} (hp : p.digit? = some p) (d : Nat) {w : Text}
    (hw : ∀ c ∈ w, c.isDigit = true) : run? loose ⟨p, d⟩ w = some ⟨p, d⟩ := by
  induction w with
  | nil => rfl
  | cons c w ih =>
      rw [run?_cons_of_advances (.digit (hw c (by simp)) hp)]
      exact ih fun x hx => hw x (List.mem_cons_of_mem c hx)

/-- Digits begin a numeral. -/
theorem run?_digits_of_ne_nil {p q : Phase} (hp : p.digit? = some q) (d : Nat) {w : Text}
    (hw : ∀ c ∈ w, c.isDigit = true) (hne : w ≠ []) :
    run? loose ⟨p, d⟩ w = some ⟨q, d⟩ := by
  obtain ⟨c, w, rfl⟩ := List.exists_cons_of_ne_nil hne
  have hq : q.digit? = some q := by cases p <;> cases hp <;> rfl
  rw [run?_cons_of_advances (.digit (hw c (by simp)) hp)]
  exact run?_digits hq d fun x hx => hw x (List.mem_cons_of_mem c hx)

end Position

end Calculator
