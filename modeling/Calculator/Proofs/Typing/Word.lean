import Calculator.Proofs.Decimal.BareNumber
import Calculator.Proofs.Grammar.Slot
import Calculator.Proofs.Typing.Position

/-!
# The beginnings of the words that can be typed

A text is the beginning of a word of the grammar exactly if a loose reader gets
to its end (`isPrefix_typable_iff`). Words are read along their derivations
(`run?_of_typable`). For the other direction every position says what has been
read up to there, as a left context of the grammar (`Phase.Holds`), and whatever
is missing can be added: an operand that is due, and the parentheses of the open
groups.
-/

namespace Calculator

open Buffer (isDigits)
open Position (origin run?)

/-- The operators of a level, as characters. -/
def Operator.joins (l : Level) (c : Char) : Prop :=
  ∃ op : Operator, c = op.glyph ∧ op.level = l

theorem isInfix_typable : IsInfix Typable Operator.joins '(' ')' where
  factor := Typable.primary
  product := Typable.factor
  sum := Typable.product
  multiply := fun ⟨_, hc, hop⟩ hr hs => hc ▸ .multiply hop hr hs
  add := fun ⟨_, hc, hop⟩ hr hs => hc ▸ .add hop hr hs
  group := Typable.group

theorem Operator.joins_glyph (op : Operator) :
    joins .product op.glyph ∨ joins .sum op.glyph := by
  exact op.level_cases.imp (fun h => ⟨op, rfl, h⟩) fun h => ⟨op, rfl, h⟩

/-- A numeral is being read where a primary was due. It has so many points, and
`digits` says whether it has a digit. -/
def InNumeral (points : Nat) (digits : Bool) (h : Text) : Prop :=
  ∃ k n : Text, h = k ++ n ∧ Slot Typable .primary k ∧ n.all isNumeric = true ∧
    n.count '.' = points ∧ n.any Char.isDigit = digits

/-- What has been read of the innermost open group. -/
def Phase.Holds : Phase → Text → Prop
  | .start => Slot Typable .factor
  | .signed => Slot Typable .primary
  | .whole => InNumeral 0 true
  | .point => InNumeral 1 false
  | .fraction => InNumeral 1 true
  | .closed => Ended Typable

/-- What has been read up to a position. -/
def Position.Holds (p : Position) (h : Text) : Prop :=
  Within Typable '(' p.phase.Holds p.depth h

theorem InNumeral.digit {points : Nat} {digits : Bool} {h : Text} {c : Char}
    (hin : InNumeral points digits h) (hc : c.isDigit = true) :
    InNumeral points true (h ++ [c]) := by
  obtain ⟨k, n, rfl, hk, hn, hpoints, -⟩ := hin
  refine ⟨k, n ++ [c], by simp, hk, ?_, ?_, ?_⟩
  · simp [hn, isNumeric_of_isDigit hc]
  · rw [List.count_append, List.count_singleton, if_neg (by simpa using ne_point_of_isDigit hc),
      hpoints, Nat.add_zero]
  · simp [hc]

theorem InNumeral.point {digits : Bool} {h : Text} (hin : InNumeral 0 digits h) :
    InNumeral 1 digits (h ++ ['.']) := by
  obtain ⟨k, n, rfl, hk, hn, hpoints, hdigits⟩ := hin
  refine ⟨k, n ++ ['.'], by simp, hk, ?_, ?_, ?_⟩
  · simp [hn, isNumeric]
  · rw [List.count_append, hpoints]
    rfl
  · rw [List.any_append, hdigits]
    exact Bool.or_false digits

/-- Where a primary is due, nothing has been read of a numeral yet. -/
theorem inNumeral_of_slot {h : Text} (hslot : Slot Typable .primary h) :
    InNumeral 0 false h :=
  ⟨h, [], by simp, hslot, rfl, rfl, rfl⟩

theorem InNumeral.ended {points : Nat} {h : Text} (hin : InNumeral points true h)
    (hpoints : points ≤ 1) : Ended Typable h := by
  obtain ⟨k, n, rfl, hk, hn, hcount, hdigits⟩ := hin
  refine ⟨k, n, rfl, hk, .number hn ?_⟩
  rw [isLiteral, hcount, hdigits, Bool.and_true]
  exact decide_eq_true hpoints

theorem Phase.Holds.slot {p : Phase} (hp : p.isDue = true) {h : Text} (hh : p.Holds h) :
    Slot Typable .primary h := by
  cases p with
  | start => exact isInfix_typable.slot_primary hh
  | signed => exact hh
  | _ => cases hp

theorem Phase.Holds.ended {p : Phase} (hp : p.isEnd = true) {h : Text} (hh : p.Holds h) :
    Ended Typable h := by
  cases p with
  | whole => exact InNumeral.ended hh (Nat.zero_le 1)
  | fraction => exact InNumeral.ended hh (Nat.le_refl 1)
  | closed => exact hh
  | _ => cases hp

theorem Phase.Holds.digit {p q : Phase} (hp : p.digit? = some q) {h : Text} (hh : p.Holds h)
    {c : Char} (hc : c.isDigit = true) : q.Holds (h ++ [c]) := by
  cases p with
  | start =>
      cases hp
      exact (inNumeral_of_slot (isInfix_typable.slot_primary hh)).digit hc
  | signed =>
      cases hp
      exact (inNumeral_of_slot hh).digit hc
  | whole => cases hp; exact InNumeral.digit hh hc
  | point => cases hp; exact InNumeral.digit hh hc
  | fraction => cases hp; exact InNumeral.digit hh hc
  | closed => cases hp

theorem Phase.Holds.point {p q : Phase} (hp : p.point? true = some q) {h : Text}
    (hh : p.Holds h) : q.Holds (h ++ ['.']) := by
  cases p with
  | start =>
      cases hp
      exact (inNumeral_of_slot (isInfix_typable.slot_primary hh)).point
  | signed =>
      cases hp
      exact (inNumeral_of_slot hh).point
  | whole => cases hp; exact InNumeral.point hh
  | _ => cases hp

/-- A percent sign prolongs the primary that has just ended. -/
theorem ended_percent {h : Text} (hended : Ended Typable h) : Ended Typable (h ++ ['%']) := by
  obtain ⟨k, p, rfl, hk, hp⟩ := hended
  exact ⟨k, p ++ ['%'], by simp, hk, hp.percent⟩

theorem slot_sign {h : Text} (hslot : Slot Typable .factor h) :
    Slot Typable .primary (h ++ ['-']) := by
  obtain ⟨a, b, rfl, ha, hb⟩ := hslot
  refine ⟨a, b ++ ['-'], by simp, ha, ?_⟩
  intro s hs
  simpa using hb ('-' :: s) hs.negate

/-- One step of the reader. -/
theorem Position.Holds.advances {p q : Position} {c : Char} {h : Text} (hh : p.Holds h)
    (hstep : Position.Advances true p c q) : q.Holds (h ++ [c]) := by
  cases hstep with
  | digit hc hp => exact Within.append (fun k hk => hk.digit hp hc) hh
  | point hp => exact Within.append (fun k hk => hk.point hp) hh
  | opening hp =>
      exact Within.open_group isInfix_typable (Within.mono (fun k hk => hk.slot hp) hh)
  | closing hp =>
      exact Within.close_group isInfix_typable (Within.mono (fun k hk => hk.ended hp) hh)
  | percent hp => exact Within.append (fun k hk => ended_percent (hk.ended hp)) hh
  | operator op hp =>
      refine Within.append (fun k hk => ?_) hh
      exact isInfix_typable.slot_of_ended (hk.ended hp) op.joins_glyph
  | sign => exact Within.append (fun k hk => slot_sign hk) hh

theorem Position.Holds.run? {p q : Position} {h t : Text} (hh : p.Holds h)
    (hrun : Position.run? true p t = some q) : q.Holds (h ++ t) := by
  induction t generalizing p h with
  | nil =>
      cases hrun
      rwa [List.append_nil]
  | cons c t ih =>
      rw [Position.run?_cons] at hrun
      obtain ⟨r, hr, hrest⟩ := Option.bind_eq_some_iff.1 hrun
      rw [List.append_cons]
      exact ih (hh.advances (Position.advance?_eq_some_iff.1 hr)) hrest

theorem holds_origin : origin.Holds [] :=
  isInfix_typable.slot_nil

/-- What has been read up to a phase can be brought to the end of an operand. -/
theorem Phase.exists_ended (p : Phase) :
    ∃ s : Text, ∀ h : Text, p.Holds h → Ended Typable (h ++ s) := by
  cases hp : p.digit? with
  | some q =>
      have hend : q.isEnd = true := by cases p <;> cases hp <;> rfl
      exact ⟨['0'], fun h hh => (hh.digit hp rfl).ended hend⟩
  | none =>
      obtain rfl : p = .closed := by cases p <;> first | rfl | cases hp
      refine ⟨[], fun h hh => ?_⟩
      rw [List.append_nil]
      exact hh

/-- The open groups can be closed. -/
theorem exists_typable_of_ended {d : Nat} {h : Text} (hh : Within Typable '(' (Ended Typable) d h) :
    ∃ s : Text, Typable .sum (h ++ s) := by
  induction d generalizing h with
  | zero => exact ⟨[], by simpa using IsInfix.sum_of_ended hh⟩
  | succ d ih =>
      obtain ⟨s, hs⟩ := ih (Within.close_group isInfix_typable hh)
      exact ⟨')' :: s, by simpa using hs⟩

/-- What has been read is the beginning of a word. -/
theorem Position.Holds.exists_typable {p : Position} {h : Text} (hh : p.Holds h) :
    ∃ s : Text, Typable .sum (h ++ s) := by
  obtain ⟨s, hs⟩ := p.phase.exists_ended
  obtain ⟨s', hs'⟩ := exists_typable_of_ended (Within.append hs hh)
  exact ⟨s ++ s', by simpa using hs'⟩

/-- A literal is digits, or digits around a point. -/
theorem exists_cut_of_isLiteral {n : Text} (hn : n.all isNumeric = true)
    (hliteral : isLiteral n = true) :
    isDigits n = true ∨ ∃ w f : Text, n = w ++ '.' :: f ∧ (∀ c ∈ w, c.isDigit = true) ∧
      (∀ c ∈ f, c.isDigit = true) ∧ (w ≠ [] ∨ f ≠ []) := by
  obtain ⟨hcount, hany⟩ := Bool.and_eq_true_iff.1 hliteral
  have hcount : n.count '.' ≤ 1 := of_decide_eq_true hcount
  have hdigit : ∀ c ∈ n, c ≠ '.' → c.isDigit = true := by
    intro c hc hne
    have hnumeric := List.all_eq_true.1 hn c hc
    simpa [isNumeric, hne] using hnumeric
  by_cases hpoint : '.' ∈ n
  · obtain ⟨w, f, rfl⟩ := List.append_of_mem hpoint
    rw [List.count_append, List.count_cons_self] at hcount
    have hw : '.' ∉ w := List.count_eq_zero.1 (by omega)
    have hf : '.' ∉ f := List.count_eq_zero.1 (by omega)
    refine Or.inr ⟨w, f, rfl, ?_, ?_, ?_⟩
    · exact fun c hc => hdigit c (by simp [hc]) fun heq => hw (heq ▸ hc)
    · exact fun c hc => hdigit c (by simp [hc]) fun heq => hf (heq ▸ hc)
    · by_cases hw : w = []
      · refine Or.inr ?_
        rintro rfl
        rw [hw] at hany
        cases hany
      · exact Or.inl hw
  · refine Or.inl (isDigits_iff.2 ⟨?_, ?_⟩)
    · rintro rfl
      cases hany
    · exact fun c hc => hdigit c hc fun heq => hpoint (heq ▸ hc)

theorem run?_numeral {n : Text} (hn : n.all isNumeric = true) (hliteral : isLiteral n = true)
    {p : Phase} (hp : p.isDue = true) (d : Nat) :
    ∃ q : Phase, q.isEnd = true ∧ run? true ⟨p, d⟩ n = some ⟨q, d⟩ := by
  have hdigit : p.digit? = some .whole := by cases p <;> first | rfl | cases hp
  have hpoint : p.point? true = some .point := by cases p <;> first | rfl | cases hp
  rcases exists_cut_of_isLiteral hn hliteral with hdigits | ⟨w, f, rfl, hw, hf, hne⟩
  · obtain ⟨hne, hdigits⟩ := isDigits_iff.1 hdigits
    exact ⟨.whole, rfl, Position.run?_digits_of_ne_nil hdigit d hdigits hne⟩
  · refine ⟨.fraction, rfl, ?_⟩
    by_cases hnil : w = []
    · have hfraction : f ≠ [] := hne.resolve_left (not_not_intro hnil)
      rw [hnil, List.nil_append, Position.run?_cons_of_advances (.point hpoint)]
      exact Position.run?_digits_of_ne_nil rfl d hf hfraction
    · rw [Position.run?_append_of_eq (Position.run?_digits_of_ne_nil hdigit d hw hnil),
        Position.run?_cons_of_advances (.point rfl)]
      exact Position.run?_digits rfl d hf

/-- A phrase of the level may begin in the phase: only a primary may follow a
sign. -/
def Level.Begins (l : Level) (p : Phase) : Prop :=
  p = .start ∨ l = .primary ∧ p = .signed

/-- A phrase is read from where it may begin to an end in the same group. -/
theorem run?_of_typable {l : Level} {s : Text} (h : Typable l s) {p : Phase}
    (hp : l.Begins p) (d : Nat) :
    ∃ q : Phase, q.isEnd = true ∧ run? true ⟨p, d⟩ s = some ⟨q, d⟩ := by
  have hdue : ∀ {l : Level} {p : Phase}, l.Begins p → p.isDue = true := by
    rintro l p (rfl | ⟨-, rfl⟩) <;> rfl
  induction h generalizing p d with
  | number hn hliteral => exact run?_numeral hn hliteral (hdue hp) d
  | @group s hsum ih =>
      obtain ⟨q, hq, hrun⟩ := ih (Or.inl rfl) (d + 1)
      refine ⟨.closed, rfl, ?_⟩
      rw [List.cons_append, Position.run?_cons_of_advances (.opening (hdue hp)),
        Position.run?_append_of_eq hrun, Position.run?_cons_of_advances (.closing hq)]
      rfl
  | percent hprimary ih =>
      obtain ⟨q, hq, hrun⟩ := ih hp d
      refine ⟨.closed, rfl, ?_⟩
      rw [Position.run?_append_of_eq hrun, Position.run?_cons_of_advances (.percent hq)]
      rfl
  | primary hprimary ih => exact ih (Or.inl (hp.resolve_right fun h => by cases h.1)) d
  | negate hprimary ih =>
      obtain rfl : p = .start := hp.resolve_right fun h => by cases h.1
      rw [Position.run?_cons_of_advances .sign]
      exact ih (Or.inr ⟨rfl, rfl⟩) d
  | factor hfactor ih => exact ih (Or.inl (hp.resolve_right fun h => by cases h.1)) d
  | product hproduct ih => exact ih (Or.inl (hp.resolve_right fun h => by cases h.1)) d
  | @multiply r s op hop hr hs ihr ihs =>
      obtain ⟨q, hq, hrun⟩ := ihr (Or.inl (hp.resolve_right fun h => by cases h.1)) d
      rw [Position.run?_append_of_eq hrun, Position.run?_cons_of_advances (.operator op hq)]
      exact ihs (Or.inl rfl) d
  | @add r s op hop hr hs ihr ihs =>
      obtain ⟨q, hq, hrun⟩ := ihr (Or.inl (hp.resolve_right fun h => by cases h.1)) d
      rw [Position.run?_append_of_eq hrun, Position.run?_cons_of_advances (.operator op hq)]
      exact ihs (Or.inl rfl) d

/-- The beginnings of words are the texts that a loose reader gets to the end
of. -/
theorem isPrefix_typable_iff {t : Text} :
    (∃ w : Text, Typable .sum w ∧ t <+: w) ↔ ∃ p : Position, run? true origin t = some p := by
  constructor
  · rintro ⟨w, hw, hprefix⟩
    obtain ⟨q, -, hrun⟩ := run?_of_typable hw (Or.inl rfl) 0
    exact Position.exists_run?_of_isPrefix hrun hprefix
  · rintro ⟨p, hrun⟩
    obtain ⟨s, hs⟩ := (holds_origin.run? hrun).exists_typable
    exact ⟨t ++ s, hs, List.prefix_append t s⟩

end Calculator
