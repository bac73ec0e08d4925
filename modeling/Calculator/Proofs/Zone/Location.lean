import Calculator.Proofs.Zone.Bytes
import Calculator.Proofs.Zone.StrayPercent
import Calculator.Proofs.Zone.ZeroDivisor

/-!
# Where a fault is visible

`Zone.Shows` says for every fault what a zone must mark for the fault to be visible in it. Each
of the four rules marks the zones of its kind, so that `locate` answers with the first zone of
the text that shows the fault (`locate_eq_some_iff`), and with nothing if the text has none
(`locate_eq_none_iff`). For an open group there is one such zone at most: it marks the last
opening parenthesis.

A zone is a cut between characters. Its ends are therefore positions of the text as a string,
however many bytes the characters next to them take (`exists_splits`), and a search that counts
in bytes finds it without being refused a cut (`locateBytes?_eq`).
-/

namespace Calculator

/-- The fault is visible in the marked part of the zone. -/
def Zone.Shows (z : Zone) : Fault → Prop
  | .unknownSymbol c => c = '%' ∧ z.marked = ['%'] ∧ ∀ d ∈ z.before.getLast?, isNumeric d = false
  | .unbalanced =>
      z.text.count ')' < z.text.count '(' ∧
        z.marked = ['('] ∧ '(' ∉ z.after ∧ ')' ∉ z.after
  | .divisionByZero =>
      (z.marked = ['÷', '0'] ∨ z.marked = ['/', '0']) ∧ z.after.head? ≠ some '.'
  | .malformed => z.marked = ['(', ')']
  | .decimalPoint => False

section Rules

theorem marks_strayPercentWidth :
    Zone.Marks strayPercentWidth fun z => z.Shows (.unknownSymbol '%') where
  width_eq := by
    rintro ⟨u, m, w⟩ ⟨-, hm, hu⟩
    obtain rfl : m = ['%'] := hm
    refine ⟨by simp, if_pos ⟨rfl, ?_⟩⟩
    rw [Option.all_eq_true]
    intro d hd
    simp [hu d hd]
  exists_of_pos := by
    intro u v hpos
    obtain ⟨-, w, rfl, hu⟩ := exists_cons_of_strayPercentWidth hpos
    exact ⟨⟨u, ['%'], w⟩, ⟨rfl, rfl, hu⟩, rfl, rfl⟩

theorem marks_lastOpeningWidth :
    Zone.Marks lastOpeningWidth fun z => z.marked = ['('] ∧ '(' ∉ z.after ∧ ')' ∉ z.after where
  width_eq := by
    rintro ⟨u, m, w⟩ ⟨hm, hw⟩
    obtain rfl : m = ['('] := hm
    exact ⟨by simp, if_pos ⟨rfl, all_ne_parenthesis_iff.2 hw⟩⟩
  exists_of_pos := by
    intro u v hpos
    cases v with
    | nil => cases hpos
    | cons c w =>
        rw [lastOpeningWidth] at hpos
        split at hpos
        · next hc =>
            obtain ⟨rfl, hw⟩ := hc
            exact ⟨⟨u, ['('], w⟩, ⟨rfl, all_ne_parenthesis_iff.1 hw⟩, rfl, rfl⟩
        · cases hpos

theorem marks_zeroDivisorWidth :
    Zone.Marks zeroDivisorWidth fun z => z.Shows .divisionByZero where
  width_eq := by
    rintro ⟨u, m, w⟩ ⟨hm, hw⟩
    rcases hm with rfl | rfl
    · exact ⟨by simp, if_pos ⟨rfl, hw⟩⟩
    · exact ⟨by simp, if_pos ⟨rfl, hw⟩⟩
  exists_of_pos := by
    intro u v hpos
    obtain ⟨-, c, w, rfl, hc, hw⟩ := exists_cons_of_zeroDivisorWidth hpos
    refine ⟨⟨u, [c, '0'], w⟩, ⟨?_, hw⟩, rfl, rfl⟩
    exact (Operator.ofChar?_eq_divide_iff.1 hc).imp (congrArg ([·, '0'])) (congrArg ([·, '0']))

theorem marks_emptyGroupWidth : Zone.Marks emptyGroupWidth fun z => z.Shows .malformed where
  width_eq := by
    rintro ⟨u, m, w⟩ hm
    obtain rfl : m = ['(', ')'] := hm
    exact ⟨by simp, rfl⟩
  exists_of_pos := by
    intro u v hpos
    unfold emptyGroupWidth at hpos
    split at hpos
    · next w => exact ⟨⟨u, ['(', ')'], w⟩, rfl, rfl, rfl⟩
    · cases hpos

end Rules

variable {t : Text} {f : Fault} {z : Zone}

/-- The zone of a fault is the first one that shows it. -/
theorem locate_eq_some_iff :
    locate t f = some z ↔ z.text = t ∧ z.Shows f ∧
      ∀ y : Zone, y.text = t → y.Shows f → z.before.length ≤ y.before.length := by
  cases f with
  | decimalPoint => simp [locate, Zone.Shows]
  | unknownSymbol c =>
      by_cases hc : c = '%'
      · subst hc
        rw [locate, if_pos rfl]
        exact marks_strayPercentWidth.first?_eq_some_iff
      · simp [locate, Zone.Shows, hc]
  | unbalanced =>
      rw [locate]
      split
      · next hcount =>
          have hshows : ∀ y : Zone, y.text = t →
              (y.Shows .unbalanced ↔ y.marked = ['('] ∧ '(' ∉ y.after ∧ ')' ∉ y.after) := by
            rintro y rfl
            exact and_iff_right hcount
          rw [marks_lastOpeningWidth.first?_eq_some_iff]
          refine and_congr_right fun htext => and_congr (hshows z htext).symm ?_
          exact forall₂_congr fun y hy => imp_congr_left (hshows y hy).symm
      · next hcount =>
          refine iff_of_false (by simp) ?_
          rintro ⟨rfl, hshows, -⟩
          exact hcount hshows.1
  | malformed => exact marks_emptyGroupWidth.first?_eq_some_iff
  | divisionByZero => exact marks_zeroDivisorWidth.first?_eq_some_iff

/-- A fault has no zone in a text only if none shows it. -/
theorem locate_eq_none_iff :
    locate t f = none ↔ ∀ y : Zone, y.text = t → ¬y.Shows f := by
  constructor
  · intro hnone y htext hy
    obtain ⟨z, ⟨hz, hshows⟩, hleast⟩ := (measure fun z : Zone => z.before.length).wf.has_min
      {z | z.text = t ∧ z.Shows f} ⟨y, htext, hy⟩
    have hfound : locate t f = some z :=
      locate_eq_some_iff.2 ⟨hz, hshows, fun x hx hs => Nat.le_of_not_lt (hleast x ⟨hx, hs⟩)⟩
    rw [hnone] at hfound
    cases hfound
  · intro hnone
    cases hfound : locate t f with
    | none => rfl
    | some z =>
        obtain ⟨htext, hshows, -⟩ := locate_eq_some_iff.1 hfound
        exact absurd hshows (hnone z htext)

/-- A cut between characters is a position of the string. -/
theorem exists_splits (u v : Text) :
    ∃ p : (String.ofList (u ++ v)).Pos, p.Splits (String.ofList u) (String.ofList v) := by
  have happend : String.ofList (u ++ v) = String.ofList u ++ String.ofList v :=
    String.ofList_append
  exact ⟨⟨_, String.Pos.Raw.isValid_iff_exists_append.2 ⟨_, _, happend, rfl⟩⟩, happend, rfl⟩

/-- A fault is shown by the first zone of the text that can show it, and not at all if there is
none. The parts of that zone make up the text, and its ends are positions of the string. The
search by byte offsets has the same answer, so that it never cuts inside of a character. -/
theorem locate_first_zone (t : Text) (f : Fault) :
    (∀ z : Zone, locate t f = some z ↔ z.text = t ∧ z.Shows f ∧
        ∀ y : Zone, y.text = t → y.Shows f → z.before.length ≤ y.before.length) ∧
      (locate t f = none ↔ ∀ y : Zone, y.text = t → ¬y.Shows f) ∧
      locateBytes? t f = some (locate t f) ∧
      ∀ z : Zone, locate t f = some z →
        z.before ++ z.marked ++ z.after = t ∧
          ∃ p q : (String.ofList t).Pos,
            p.Splits (String.ofList z.before) (String.ofList (z.marked ++ z.after)) ∧
              q.Splits (String.ofList (z.before ++ z.marked)) (String.ofList z.after) := by
  refine ⟨fun z => locate_eq_some_iff, locate_eq_none_iff, locateBytes?_eq t f, fun z hz => ?_⟩
  obtain rfl : z.before ++ z.marked ++ z.after = t := text_of_locate hz
  refine ⟨rfl, ?_⟩
  obtain ⟨q, hq⟩ := exists_splits (z.before ++ z.marked) z.after
  have hbegin := exists_splits z.before (z.marked ++ z.after)
  rw [← List.append_assoc] at hbegin
  obtain ⟨p, hp⟩ := hbegin
  exact ⟨p, q, hp, hq⟩

/-- In `é÷0.5+5÷0` the first divisor is a half, so that no zone shows a division by zero before
the second one; that division is at byte offset 9 and takes three bytes. In `((2)` the last
parenthesis that is opened is closed, and no zone shows the other one. -/
theorem locate_first_zone_behind_half :
    (∃ z : Zone, locate ['é', '÷', '0', '.', '5', '+', '5', '÷', '0'] .divisionByZero = some z ∧
        z.before = ['é', '÷', '0', '.', '5', '+', '5'] ∧ z.place 0 = (9, 3) ∧
        locateBytes? ['é', '÷', '0', '.', '5', '+', '5', '÷', '0'] .divisionByZero =
          some (some z) ∧
        ∀ y : Zone, y.text = ['é', '÷', '0', '.', '5', '+', '5', '÷', '0'] →
          y.Shows .divisionByZero → z.before.length ≤ y.before.length) ∧
      ∀ y : Zone, y.text = ['(', '(', '2', ')'] → ¬y.Shows .unbalanced := by
  obtain ⟨hfirst, -, hbytes, -⟩ :=
    locate_first_zone ['é', '÷', '0', '.', '5', '+', '5', '÷', '0'] .divisionByZero
  obtain ⟨-, hnone, -⟩ := locate_first_zone ['(', '(', '2', ')'] .unbalanced
  have hzone : locate ['é', '÷', '0', '.', '5', '+', '5', '÷', '0'] .divisionByZero =
      some ⟨['é', '÷', '0', '.', '5', '+', '5'], ['÷', '0'], []⟩ := rfl
  rw [hzone] at hbytes
  exact ⟨⟨_, hzone, rfl, rfl, hbytes, ((hfirst _).1 hzone).2.2⟩, hnone.1 rfl⟩

end Calculator
