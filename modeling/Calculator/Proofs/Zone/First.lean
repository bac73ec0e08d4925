import Calculator.Zone

/-!
# The first place that a rule accepts

The search for a zone reads a text behind what stands before it. The zone that it finds marks
as many characters as the rule says at its place, and the rule accepts no place before it
(`isFirst_of_first?`); where nothing is found it accepts no place at all
(`skips_of_first?_eq_none`).

A rule counts characters, and what it looks for is a kind of zones (`Marks`). In these terms the
search finds the first zone of the kind among all that the text can be cut into
(`first?_eq_some_iff`).
-/

namespace Calculator

namespace Zone

variable {width : Option Char → Text → Nat} {a t : Text} {z : Zone}

/-- The rule accepts no place of the second text, where the first one stands before it and the
third one behind it. -/
def Skips (width : Option Char → Text → Nat) : Text → Text → Text → Prop
  | _, [], _ => True
  | a, c :: u, v => width a.getLast? (c :: (u ++ v)) = 0 ∧ Skips width (a ++ [c]) u v

/-- The zone marks the first place that the rule accepts in the text behind `a`. -/
structure IsFirst (width : Option Char → Text → Nat) (a : Text) (z : Zone) : Prop where
  skips : Skips width a z.before (z.marked ++ z.after)
  accepts : 0 < width (a ++ z.before).getLast? (z.marked ++ z.after)
  marked_eq :
    z.marked = (z.marked ++ z.after).take (width (a ++ z.before).getLast? (z.marked ++ z.after))

theorem IsFirst.cons {c : Char} (h : IsFirst width (a ++ [c]) z)
    (hzero : width a.getLast? (c :: z.text) = 0) : IsFirst width a (z.cons c) := by
  obtain ⟨hskips, haccepts, hmarked⟩ := h
  rw [List.append_assoc, List.singleton_append] at haccepts hmarked
  rw [text, List.append_assoc] at hzero
  exact ⟨⟨hzero, hskips⟩, haccepts, hmarked⟩

/-- What is found is the first place. -/
theorem isFirst_of_first? (h : first? width a.getLast? t = some z) : IsFirst width a z := by
  induction t generalizing a z with
  | nil => simp [first?] at h
  | cons c t ih =>
      unfold first? at h
      split at h
      · next hzero =>
          obtain ⟨y, hy, rfl⟩ := Option.map_eq_some_iff.1 h
          rw [← List.getLast?_concat (l := a) (a := c)] at hy
          exact (ih hy).cons (by rwa [text_of_first? hy])
      · next hzero =>
          cases h
          refine ⟨trivial, ?_, ?_⟩
          · rw [List.append_nil, List.take_append_drop]
            exact Nat.pos_of_ne_zero hzero
          · rw [List.append_nil, List.take_append_drop]

/-- Where nothing is found the rule accepts no place. -/
theorem skips_of_first?_eq_none (h : first? width a.getLast? t = none) : Skips width a t [] := by
  induction t generalizing a with
  | nil => trivial
  | cons c t ih =>
      unfold first? at h
      split at h
      · next hzero =>
          rw [Option.map_eq_none_iff, ← List.getLast?_concat (l := a) (a := c)] at h
          rw [Skips, List.append_nil]
          exact ⟨hzero, ih h⟩
      · cases h

theorem Skips.eq_zero {s w v : Text} {c : Char} (h : Skips width a (s ++ c :: w) v) :
    width (a ++ s).getLast? (c :: (w ++ v)) = 0 := by
  induction s generalizing a with
  | nil =>
      rw [List.append_nil]
      exact h.1
  | cons d s ih =>
      have hrest := ih h.2
      rwa [List.append_assoc, List.singleton_append] at hrest

/-- In its text a zone is told by where it begins and how much it marks. -/
theorem eq_of_length_eq {y z : Zone} (htext : y.text = z.text)
    (hbefore : y.before.length = z.before.length) (hmarked : y.marked.length = z.marked.length) :
    y = z := by
  obtain ⟨u, m, w⟩ := y
  obtain ⟨u', m', w'⟩ := z
  rw [text, text, List.append_assoc, List.append_assoc] at htext
  obtain ⟨rfl, hbehind⟩ := List.append_inj htext hbefore
  obtain ⟨rfl, rfl⟩ := List.append_inj hbehind hmarked
  rfl

/-- The rule marks the zones of a kind: it accepts a place exactly if one of them is there, and
says how many characters are marked in it. -/
structure Marks (width : Option Char → Text → Nat) (Q : Zone → Prop) : Prop where
  width_eq : ∀ y : Zone, Q y →
    y.marked ≠ [] ∧ width y.before.getLast? (y.marked ++ y.after) = y.marked.length
  exists_of_pos : ∀ u v : Text, 0 < width u.getLast? v →
    ∃ y : Zone, Q y ∧ y.before = u ∧ y.marked ++ y.after = v

namespace Marks

variable {Q : Zone → Prop} {y : Zone}

/-- Two zones of the kind that begin at one place are one. -/
theorem eq_of_begin_eq (h : Marks width Q) (hy : Q y) (hz : Q z) (htext : y.text = z.text)
    (hbegin : y.before.length = z.before.length) : y = z := by
  have hcut := htext
  rw [text, text, List.append_assoc, List.append_assoc] at hcut
  obtain ⟨hbefore, hbehind⟩ := List.append_inj hcut hbegin
  refine eq_of_length_eq htext hbegin ?_
  rw [← (h.width_eq y hy).2, ← (h.width_eq z hz).2, hbefore, hbehind]

theorem of_isFirst (h : Marks width Q) (hz : IsFirst width [] z) : Q z := by
  obtain ⟨-, haccepts, hmarked⟩ := hz
  rw [List.nil_append] at haccepts hmarked
  obtain ⟨y, hy, hbefore, hbehind⟩ := h.exists_of_pos _ _ haccepts
  rw [← hbehind, ← hbefore, (h.width_eq y hy).2, List.take_left] at hmarked
  have htext : z.text = y.text := by
    rw [text, text, List.append_assoc, List.append_assoc, hbefore, hbehind]
  rwa [eq_of_length_eq htext (by rw [hbefore]) (by rw [hmarked])]

/-- No zone of the kind begins where the rule has passed. -/
theorem length_le_of_skips (h : Marks width Q) {u v : Text} (hskips : Skips width [] u v)
    (hy : Q y) (htext : y.text = u ++ v) : u.length ≤ y.before.length := by
  refine Nat.le_of_not_lt fun hlt => ?_
  rw [text, List.append_assoc] at htext
  rcases List.append_eq_append_iff.1 htext with ⟨s, rfl, hbehind⟩ | ⟨s, hbefore, -⟩
  · cases s with
    | nil =>
        rw [List.append_nil] at hlt
        exact Nat.lt_irrefl _ hlt
    | cons c s =>
        have hzero := hskips.eq_zero
        obtain ⟨hne, hwidth⟩ := h.width_eq y hy
        rw [List.nil_append, ← List.cons_append, ← hbehind, hwidth] at hzero
        exact hne (List.eq_nil_of_length_eq_zero hzero)
  · rw [hbefore, List.length_append] at hlt
    omega

/-- What is found is of the kind, and no zone of the kind begins before it. -/
theorem of_first? (h : Marks width Q) (hsearch : first? width none t = some z) :
    Q z ∧ ∀ y : Zone, y.text = t → Q y → z.before.length ≤ y.before.length := by
  have hfirst := isFirst_of_first? (a := []) hsearch
  refine ⟨h.of_isFirst hfirst, fun y htext hy => ?_⟩
  refine h.length_le_of_skips hfirst.skips hy (htext.trans ?_)
  rw [← text_of_first? hsearch, text, List.append_assoc]

/-- A text that can be cut into a zone of the kind is not searched in vain. -/
theorem exists_first? (h : Marks width Q) (hy : Q y) :
    ∃ z : Zone, first? width none y.text = some z := by
  cases hsearch : first? width none y.text with
  | some z => exact ⟨z, rfl⟩
  | none =>
      have hskips := skips_of_first?_eq_none (a := []) hsearch
      have hle := h.length_le_of_skips hskips hy (List.append_nil _).symm
      have hmarked := List.length_pos_iff.2 (h.width_eq y hy).1
      rw [text, List.length_append, List.length_append] at hle
      omega

/-- The search finds the first zone of the kind. -/
theorem first?_eq_some_iff (h : Marks width Q) :
    first? width none t = some z ↔ z.text = t ∧ Q z ∧
      ∀ y : Zone, y.text = t → Q y → z.before.length ≤ y.before.length := by
  refine ⟨fun hsearch => ⟨text_of_first? hsearch, h.of_first? hsearch⟩, ?_⟩
  rintro ⟨rfl, hz, hleast⟩
  obtain ⟨y, hsearch⟩ := h.exists_first? hz
  obtain ⟨hy, hbefore⟩ := h.of_first? hsearch
  have htext := text_of_first? hsearch
  have hlength := Nat.le_antisymm (hbefore z rfl hz) (hleast y htext hy)
  rw [hsearch, h.eq_of_begin_eq hy hz htext hlength]

end Marks

end Zone

end Calculator
