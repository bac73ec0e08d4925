import Calculator.Proofs.Decimal.BareNumber

/-!
# The numeral being typed

The numeral being typed is the end of the buffer behind its last boundary
(`activeSegment_append`), and no character of a numeral is a boundary. What
typing digits or the point leads to depends on that numeral alone; the ways are
listed once (`TypesNumeric`). So are the ways in which any glyph is written
(`Appends`) and those in which a group is closed or opened (`Toggles`), each with
what the edit has looked at.
-/

namespace Calculator

open Buffer

theorem isBoundary_of_isNumeric {c : Char} (h : isNumeric c = true) : isBoundary c = false := by
  have hne : ∀ d : Char, isNumeric d = false → c ≠ d := by
    rintro d hd rfl
    rw [h] at hd
    cases hd
  simp [isBoundary, isOperator_of_isNumeric h, hne '(' rfl, hne ')' rfl, hne '%' rfl]

theorem isBoundary_of_isOperator {c : Char} (h : isOperator c = true) : isBoundary c = true := by
  rw [isBoundary, h]
  rfl

theorem isNumeric_of_isBoundary {c : Char} (h : isBoundary c = true) : isNumeric c = false := by
  cases hc : isNumeric c with
  | false => rfl
  | true =>
      rw [isBoundary_of_isNumeric hc] at h
      cases h

theorem activeSegment_append_singleton (s : Text) (c : Char) :
    activeSegment (s ++ [c]) = if isBoundary c then [] else activeSegment s ++ [c] := by
  rw [activeSegment, Text.takeEndWhile_append_singleton]
  cases isBoundary c <;> rfl

theorem getLast?_of_activeSegment {t : Text} {c : Char}
    (h : (activeSegment t).getLast? = some c) : t.getLast? = some c := by
  rcases List.eq_nil_or_concat' t with rfl | ⟨s, d, rfl⟩
  · cases h
  · rw [activeSegment_append_singleton] at h
    split at h
    · cases h
    · simpa using h

/-- The numeral at the end is the one being typed. -/
theorem activeSegment_append {u s : Text} (hu : ∀ c ∈ u.getLast?, isBoundary c = true)
    (hs : ∀ c ∈ s, isNumeric c = true) : activeSegment (u ++ s) = s := by
  induction s using List.reverseRecOn with
  | nil =>
      rcases List.eq_nil_or_concat' u with rfl | ⟨u, c, rfl⟩
      · rfl
      · rw [List.append_nil, activeSegment_append_singleton, if_pos (hu c (by simp))]
  | append_singleton s c ih =>
      obtain ⟨hs, hc⟩ := List.forall_mem_append.1 hs
      rw [← List.append_assoc, activeSegment_append_singleton,
        isBoundary_of_isNumeric (hc c (List.mem_singleton_self c)), ih hs]
      rfl

theorem Glyph.isDigits_text {g : Glyph} (hg : g.canStart = true) (hpoint : g ≠ .point) :
    isDigits g.text = true := by
  cases g with
  | digit n =>
      have hall : ∀ k ≤ 9, (Char.ofNat (48 + k)).isDigit = true := by decide
      exact isDigits_iff.2 ⟨List.cons_ne_nil _ _, fun c hc => by
        rw [List.mem_singleton.1 hc]
        exact hall _ (Nat.min_le_right n 9)⟩
  | doubleZero => rfl
  | tripleZero => rfl
  | point => exact absurd rfl hpoint
  | operator op => cases hg
  | percent => cases hg

/-- The ways in which digits or the point are typed behind a text. -/
inductive Buffer.TypesNumeric (t : Text) : Glyph → Text → Prop
  | pointFirst : activeSegment t = [] → TypesNumeric t .point (t ++ ['0', '.'])
  | point : activeSegment t ≠ [] → '.' ∉ activeSegment t → TypesNumeric t .point (t ++ ['.'])
  | zeroFirst {g : Glyph} : activeSegment t = [] → TypesNumeric t g (t ++ ['0'])
  | digits {g : Glyph} :
      isDigits g.text = true → activeSegment t ≠ Text.zero →
        (g.isZeros = true → activeSegment t ≠ []) → TypesNumeric t g (t ++ g.text)
  | replace {g : Glyph} :
      isDigits g.text = true → g.isZeros = false → activeSegment t = Text.zero →
        TypesNumeric t g (t.dropLast ++ g.text)

theorem Buffer.typesNumeric_of_appendNumeric? {t s : Text} {g : Glyph} (hg : g.canStart = true)
    (h : appendNumeric? t g = some s) : TypesNumeric t g s := by
  simp only [appendNumeric?] at h
  split at h
  · next hpoint =>
      subst hpoint
      split at h
      · cases h
      · next hmem =>
          split at h
          · next hnil => cases h; exact .pointFirst hnil
          · next hne => cases h; exact .point hne hmem
  · next hpoint =>
      have hdigits := Glyph.isDigits_text hg hpoint
      split at h
      · split at h
        · cases h
        · next hzero =>
            split at h
            · next hnil => cases h; exact .zeroFirst hnil
            · next hne => cases h; exact .digits hdigits hzero fun _ => hne
      · next hzeros =>
          split at h
          · next hzero => cases h; exact .replace hdigits (eq_false_of_ne_true hzeros) hzero
          · next hzero => cases h; exact .digits hdigits hzero fun h => absurd h hzeros

namespace Buffer

/-- The ways in which a glyph is written behind a text. -/
inductive Appends (t : Text) : Glyph → Text → Prop
  | refused {g : Glyph} : Appends t g t
  | replace {op : Operator} :
      t.getLast?.any isOperator = true → Appends t (.operator op) (t.dropLast ++ [op.glyph])
  | operator {op : Operator} :
      t.getLast?.any isOperator = false → t.getLast? ≠ some '(' →
        Appends t (.operator op) (t ++ [op.glyph])
  | percent : percentAllowed t = true → Appends t .percent (t ++ ['%'])
  | numeric {g : Glyph} {s : Text} : TypesNumeric (closeOperand t) g s → Appends t g s

theorem appends_append (t : Text) (g : Glyph) : Appends t g (append t g) := by
  have hnumeric : ∀ g : Glyph, g.canStart = true →
      Appends t g ((appendNumeric? (closeOperand t) g).getD t) := by
    intro g hg
    cases hs : appendNumeric? (closeOperand t) g with
    | none => exact .refused
    | some s => exact .numeric (typesNumeric_of_appendNumeric? hg hs)
  cases g with
  | operator op =>
      change Appends t (.operator op) (appendOperator t op)
      unfold appendOperator
      split
      · next hlast => exact .replace hlast
      · next hlast =>
          split
          · exact .refused
          · next hopening => exact .operator (eq_false_of_ne_true hlast) hopening
  | percent =>
      change Appends t .percent (if percentAllowed t = true then t ++ ['%'] else t)
      split
      · next hallowed => exact .percent hallowed
      · exact .refused
  | _ => exact hnumeric _ rfl

/-- The ways in which a group is closed or opened behind a text. -/
inductive Toggles (t : Text) : Text → Prop
  | closing : hasOpenGroup t = true → operandDue t = false → Toggles t (t ++ [')'])
  | refused : Toggles t t
  | first : Toggles t ['(']
  | factor : Toggles t (t ++ ['×'] ++ ['('])
  | opening :
      (Text.takeEndWhile (· == '(') t).length < maxOpenings →
        (t.getLast?.any fun c => c.isDigit || c == ')' || c == '%') = false →
          Toggles t (t ++ ['('])

theorem toggles_toggleGroup (t : Text) : Toggles t (toggleGroup t) := by
  unfold toggleGroup
  split
  · next hclosing =>
      rw [Bool.and_eq_true, Bool.not_eq_true'] at hclosing
      exact .closing hclosing.1 hclosing.2
  · split
    · exact .refused
    · next hfew =>
        split
        · exact .first
        · split
          · rw [List.append_cons]
            exact .factor
          · next hlast => exact .opening (not_le.1 hfew) (eq_false_of_ne_true hlast)

end Buffer

end Calculator
