/-!
# Text

Expressions, buffers and results are texts: lists of characters, so that they
are read, cut and rebuilt by recursion. The characters of a numeral are the
decimal digits and the point; `isNumeric` is the one place that says so.

The end of a text is reached by `takeEndWhile` and `dropEndWhile`. The main
lemma, `dropEndWhile_append_takeEndWhile`, says that the two parts are a cut of
the text: nothing is lost between them.

Where a text may not be empty, `0` stands for nothing: `Text.zero` and
`Text.orZero`. White space is told by the Unicode property `White_Space`, and
`Text.trim` takes it off both ends.
-/

namespace Calculator

/-- A text is the list of its characters. -/
abbrev Text := List Char

/-- A character that a numeral is written with: a decimal digit or the point. -/
def isNumeric (c : Char) : Bool :=
  c.isDigit || c == '.'

/-- The code points with the Unicode property `White_Space`: six controls, the
space, the no-break spaces, the typographic spaces and the two separators. -/
def isBlank (c : Char) : Bool :=
  let n := c.toNat
  (0x9 ≤ n && n ≤ 0xD) || n == 0x20 || n == 0x85 || n == 0xA0 || n == 0x1680 ||
    (0x2000 ≤ n && n ≤ 0x200A) || n == 0x2028 || n == 0x2029 || n == 0x202F ||
    n == 0x205F || n == 0x3000

theorem isNumeric_of_isDigit {c : Char} (h : c.isDigit = true) : isNumeric c = true := by
  simp [isNumeric, h]

namespace Text

/-- The text that stands for nothing. -/
def zero : Text := ['0']

/-- The text itself, or `zero` if there is nothing in it. -/
def orZero (t : Text) : Text :=
  if t = [] then zero else t

/-- The longest end of `t` whose characters all satisfy `p`. -/
def takeEndWhile (p : Char → Bool) (t : Text) : Text :=
  (t.reverse.takeWhile p).reverse

/-- What is left of `t` before the longest end whose characters all satisfy `p`. -/
def dropEndWhile (p : Char → Bool) (t : Text) : Text :=
  (t.reverse.dropWhile p).reverse

/-- The text without the blank characters at its two ends. -/
def trim (t : Text) : Text :=
  dropEndWhile isBlank (t.dropWhile isBlank)

theorem orZero_ne_nil (t : Text) : orZero t ≠ [] := by
  unfold orZero
  split
  · simp [zero]
  · assumption

theorem orZero_of_ne_nil {t : Text} (h : t ≠ []) : orZero t = t := by
  simp [orZero, h]

@[simp] theorem takeEndWhile_nil (p : Char → Bool) : takeEndWhile p [] = [] := rfl

@[simp] theorem dropEndWhile_nil (p : Char → Bool) : dropEndWhile p [] = [] := rfl

@[simp] theorem trim_nil : trim [] = [] := rfl

/-- The end and what comes before it make up the text. -/
theorem dropEndWhile_append_takeEndWhile (p : Char → Bool) (t : Text) :
    dropEndWhile p t ++ takeEndWhile p t = t := by
  rw [dropEndWhile, takeEndWhile, ← List.reverse_append,
    List.takeWhile_append_dropWhile, List.reverse_reverse]

/-- What is left does not end with a character that is dropped. -/
theorem getLast?_dropEndWhile (p : Char → Bool) (t : Text) :
    ∀ c ∈ (dropEndWhile p t).getLast?, p c = false := by
  intro c hc
  have hhead := List.head?_dropWhile_not p t.reverse
  rw [dropEndWhile, List.getLast?_reverse] at hc
  rw [hc] at hhead
  simpa using hhead

theorem of_mem_takeEndWhile {p : Char → Bool} {t : Text} :
    ∀ c ∈ takeEndWhile p t, p c = true := by
  intro c hc
  rw [takeEndWhile, List.mem_reverse] at hc
  exact List.all_eq_true.1 List.all_takeWhile c hc

/-- One more character at the end: it is dropped with the end if it satisfies
`p`, and otherwise nothing is. -/
theorem dropEndWhile_append_singleton (p : Char → Bool) (t : Text) (c : Char) :
    dropEndWhile p (t ++ [c]) = if p c then dropEndWhile p t else t ++ [c] := by
  by_cases h : p c <;> simp [dropEndWhile, h]

/-- One more character at the end: it prolongs the end if it satisfies `p`, and
otherwise the end is empty. -/
theorem takeEndWhile_append_singleton (p : Char → Bool) (t : Text) (c : Char) :
    takeEndWhile p (t ++ [c]) = if p c then takeEndWhile p t ++ [c] else [] := by
  by_cases h : p c <;> simp [takeEndWhile, h]

end Text

end Calculator
