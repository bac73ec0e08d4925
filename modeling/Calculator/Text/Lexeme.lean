import Calculator.Text

/-!
# Lexemes

A text is cut into lexemes: the maximal runs of digits and points, and every
other character by itself. The cut loses nothing (`text_lexemes`), and the runs
are maximal because no two of them are neighbours (`lexemes_separated`). A
character that is not numeric parts the lexemes before it from those behind it
(`lexemes_append_symbol`); with `lexemes_of_numeric` that settles every text.

`runs` is the sequence of the numerals of a text as the user sees them, in
order. It is what a change to the text must not disturb.
-/

namespace Calculator

/-- A piece of a text: a run of digits and points, or one other character. -/
inductive Lexeme
  | run (numeral : Text)
  | symbol (c : Char)
  deriving DecidableEq, Repr

namespace Lexeme

/-- The characters a lexeme stands for. -/
def text : Lexeme → Text
  | .run r => r
  | .symbol c => [c]

/-- The run of a lexeme, if it is one. -/
def run? : Lexeme → Option Text
  | .run r => some r
  | .symbol _ => none

/-- Puts a character before lexemes. A numeric character joins the run that
comes first, or opens one. -/
def push (c : Char) (ls : List Lexeme) : List Lexeme :=
  if isNumeric c then
    match ls with
    | .run r :: rest => .run (c :: r) :: rest
    | rest => .run [c] :: rest
  else .symbol c :: ls

/-- No two runs are neighbours. -/
def Separated : List Lexeme → Prop
  | .run _ :: .run _ :: _ => False
  | _ :: rest => Separated rest
  | [] => True

end Lexeme

/-- The lexemes of a text, in order. -/
def lexemes (t : Text) : List Lexeme :=
  t.foldr Lexeme.push []

/-- The maximal runs of digits and points of a text, in order. -/
def runs (t : Text) : List Text :=
  (lexemes t).filterMap Lexeme.run?

@[simp] theorem lexemes_nil : lexemes [] = [] := rfl

theorem lexemes_cons (c : Char) (t : Text) :
    lexemes (c :: t) = Lexeme.push c (lexemes t) := rfl

theorem Lexeme.flatMap_text_push (c : Char) (ls : List Lexeme) :
    (Lexeme.push c ls).flatMap Lexeme.text = c :: ls.flatMap Lexeme.text := by
  unfold Lexeme.push
  split
  · split <;> simp [Lexeme.text]
  · simp [Lexeme.text]

/-- The cut into lexemes loses nothing. -/
theorem text_lexemes (t : Text) : (lexemes t).flatMap Lexeme.text = t := by
  induction t with
  | nil => rfl
  | cons c t ih => rw [lexemes_cons, Lexeme.flatMap_text_push, ih]

theorem Lexeme.separated_push {ls : List Lexeme} (h : Lexeme.Separated ls) (c : Char) :
    Lexeme.Separated (Lexeme.push c ls) := by
  unfold Lexeme.push
  split
  · match ls, h with
    | [], _ => trivial
    | .symbol _ :: _, h => exact h
    | [.run _], _ => trivial
    | .run _ :: .symbol _ :: _, h => exact h
  · exact h

/-- The runs of a text are maximal. -/
theorem lexemes_separated (t : Text) : Lexeme.Separated (lexemes t) := by
  induction t with
  | nil => trivial
  | cons c t ih => exact Lexeme.separated_push ih c

theorem Lexeme.push_append_symbol (d c : Char) (ls ms : List Lexeme) :
    Lexeme.push d (ls ++ .symbol c :: ms) = Lexeme.push d ls ++ .symbol c :: ms := by
  unfold Lexeme.push
  cases ls with
  | nil => split <;> rfl
  | cons l ls => cases l <;> split <;> rfl

/-- A character that is not numeric parts the lexemes before it from those
behind it. -/
theorem lexemes_append_symbol {c : Char} (hc : isNumeric c = false) (s t : Text) :
    lexemes (s ++ c :: t) = lexemes s ++ .symbol c :: lexemes t := by
  induction s with
  | nil => simp [lexemes_cons, Lexeme.push, hc]
  | cons d s ih =>
      rw [List.cons_append, lexemes_cons, ih, Lexeme.push_append_symbol, lexemes_cons]

/-- A text of digits and points only is one run. -/
theorem lexemes_of_numeric {r : Text} (hne : r ≠ []) (hr : ∀ c ∈ r, isNumeric c = true) :
    lexemes r = [.run r] := by
  induction r with
  | nil => exact absurd rfl hne
  | cons c r ih =>
      have hc : isNumeric c = true := hr c (List.mem_cons_self ..)
      cases r with
      | nil => simp [lexemes_cons, Lexeme.push, hc]
      | cons d r =>
          have htail := ih (by simp) fun x hx => hr x (List.mem_cons_of_mem _ hx)
          rw [lexemes_cons, htail]
          simp [Lexeme.push, hc]

end Calculator
