import Mathlib.Data.List.Basic
import Mathlib.Data.List.Induction
import Calculator.Text.Lexeme

/-!
# Runs

The runs of a text are its numerals in order. They can be told on the two sides of a
cut, if no numeral goes across it (`runs_append_of_head`, `runs_append_of_getLast`),
and a text can be read run by run (`run_induction`). A digit that is written before a
text makes its first run longer, or is a run of its own (`runs_cons_numeric`).

Lexemes that are written one behind the other keep their runs exactly if no two of these are
neighbours (`Lexeme.runs_flatMap_text`).
-/

namespace Calculator

/-- What holds of texts in which every character has a property, and goes on over such a text
and a character without the property, holds of every text. -/
theorem cut_induction (p : Char → Bool) {P : Text → Prop}
    (hlast : ∀ r : Text, (∀ c ∈ r, p c = true) → P r)
    (hnext : ∀ (r : Text) (c : Char) (t : Text), (∀ x ∈ r, p x = true) → p c = false → P t →
      P (r ++ c :: t)) (t : Text) : P t := by
  suffices h : ∀ r : Text, (∀ c ∈ r, p c = true) → P (r ++ t) from h [] (List.forall_mem_nil _)
  induction t with
  | nil =>
      intro r hr
      rw [List.append_nil]
      exact hlast r hr
  | cons c t ih =>
      intro r hr
      cases hc : p c with
      | false => exact hnext r c t hr hc (ih [] (List.forall_mem_nil _))
      | true =>
          have hrun : ∀ x ∈ r ++ [c], p x = true :=
            List.forall_mem_append.2 ⟨hr, List.forall_mem_singleton.2 hc⟩
          simpa using ih (r ++ [c]) hrun

/-- A text is read numeral by numeral. -/
theorem run_induction {P : Text → Prop}
    (hlast : ∀ r : Text, (∀ c ∈ r, isNumeric c = true) → P r)
    (hnext : ∀ (r : Text) (c : Char) (t : Text), (∀ x ∈ r, isNumeric x = true) →
      isNumeric c = false → P t → P (r ++ c :: t)) (t : Text) : P t :=
  cut_induction isNumeric hlast hnext t

/-- A text is read from one digit or point to the next. -/
theorem gap_induction {P : Text → Prop}
    (hlast : ∀ w : Text, (∀ c ∈ w, isNumeric c = false) → P w)
    (hnext : ∀ (w : Text) (c : Char) (t : Text), (∀ x ∈ w, isNumeric x = false) →
      isNumeric c = true → P t → P (w ++ c :: t)) (t : Text) : P t :=
  cut_induction (fun c => !isNumeric c) (by simpa using hlast) (by simpa using hnext) t

theorem lexemes_cons_symbol {c : Char} (hc : isNumeric c = false) (t : Text) :
    lexemes (c :: t) = .symbol c :: lexemes t :=
  lexemes_append_symbol hc [] t

theorem runs_append_symbol {c : Char} (hc : isNumeric c = false) (u v : Text) :
    runs (u ++ c :: v) = runs u ++ runs v := by
  rw [runs, lexemes_append_symbol hc, List.filterMap_append, List.filterMap_cons_none rfl, runs,
    runs]

theorem runs_cons_symbol {c : Char} (hc : isNumeric c = false) (v : Text) :
    runs (c :: v) = runs v :=
  runs_append_symbol hc [] v

theorem runs_of_numeric {r : Text} (hne : r ≠ []) (hr : ∀ c ∈ r, isNumeric c = true) :
    runs r = [r] := by
  rw [runs, lexemes_of_numeric hne hr]
  rfl

/-- A cut behind a character that is not numeric. -/
theorem lexemes_append_of_getLast {u : Text} (hu : ∀ c ∈ u.getLast?, isNumeric c = false)
    (v : Text) : lexemes (u ++ v) = lexemes u ++ lexemes v := by
  rcases List.eq_nil_or_concat' u with rfl | ⟨u, c, rfl⟩
  · rfl
  · have hc : isNumeric c = false := hu c (by rw [List.getLast?_concat]; rfl)
    rw [List.append_assoc, List.singleton_append, lexemes_append_symbol hc,
      lexemes_append_symbol hc, lexemes_nil, List.append_assoc, List.singleton_append]

/-- A cut before a character that is not numeric. -/
theorem lexemes_append_of_head {v : Text} (hv : ∀ c ∈ v.head?, isNumeric c = false) (u : Text) :
    lexemes (u ++ v) = lexemes u ++ lexemes v := by
  cases v with
  | nil => rw [List.append_nil, lexemes_nil, List.append_nil]
  | cons c v =>
      rw [lexemes_append_symbol (hv c rfl), lexemes_cons_symbol (hv c rfl)]

theorem runs_append_of_getLast {u : Text} (hu : ∀ c ∈ u.getLast?, isNumeric c = false)
    (v : Text) : runs (u ++ v) = runs u ++ runs v := by
  rw [runs, lexemes_append_of_getLast hu, List.filterMap_append, runs, runs]

theorem runs_append_of_head {v : Text} (hv : ∀ c ∈ v.head?, isNumeric c = false) (u : Text) :
    runs (u ++ v) = runs u ++ runs v := by
  rw [runs, lexemes_append_of_head hv, List.filterMap_append, runs, runs]

theorem head?_of_head?_lexemes {c : Char} {t : Text}
    (h : (lexemes t).head? = some (.symbol c)) : t.head? = some c := by
  obtain ⟨ls, hls⟩ := List.head?_eq_some_iff.1 h
  rw [← text_lexemes t, hls]
  rfl

theorem getLast?_lexemes_eq_symbol_iff {c : Char} (hc : isNumeric c = false) {t : Text} :
    (lexemes t).getLast? = some (.symbol c) ↔ t.getLast? = some c := by
  constructor
  · intro h
    obtain ⟨ls, hls⟩ := List.getLast?_eq_some_iff.1 h
    rw [← text_lexemes t, hls, List.flatMap_append]
    exact List.getLast?_concat
  · intro h
    obtain ⟨u, rfl⟩ := List.getLast?_eq_some_iff.1 h
    rw [lexemes_append_symbol hc]
    exact List.getLast?_concat

/-- A text is cut before the numeral at its end. -/
theorem exists_cut (t : Text) :
    ∃ u s : Text, t = u ++ s ∧ (∀ c ∈ u.getLast?, isNumeric c = false) ∧
      ∀ c ∈ s, isNumeric c = true := by
  induction t using List.reverseRecOn with
  | nil => exact ⟨[], [], rfl, by simp, by simp⟩
  | append_singleton t c ih =>
      cases hc : isNumeric c with
      | false => exact ⟨t ++ [c], [], by simp, by simpa using hc, by simp⟩
      | true =>
          obtain ⟨u, s, rfl, hu, hs⟩ := ih
          refine ⟨u, s ++ [c], by simp, hu, ?_⟩
          exact List.forall_mem_append.2 ⟨hs, List.forall_mem_singleton.2 hc⟩

/-- A text is cut behind the numeral at its start. -/
theorem exists_cut_head (t : Text) :
    ∃ r v : Text, t = r ++ v ∧ (∀ c ∈ r, isNumeric c = true) ∧
      ∀ c ∈ v.head?, isNumeric c = false := by
  refine ⟨t.takeWhile isNumeric, t.dropWhile isNumeric, List.takeWhile_append_dropWhile.symm,
    List.all_eq_true.1 List.all_takeWhile, fun c hc => ?_⟩
  have hhead := List.head?_dropWhile_not isNumeric t
  rw [Option.mem_def.1 hc] at hhead
  simpa using hhead

/-- The runs of a text whose last numeral is known. -/
theorem runs_append_numeral {u s : Text} (hu : ∀ c ∈ u.getLast?, isNumeric c = false)
    (hs : ∀ c ∈ s, isNumeric c = true) (hne : s ≠ []) : runs (u ++ s) = runs u ++ [s] := by
  rw [runs_append_of_getLast hu, runs_of_numeric hne hs]

theorem mem_runs_iff {r t : Text} : r ∈ runs t ↔ .run r ∈ lexemes t := by
  rw [runs, List.mem_filterMap]
  constructor
  · rintro ⟨l, hl, hr⟩
    cases l with
    | run q => cases hr; exact hl
    | symbol c => cases hr
  · exact fun h => ⟨.run r, h, rfl⟩

theorem isNumeric_of_mem_runs {r t : Text} (h : r ∈ runs t) : ∀ c ∈ r, isNumeric c = true := by
  induction t using run_induction with
  | hlast q hq =>
      by_cases hne : q = []
      · subst hne
        cases h
      · rw [runs_of_numeric hne hq, List.mem_singleton] at h
        rwa [h]
  | hnext q c t hq hc ih =>
      rw [runs_append_symbol hc, List.mem_append] at h
      rcases h with h | h
      · by_cases hne : q = []
        · subst hne
          cases h
        · rw [runs_of_numeric hne hq, List.mem_singleton] at h
          rwa [h]
      · exact ih h

theorem runs_of_not_numeric {w : Text} (hw : ∀ c ∈ w, isNumeric c = false) : runs w = [] := by
  induction w with
  | nil => rfl
  | cons c w ih =>
      obtain ⟨hc, hw⟩ := List.forall_mem_cons.1 hw
      rw [runs_cons_symbol hc, ih hw]

/-- What stands between numerals does not show in the runs. -/
theorem runs_gap_append {w : Text} (hw : ∀ c ∈ w, isNumeric c = false) (t : Text) :
    runs (w ++ t) = runs t := by
  rw [runs_append_of_getLast fun c hc => hw c (List.mem_of_getLast? hc), runs_of_not_numeric hw,
    List.nil_append]

theorem runs_append_gap {w : Text} (hw : ∀ c ∈ w, isNumeric c = false) (t : Text) :
    runs (t ++ w) = runs t := by
  rw [runs_append_of_head fun c hc => hw c (List.mem_of_mem_head? hc), runs_of_not_numeric hw,
    List.append_nil]

/-- A digit with no numeral behind it is a run of its own. -/
theorem runs_cons_of_head {c : Char} (hc : isNumeric c = true) {t : Text}
    (ht : ∀ d ∈ t.head?, isNumeric d = false) : runs (c :: t) = [c] :: runs t := by
  rw [← List.singleton_append, runs_append_of_head ht, runs_of_numeric (List.cons_ne_nil c [])
    (List.forall_mem_singleton.2 hc), List.singleton_append]

/-- What stands behind a digit ends its run. -/
theorem runs_cons_gap_append {c : Char} (hc : isNumeric c = true) {w : Text} (hne : w ≠ [])
    (hw : ∀ c ∈ w, isNumeric c = false) (t : Text) : runs (c :: (w ++ t)) = [c] :: runs t := by
  have hhead : ∀ d ∈ (w ++ t).head?, isNumeric d = false := by
    intro d hd
    rw [List.head?_append_of_ne_nil w hne] at hd
    exact hw d (List.mem_of_mem_head? hd)
  rw [runs_cons_of_head hc hhead, runs_gap_append hw]

theorem runs_cons_numeric {c : Char} (hc : isNumeric c = true) (t : Text) :
    runs (c :: t) = [c] :: runs t ∨
      ∃ (r : Text) (rs : List Text), runs t = r :: rs ∧ runs (c :: t) = (c :: r) :: rs := by
  simp only [runs, lexemes_cons, Lexeme.push, if_pos hc]
  cases lexemes t with
  | nil => exact Or.inl rfl
  | cons l ls =>
      cases l with
      | symbol d => exact Or.inl rfl
      | run r => exact Or.inr ⟨r, _, rfl, rfl⟩

theorem runs_eq_nil_iff {t : Text} : runs t = [] ↔ ∀ c ∈ t, isNumeric c = false := by
  refine ⟨fun h => ?_, runs_of_not_numeric⟩
  induction t using gap_induction with
  | hlast w hw => exact hw
  | hnext w c t hw hc ih =>
      rw [runs_gap_append hw] at h
      rcases runs_cons_numeric hc t with hrun | ⟨r, rs, -, hrun⟩
      · rw [hrun] at h
        cases h
      · rw [hrun] at h
        cases h

/-- A digit before a numeral makes it longer. -/
theorem exists_runs_cons_cons {c d : Char} (hc : isNumeric c = true) (hd : isNumeric d = true)
    (t : Text) :
    ∃ (r : Text) (rs : List Text),
      runs (d :: t) = r :: rs ∧ runs (c :: d :: t) = (c :: r) :: rs := by
  simp only [runs, lexemes_cons, Lexeme.push, if_pos hc, if_pos hd]
  cases lexemes t with
  | nil => exact ⟨[d], [], rfl, rfl⟩
  | cons l ls =>
      cases l with
      | symbol x => exact ⟨[d], _, rfl, rfl⟩
      | run r => exact ⟨d :: r, _, rfl, rfl⟩

theorem length_runs_cons_cons {c d : Char} (hc : isNumeric c = true) (hd : isNumeric d = true)
    (t : Text) : (runs (c :: d :: t)).length = (runs (d :: t)).length := by
  obtain ⟨r, rs, hr, hcr⟩ := exists_runs_cons_cons hc hd t
  rw [hr, hcr, List.length_cons, List.length_cons]

/-- Digits before a numeral are no run of their own. -/
theorem length_runs_numeric_append {r : Text} (hr : ∀ c ∈ r, isNumeric c = true) {d : Char}
    (hd : isNumeric d = true) (t : Text) :
    (runs (r ++ d :: t)).length = (runs (d :: t)).length := by
  induction r with
  | nil => rfl
  | cons c r ih =>
      obtain ⟨hc, hr⟩ := List.forall_mem_cons.1 hr
      rw [← ih hr]
      cases r with
      | nil => exact length_runs_cons_cons hc hd t
      | cons b r => exact length_runs_cons_cons hc (hr b (List.mem_cons_self ..)) (r ++ d :: t)

namespace Lexeme

@[simp] theorem filterMap_run?_symbol (c : Char) (ls : List Lexeme) :
    (symbol c :: ls).filterMap run? = ls.filterMap run? := rfl

@[simp] theorem filterMap_run?_run (r : Text) (ls : List Lexeme) :
    (run r :: ls).filterMap run? = r :: ls.filterMap run? := rfl

/-- The characters of a lexeme are of its kind. -/
def WellFormed : Lexeme → Prop
  | .run r => r ≠ [] ∧ ∀ c ∈ r, isNumeric c = true
  | .symbol c => isNumeric c = false

theorem wellFormed_of_mem_lexemes {t : Text} {l : Lexeme} (h : l ∈ lexemes t) : l.WellFormed := by
  have hnumeral : ∀ r : Text, (∀ c ∈ r, isNumeric c = true) → ∀ l ∈ lexemes r, l.WellFormed := by
    intro r hr l hl
    by_cases hne : r = []
    · subst hne
      cases hl
    · rw [lexemes_of_numeric hne hr, List.mem_singleton] at hl
      subst hl
      exact ⟨hne, hr⟩
  induction t using run_induction with
  | hlast r hr => exact hnumeral r hr l h
  | hnext r c t hr hc ih =>
      rw [lexemes_append_symbol hc, List.mem_append, List.mem_cons] at h
      rcases h with h | rfl | h
      · exact hnumeral r hr l h
      · exact hc
      · exact ih h

/-- The runs of lexemes that are written one behind the other are theirs if no two of them are
neighbours. Otherwise some of them have become one. -/
theorem runs_flatMap_text {ls : List Lexeme} (h : ∀ l ∈ ls, l.WellFormed) :
    (runs (ls.flatMap text)).length ≤ (ls.filterMap run?).length ∧
      (runs (ls.flatMap text) = ls.filterMap run? ↔ Separated ls) := by
  induction ls with
  | nil => exact ⟨Nat.le_refl 0, iff_of_true rfl trivial⟩
  | cons l ls ih =>
      obtain ⟨hl, hls⟩ := List.forall_mem_cons.1 h
      obtain ⟨hle, hiff⟩ := ih hls
      cases l with
      | symbol c =>
          rw [List.flatMap_cons, text, List.singleton_append, runs_cons_symbol hl,
            filterMap_run?_symbol]
          exact ⟨hle, hiff⟩
      | run r =>
          rw [filterMap_run?_run, List.flatMap_cons, text, List.length_cons]
          cases ls with
          | nil =>
              rw [List.flatMap_nil, List.append_nil, runs_of_numeric hl.1 hl.2]
              exact ⟨Nat.le_refl 1, iff_of_true rfl trivial⟩
          | cons m ms =>
              cases m with
              | symbol c =>
                  have hhead : ∀ d ∈ ((Lexeme.symbol c :: ms).flatMap text).head?,
                      isNumeric d = false := by
                    rintro d ⟨⟩
                    exact hls _ (List.mem_cons_self ..)
                  rw [runs_append_of_head hhead, runs_of_numeric hl.1 hl.2, List.singleton_append,
                    List.length_cons, List.cons_inj_right]
                  exact ⟨Nat.succ_le_succ hle, hiff⟩
              | run q =>
                  obtain ⟨hne, hq⟩ := hls _ (List.mem_cons_self ..)
                  obtain ⟨d, q, rfl⟩ := List.exists_cons_of_ne_nil hne
                  have hlength := length_runs_numeric_append hl.2 (hq d (List.mem_cons_self ..))
                    (q ++ ms.flatMap text)
                  rw [List.flatMap_cons, text, List.cons_append] at hle ⊢
                  rw [hlength]
                  refine ⟨Nat.le_succ_of_le hle, iff_of_false (fun heq => ?_) id⟩
                  have heq := congrArg List.length heq
                  rw [hlength, List.length_cons] at heq
                  omega

end Lexeme

end Calculator
