import Calculator.Proofs.Repair.Mending
import Calculator.Proofs.Text.Runs

/-!
# What repairs do to numerals

A repair takes operators, blanks and groups away, so that numerals may become neighbours, and
moves percent signs over digits. `Merges` says that some runs of a text have become one, and under
which condition. For the removal of empty groups that is two numerals with nothing else between
them (`merges_withoutEmptyGroups`); a percent sign that is moved parts a numeral of more than one
character (`merges_movePercent`). All other repairs leave the numerals as they are, which settles
it for every suggestion (`keepsNumerals_of_suggest_iff`).
-/

namespace Calculator

/-- `s` has the numerals of `t`, in order; a text without numerals may be given up for `0`. -/
def KeepsNumerals (t s : Text) : Prop :=
  runs s = runs t ∨ (∀ c ∈ t, isNumeric c = false) ∧ s = Text.zero

/-- Between two numerals of the text stands something, but only what goes with empty groups. -/
def JoinsNumerals (t : Text) : Prop :=
  ∃ (u w v : Text) (a b : Char), t = u ++ a :: (w ++ b :: v) ∧ isNumeric a = true ∧
    isNumeric b = true ∧ w ≠ [] ∧ withoutEmptyGroups [] w = []

/-- A percent sign with no numeral before it stands before a numeral that starts with a digit and
goes on behind it; `numeral` says whether the character before the text belongs to a numeral. -/
def PartsNumeral (numeral : Bool) (t : Text) : Prop :=
  ∃ (u v : Text) (d c : Char), t = u ++ '%' :: d :: c :: v ∧ d.isDigit = true ∧
    isNumeric c = true ∧ (u = [] → numeral = false) ∧ ∀ x ∈ u.getLast?, isNumeric x = false

/-- The runs of `s` are those of `t`, except that some have become one where `P` holds. -/
structure Merges (s t : Text) (P : Prop) : Prop where
  length_le : (runs s).length ≤ (runs t).length
  eq_iff : runs s = runs t ↔ ¬P

namespace Merges

variable {s t : Text} {P : Prop}

theorem of_runs_eq (h : runs s = runs t) (hP : ¬P) : Merges s t P :=
  ⟨by rw [h], iff_of_true h hP⟩

/-- Texts with the runs of the given ones merge under the same condition. -/
theorem congr_runs {x y : Text} (h : Merges s t P) (hs : runs x = runs s)
    (ht : runs y = runs t) : Merges x y P := by
  obtain ⟨hle, hiff⟩ := h
  rw [← hs, ← ht] at hle hiff
  exact ⟨hle, hiff⟩

/-- So they do with a run of its own before both. -/
theorem cons_run {x y r : Text} (h : Merges s t P) (hs : runs x = r :: runs s)
    (ht : runs y = r :: runs t) : Merges x y P := by
  obtain ⟨hle, hiff⟩ := h
  refine ⟨?_, ?_⟩
  · rw [hs, ht]
    exact Nat.succ_le_succ hle
  · rw [hs, ht, List.cons_inj_right, hiff]

/-- Where the run of its own is before one of them only, something has become one. -/
theorem join {x y r : Text} {Q : Prop} (h : Merges s t P)
    (hs : (runs x).length = (runs s).length) (ht : runs y = r :: runs t) (hQ : Q) :
    Merges x y Q := by
  have hlt : (runs x).length < (runs y).length := by
    rw [hs, ht, List.length_cons]
    exact Nat.lt_succ_of_le h.length_le
  refine ⟨hlt.le, iff_of_false (fun heq => ?_) (not_not_intro hQ)⟩
  rw [heq] at hlt
  exact absurd hlt (Nat.lt_irrefl _)

theorem cons_symbol {c : Char} (hc : isNumeric c = false) (h : Merges s t P) :
    Merges (c :: s) (c :: t) P :=
  h.congr_runs (runs_cons_symbol hc s) (runs_cons_symbol hc t)

/-- A digit before two texts becomes part of the same run if they start with one character. -/
theorem cons_numeric {c : Char} (hc : isNumeric c = true) (h : Merges s t P)
    (hhead : s.head? = t.head?) : Merges (c :: s) (c :: t) P := by
  by_cases hs : ∀ d ∈ s.head?, isNumeric d = false
  · exact h.cons_run (runs_cons_of_head hc hs) (runs_cons_of_head hc (hhead ▸ hs))
  · obtain ⟨d, hds, hd⟩ : ∃ d, s.head? = some d ∧ isNumeric d = true := by simpa using hs
    obtain ⟨s, rfl⟩ := List.head?_eq_some_iff.1 hds
    obtain ⟨t, rfl⟩ := List.head?_eq_some_iff.1 (hhead ▸ hds)
    obtain ⟨p, ps, hp, hcp⟩ := exists_runs_cons_cons hc hd s
    obtain ⟨q, qs, hq, hcq⟩ := exists_runs_cons_cons hc hd t
    obtain ⟨hle, hiff⟩ := h
    rw [hp, hq] at hle hiff
    refine ⟨by rw [hcp, hcq]; exact hle, ?_⟩
    rw [hcp, hcq, ← hiff]
    simp only [List.cons.injEq, true_and]

end Merges

section Trimming

variable {p : Char → Bool}

theorem runs_dropWhile (hp : ∀ c, p c = true → isNumeric c = false) (t : Text) :
    runs (t.dropWhile p) = runs t := by
  have htaken : ∀ c ∈ t.takeWhile p, isNumeric c = false := fun c hc =>
    hp c (List.mem_takeWhile_imp hc)
  rw [← runs_gap_append htaken, List.takeWhile_append_dropWhile]

theorem runs_dropEndWhile (hp : ∀ c, p c = true → isNumeric c = false) (t : Text) :
    runs (Text.dropEndWhile p t) = runs t := by
  have htaken : ∀ c ∈ Text.takeEndWhile p t, isNumeric c = false := fun c hc =>
    hp c (List.mem_takeWhile_imp (List.mem_reverse.1 hc))
  rw [← runs_append_gap htaken, Text.dropEndWhile_append_takeEndWhile]

theorem runs_trim (t : Text) : runs t.trim = runs t := by
  have hblank : ∀ c, isBlank c = true → isNumeric c = false := fun c hc =>
    (isPlain_of_isBlank hc).1
  rw [Text.trim, runs_dropEndWhile hblank, runs_dropWhile hblank]

theorem keepsNumerals_trimEnd (t : Text) : KeepsNumerals t (trimEnd t) := by
  have hkept : runs (Text.dropEndWhile isDangling t.trim) = runs t := by
    rw [runs_dropEndWhile fun c hc => (isPlain_of_ending (Or.inr hc)).1, runs_trim]
  simp only [trimEnd]
  split
  · exact Or.inl rfl
  · by_cases hnil : Text.dropEndWhile isDangling t.trim = []
    · rw [hnil] at hkept ⊢
      exact Or.inr ⟨runs_eq_nil_iff.1 hkept.symm, rfl⟩
    · rw [Text.orZero_of_ne_nil hnil]
      exact Or.inl hkept

end Trimming

theorem runs_mergeOperators (t : Text) : runs (mergeOperators t) = runs t := by
  suffices h : Merges (mergeOperators t) t False from h.eq_iff.2 not_false
  fun_induction mergeOperators t with
  | case1 c d rest hcd ih =>
      exact ih.congr_runs rfl (runs_cons_symbol (isPlain_of_isOperator hcd.2).1 _)
  | case2 c d rest hcd ih =>
      cases hc : isNumeric c with
      | false => exact ih.cons_symbol hc
      | true => exact ih.cons_numeric hc (head?_mergeOperators _)
  | case3 t hne => exact .of_runs_eq rfl not_false

theorem runs_closeGroups (t : Text) : runs (closeGroups t) = runs t := by
  refine runs_append_gap (fun c hc => ?_) t
  rw [(List.mem_replicate.1 hc).2]
  rfl

section MovePercent

variable {numeral : Bool} {c d : Char} {t : Text}

theorem partsNumeral_cons :
    PartsNumeral numeral (c :: t) ↔
      (c = '%' ∧ numeral = false ∧ ∃ (d e : Char) (v : Text), t = d :: e :: v ∧
        d.isDigit = true ∧ isNumeric e = true) ∨ PartsNumeral (isNumeric c) t := by
  constructor
  · rintro ⟨u, v, d, e, heq, hd, he, hnil, hlast⟩
    cases u with
    | nil =>
        cases heq
        exact Or.inl ⟨rfl, hnil rfl, d, e, v, rfl, hd, he⟩
    | cons x u =>
        obtain ⟨rfl, rfl⟩ := List.cons.inj heq
        refine Or.inr ⟨u, v, d, e, rfl, hd, he, ?_, fun y hy => ?_⟩
        · rintro rfl
          exact hlast c rfl
        · cases u with
          | nil => cases hy
          | cons z u => exact hlast y (by simpa using hy)
  · rintro (⟨rfl, hnumeral, d, e, v, rfl, hd, he⟩ | ⟨u, v, d, e, rfl, hd, he, hnil, hlast⟩)
    · exact ⟨[], v, d, e, rfl, hd, he, fun _ => hnumeral, by simp⟩
    · refine ⟨c :: u, v, d, e, rfl, hd, he, fun h => absurd h (List.cons_ne_nil c u), ?_⟩
      cases u with
      | nil => simpa using hnil rfl
      | cons z u => simpa using hlast

theorem not_partsNumeral_of_not_numeric (h : ∀ c ∈ t, isNumeric c = false) :
    ¬PartsNumeral numeral t := by
  rintro ⟨u, v, d, c, rfl, -, hc, -⟩
  rw [h c (by simp)] at hc
  cases hc

/-- Where a percent sign is moved, the numeral behind it shows at once whether it is parted. -/
theorem partsNumeral_of_moved (hd : d.isDigit = true) :
    PartsNumeral false ('%' :: d :: t) ↔
      (∃ e ∈ t.head?, isNumeric e = true) ∨ PartsNumeral true t := by
  have hne : d ≠ '%' := by
    rintro rfl
    cases hd
  have hbehind : PartsNumeral (isNumeric '%') (d :: t) ↔ PartsNumeral true t := by
    rw [partsNumeral_cons, isNumeric_of_isDigit hd]
    exact or_iff_right fun h => hne h.1
  rw [partsNumeral_cons, hbehind]
  refine or_congr_left ⟨?_, ?_⟩
  · rintro ⟨-, -, x, e, v, heq, -, he⟩
    obtain ⟨-, rfl⟩ := List.cons.inj heq
    exact ⟨e, rfl, he⟩
  · rintro ⟨e, he, hnumeric⟩
    obtain ⟨v, rfl⟩ := List.head?_eq_some_iff.1 he
    exact ⟨rfl, rfl, d, e, v, rfl, hd, hnumeric⟩

theorem partsNumeral_of_not_moved (h : ¬(c = '%' ∧ numeral = false ∧ d.isDigit = true)) :
    PartsNumeral numeral (c :: d :: t) ↔ PartsNumeral (isNumeric c) (d :: t) := by
  rw [partsNumeral_cons]
  refine or_iff_right ?_
  rintro ⟨hc, hnumeral, x, e, v, heq, hx, -⟩
  obtain ⟨rfl, -⟩ := List.cons.inj heq
  exact h ⟨hc, hnumeral, hx⟩

theorem head?_movePercent_true (t : Text) : (movePercent true t).head? = t.head? := by
  fun_cases movePercent true t with
  | case1 c d rest hcd => exact absurd hcd.2.1 (by decide)
  | case2 c d rest hcd => rfl
  | case3 t hne => rfl

/-- A percent sign that is moved parts the numeral behind it, if that goes on behind its first
digit. -/
theorem merges_movePercent (numeral : Bool) (t : Text) :
    Merges t (movePercent numeral t) (PartsNumeral numeral t) := by
  fun_induction movePercent numeral t with
  | case1 numeral c d rest hcd ih =>
      obtain ⟨rfl, rfl, hdigit⟩ := hcd
      have hd : isNumeric d = true := isNumeric_of_isDigit hdigit
      have hread : runs ('%' :: d :: rest) = runs (d :: rest) := runs_cons_symbol rfl _
      have hmoved : runs (d :: '%' :: movePercent true rest) =
          [d] :: runs (movePercent true rest) := by
        rw [runs_cons_of_head hd (by rintro _ ⟨⟩; rfl), runs_cons_symbol rfl]
      rw [partsNumeral_of_moved hdigit]
      by_cases hhead : ∃ e ∈ rest.head?, isNumeric e = true
      · obtain ⟨e, he, hnumeric⟩ := hhead
        obtain ⟨v, rfl⟩ := List.head?_eq_some_iff.1 he
        refine ih.join ?_ hmoved (Or.inl ⟨e, he, hnumeric⟩)
        rw [hread, length_runs_cons_cons hd hnumeric]
      · rw [or_iff_right hhead]
        have hapart : ∀ e ∈ rest.head?, isNumeric e = false := by simpa using hhead
        exact ih.cons_run (hread.trans (runs_cons_of_head hd hapart)) hmoved
  | case2 numeral c d rest hcd ih =>
      rw [partsNumeral_of_not_moved hcd]
      cases hc : isNumeric c with
      | false =>
          rw [hc] at ih
          exact ih.cons_symbol hc
      | true =>
          rw [hc] at ih
          exact ih.cons_numeric hc (head?_movePercent_true _).symm
  | case3 numeral t hne =>
      refine .of_runs_eq rfl ?_
      rintro ⟨u, v, d, c, rfl, -⟩
      cases u with
      | nil => exact hne '%' d (c :: v) rfl
      | cons x u => cases u <;> exact hne _ _ _ rfl

end MovePercent

section EmptyGroups

variable {t v w : Text} {a b c : Char}

theorem dropOperator_append_cons (hc : isOperator c = false) (kept below : Text) :
    dropOperator (kept ++ c :: below) = dropOperator kept ++ c :: below := by
  cases kept with
  | nil => simp [dropOperator, hc]
  | cons d kept =>
      simp only [List.cons_append, dropOperator]
      split <;> rfl

/-- What is kept below a character that is no operator stays as it is. -/
theorem withoutEmptyGroups_append_cons (hc : isOperator c = false) (kept below t : Text) :
    withoutEmptyGroups (kept ++ c :: below) t =
      below.reverse ++ c :: withoutEmptyGroups kept t := by
  fun_induction withoutEmptyGroups kept t with
  | case1 kept rest ih => rw [withoutEmptyGroups, dropOperator_append_cons hc, ih]
  | case2 kept d rest hne ih =>
      rw [withoutEmptyGroups, ← List.cons_append, ih]
      exact hne
  | case3 kept => simp [withoutEmptyGroups]

/-- The text is read anew behind a digit. -/
theorem withoutEmptyGroups_append_numeric (hc : isNumeric c = true) (kept w v : Text) :
    withoutEmptyGroups kept (w ++ c :: v) =
      withoutEmptyGroups kept w ++ c :: withoutEmptyGroups [] v := by
  have hoperator : isOperator c = false := isOperator_of_isNumeric hc
  have hnumeric : c ≠ '(' ∧ c ≠ ')' := by
    constructor <;> rintro rfl <;> cases hc
  fun_induction withoutEmptyGroups kept w with
  | case1 kept rest ih =>
      rw [← ih]
      rfl
  | case2 kept d rest hne ih =>
      rw [List.cons_append, withoutEmptyGroups, ih]
      -- an empty group would have to be closed by the digit
      rintro u rfl hu
      cases rest with
      | nil => exact hnumeric.2 (List.cons.inj hu).1
      | cons e rest =>
          obtain ⟨rfl, rfl⟩ := List.cons.inj hu
          exact hne rest rfl rfl
  | case3 kept =>
      rw [List.nil_append, withoutEmptyGroups, ← List.nil_append (c :: kept),
        withoutEmptyGroups_append_cons hoperator]
      rintro u rfl
      exact absurd rfl hnumeric.1

/-- Digits are kept. -/
theorem not_numeric_of_withoutEmptyGroups_eq_nil (h : withoutEmptyGroups [] w = []) :
    ∀ c ∈ w, isNumeric c = false := by
  intro c hc
  obtain ⟨u, v, rfl⟩ := List.append_of_mem hc
  cases hnumeric : isNumeric c with
  | false => rfl
  | true =>
      rw [withoutEmptyGroups_append_numeric hnumeric] at h
      exact absurd h (List.append_ne_nil_of_right_ne_nil _ (List.cons_ne_nil c _))

theorem joinsNumerals_cons :
    JoinsNumerals (c :: t) ↔
      (isNumeric c = true ∧ ∃ (w v : Text) (b : Char), t = w ++ b :: v ∧ isNumeric b = true ∧
        w ≠ [] ∧ withoutEmptyGroups [] w = []) ∨ JoinsNumerals t := by
  constructor
  · rintro ⟨u, w, v, a, b, heq, ha, hb, hne, hw⟩
    cases u with
    | nil =>
        obtain ⟨rfl, rfl⟩ := List.cons.inj heq
        exact Or.inl ⟨ha, w, v, b, rfl, hb, hne, hw⟩
    | cons x u =>
        obtain ⟨rfl, rfl⟩ := List.cons.inj heq
        exact Or.inr ⟨u, w, v, a, b, rfl, ha, hb, hne, hw⟩
  · rintro (⟨hc, w, v, b, rfl, hb, hne, hw⟩ | ⟨u, w, v, a, b, rfl, ha, hb, hne, hw⟩)
    · exact ⟨[], w, v, c, b, rfl, hc, hb, hne, hw⟩
    · exact ⟨c :: u, w, v, a, b, rfl, ha, hb, hne, hw⟩

theorem joinsNumerals_gap_append (hw : ∀ c ∈ w, isNumeric c = false) (t : Text) :
    JoinsNumerals (w ++ t) ↔ JoinsNumerals t := by
  induction w with
  | nil => rfl
  | cons c w ih =>
      obtain ⟨hc, hw⟩ := List.forall_mem_cons.1 hw
      rw [List.cons_append, joinsNumerals_cons, ih hw, hc]
      exact or_iff_right fun h => absurd h.1 (by decide)

/-- The first digit of a text tells what stands before it. -/
theorem gap_eq_of_append_cons_eq {u v w x : Text} (hu : ∀ c ∈ u, isNumeric c = false)
    (hw : ∀ c ∈ w, isNumeric c = false) (ha : isNumeric a = true) (hb : isNumeric b = true)
    (h : u ++ a :: v = w ++ b :: x) : u = w := by
  have hgap : ∀ {y z : Text} {c : Char}, (∀ d ∈ y, isNumeric d = false) → isNumeric c = true →
      (y ++ c :: z).takeWhile (fun d => !isNumeric d) = y := by
    intro y z c hy hc
    rw [List.takeWhile_append_of_pos (by simpa using hy),
      List.takeWhile_cons_of_neg (by simp [hc]), List.append_nil]
  rw [← hgap hu ha, h, hgap hw hb]

/-- Behind a digit the next numeral is joined, or a later one. -/
theorem joinsNumerals_cons_gap_append (ha : isNumeric a = true)
    (hw : ∀ c ∈ w, isNumeric c = false) (hb : isNumeric b = true) (t : Text) :
    JoinsNumerals (a :: (w ++ b :: t)) ↔
      (w ≠ [] ∧ withoutEmptyGroups [] w = []) ∨ JoinsNumerals (b :: t) := by
  rw [joinsNumerals_cons, joinsNumerals_gap_append hw]
  refine or_congr_left ⟨?_, fun h => ⟨ha, w, t, b, rfl, hb, h⟩⟩
  rintro ⟨-, u, v, c, heq, hc, hne, hu⟩
  obtain rfl := gap_eq_of_append_cons_eq hw (not_numeric_of_withoutEmptyGroups_eq_nil hu) hb hc heq
  exact ⟨hne, hu⟩

theorem not_joinsNumerals_of_not_numeric (h : ∀ c ∈ t, isNumeric c = false) :
    ¬JoinsNumerals t := by
  rintro ⟨u, w, v, a, b, rfl, ha, -⟩
  rw [h a (by simp)] at ha
  cases ha

theorem not_numeric_withoutEmptyGroups (hw : ∀ c ∈ w, isNumeric c = false) :
    ∀ c ∈ withoutEmptyGroups [] w, isNumeric c = false := fun c hc =>
  hw c (by simpa using (withoutEmptyGroups_sublist [] w).subset hc)

/-- A digit before the text, since only behind one can a numeral be joined: the induction goes
from digit to digit. -/
theorem merges_cons_withoutEmptyGroups (ha : isNumeric a = true) (t : Text) :
    Merges (a :: withoutEmptyGroups [] t) (a :: t) (JoinsNumerals (a :: t)) := by
  induction t using gap_induction generalizing a with
  | hlast w hw =>
      have halone : ∀ x : Text, (∀ c ∈ x, isNumeric c = false) → runs (a :: x) = [[a]] := by
        intro x hx
        rw [runs_cons_of_head ha fun c hc => hx c (List.mem_of_mem_head? hc),
          runs_of_not_numeric hx]
      refine .of_runs_eq ?_ ?_
      · rw [halone w hw, halone _ (not_numeric_withoutEmptyGroups hw)]
      · rw [joinsNumerals_cons]
        rintro (⟨-, x, v, b, rfl, hb, -⟩ | h)
        · rw [hw b (by simp)] at hb
          cases hb
        · exact not_joinsNumerals_of_not_numeric hw h
  | hnext w b t hw hb ih =>
      have ih := ih hb
      rw [withoutEmptyGroups_append_numeric hb, joinsNumerals_cons_gap_append ha hw hb]
      by_cases hne : w = []
      · subst hne
        rw [or_iff_right fun h => h.1 rfl]
        exact ih.cons_numeric ha rfl
      · have hparted := runs_cons_gap_append ha hne hw (b :: t)
        by_cases hempty : withoutEmptyGroups [] w = []
        · rw [hempty, List.nil_append]
          exact ih.join (length_runs_cons_cons ha hb _) hparted (Or.inl ⟨hne, rfl⟩)
        · rw [or_iff_right fun h => hempty h.2]
          exact ih.cons_run
            (runs_cons_gap_append ha hempty (not_numeric_withoutEmptyGroups hw) _) hparted

/-- Empty groups that go join the numerals between which there is nothing else. -/
theorem merges_withoutEmptyGroups (t : Text) :
    Merges (withoutEmptyGroups [] t) t (JoinsNumerals t) := by
  induction t using gap_induction with
  | hlast w hw =>
      refine .of_runs_eq ?_ (not_joinsNumerals_of_not_numeric hw)
      rw [runs_of_not_numeric hw, runs_of_not_numeric (not_numeric_withoutEmptyGroups hw)]
  | hnext w c t hw hc _ =>
      rw [withoutEmptyGroups_append_numeric hc, joinsNumerals_gap_append hw]
      exact (merges_cons_withoutEmptyGroups hc t).congr_runs
        (runs_gap_append (not_numeric_withoutEmptyGroups hw) _) (runs_gap_append hw _)

end EmptyGroups

/-- Texts without numerals keep them as they are, since the condition is about numerals. -/
theorem keepsNumerals_iff_of_runs_eq_iff {t s : Text} {P : Prop} (h : runs s = runs t ↔ ¬P)
    (hnone : (∀ c ∈ t, isNumeric c = false) → ¬P) : KeepsNumerals t s ↔ ¬P :=
  ⟨fun hkept => hkept.elim h.1 fun hzero => hnone hzero.1, fun hP => Or.inl (h.2 hP)⟩

theorem keepsNumerals_removeEmptyGroups_iff {t : Text} (ht : t ≠ []) :
    KeepsNumerals t (removeEmptyGroups t) ↔ ¬JoinsNumerals t := by
  rw [removeEmptyGroups, if_neg ht]
  by_cases hempty : withoutEmptyGroups [] t = []
  · have hnone := not_numeric_of_withoutEmptyGroups_eq_nil hempty
    rw [hempty]
    exact iff_of_true (Or.inr ⟨hnone, rfl⟩) (not_joinsNumerals_of_not_numeric hnone)
  · rw [Text.orZero_of_ne_nil hempty]
    exact keepsNumerals_iff_of_runs_eq_iff (merges_withoutEmptyGroups t).eq_iff
      not_joinsNumerals_of_not_numeric

example : removeEmptyGroups ['5', '+', '(', ')', '3'] = ['5', '3'] := by decide

theorem keepsNumerals_movePercent_iff (t : Text) :
    KeepsNumerals t (movePercent false t) ↔ ¬PartsNumeral false t :=
  keepsNumerals_iff_of_runs_eq_iff (eq_comm.trans (merges_movePercent false t).eq_iff)
    not_partsNumeral_of_not_numeric

/-- A suggestion keeps the numerals of the text, unless it takes away all that stands between two
of them or moves a percent sign into one. -/
theorem keepsNumerals_of_suggest_iff {t : Text} {s : Suggestion} (h : suggest t = some s) :
    KeepsNumerals t s.fix ↔
      ¬(s.repair = .removeEmptyGroups ∧ JoinsNumerals t) ∧
        ¬(s.repair = .movePercent ∧ PartsNumeral false t) := by
  rw [← (apply_of_suggest h).1]
  cases s.repair with
  | mergeOperators =>
      exact iff_of_true (Or.inl (runs_mergeOperators t)) ⟨by rintro ⟨⟨⟩, -⟩, by rintro ⟨⟨⟩, -⟩⟩
  | removeEmptyGroups =>
      simpa [Repair.apply] using keepsNumerals_removeEmptyGroups_iff (ne_nil_of_suggest h)
  | movePercent => simpa [Repair.apply] using keepsNumerals_movePercent_iff t
  | trimEnd =>
      exact iff_of_true (keepsNumerals_trimEnd t) ⟨by rintro ⟨⟨⟩, -⟩, by rintro ⟨⟨⟩, -⟩⟩
  | closeGroups =>
      exact iff_of_true (Or.inl (runs_closeGroups t)) ⟨by rintro ⟨⟨⟩, -⟩, by rintro ⟨⟨⟩, -⟩⟩

/-- The percent sign of `10÷%2` is moved behind a numeral of one digit. -/
theorem keepsNumerals_of_percent_before_digit :
    suggest ['1', '0', '÷', '%', '2'] = some ⟨.movePercent, ['1', '0', '÷', '2', '%']⟩ ∧
      KeepsNumerals ['1', '0', '÷', '%', '2'] ['1', '0', '÷', '2', '%'] := by
  have hsuggest : suggest ['1', '0', '÷', '%', '2'] =
      some ⟨.movePercent, ['1', '0', '÷', '2', '%']⟩ := rfl
  refine ⟨hsuggest, (keepsNumerals_of_suggest_iff hsuggest).2 ⟨by rintro ⟨⟨⟩, -⟩, ?_⟩⟩
  rintro ⟨-, hparts⟩
  simp [partsNumeral_cons, not_partsNumeral_of_not_numeric] at hparts

/-- The percent sign of `%25` is moved into the numeral. -/
theorem not_forall_keepsNumerals_of_suggest :
    ¬∀ (t : Text) (s : Suggestion), suggest t = some s → KeepsNumerals t s.fix := by
  intro h
  rcases h ['%', '2', '5'] ⟨.movePercent, ['2', '%', '5']⟩ rfl with hruns | ⟨hnone, -⟩
  · cases hruns
  · exact absurd (hnone '2' (by decide)) (by decide)

end Calculator
