import Calculator.Proofs.Repair.Closing

/-!
# The slip that a repair mends

Each repair is told here by what it undoes: how a text comes about from another one by
slips of one kind. An operator is struck twice (`Stutters`), a group is left empty
(`EmptyGroups`), percent signs come before their numerals (`PercentsAhead`), something
dangles at the end (`Dangles`). None of these descriptions follows the repair. That
the repair leads back to the text without the slips, and to no other one, is an iff for
each of them, and together they say what a suggestion is (`suggest_eq_some_iff_mended`).
-/

namespace Calculator

/-- The text `e` is `w` with some of its operators struck several times. -/
inductive Stutters : Text → Text → Prop
  | nil : Stutters [] []
  | keep (c : Char) {w e : Text} : Stutters w e → Stutters (c :: w) (c :: e)
  | again {c : Char} {w e : Text} :
      isOperator c = true → Stutters (c :: w) e → Stutters (c :: w) (c :: e)

/-- The text `e` is `w` with empty groups put in, each behind an operator that goes with
it unless there is another character to stand behind, or none. -/
inductive EmptyGroups : Text → Text → Prop
  | nil : EmptyGroups [] []
  | keep {c : Char} {w e : Text} :
      EmptyGroups w e → (c = ')' → e.getLast? ≠ some '(') → EmptyGroups (w ++ [c]) (e ++ [c])
  | group {w e : Text} :
      EmptyGroups w e → (∀ c ∈ w.getLast?, isOperator c = false) →
        EmptyGroups w (e ++ ['(', ')'])
  | operand {c : Char} {w e : Text} :
      EmptyGroups (w ++ [c]) e → isOperator c = true → EmptyGroups w (e ++ ['(', ')'])

/-- The text `e` is `w` with percent signs that come before a digit instead of behind it, where
they follow no numeral; the flag says whether a numeral ends before the two texts. -/
inductive PercentsAhead : Bool → Text → Text → Prop
  | nil (numeral : Bool) : PercentsAhead numeral [] []
  | keep {numeral : Bool} {c : Char} {w e : Text} :
      (c = '%' → numeral = false → ∀ d ∈ e.head?, d.isDigit = false) →
        PercentsAhead (isNumeric c) w e → PercentsAhead numeral (c :: w) (c :: e)
  | move {d : Char} {w e : Text} :
      d.isDigit = true → PercentsAhead true w e →
        PercentsAhead false (d :: '%' :: w) ('%' :: d :: e)

/-- The text `e` is `w` with operators and percent signs behind it, blanks around aside. -/
def Dangles (w e : Text) : Prop :=
  ∃ front tail back : Text, e = front ++ (w ++ tail) ++ back ∧
    (∀ c ∈ front, isBlank c = true) ∧ (∀ c ∈ back, isBlank c = true) ∧
    (∀ c ∈ tail, isDangling c = true) ∧ tail ≠ [] ∧
    (∀ c ∈ w.head?, isBlank c = false) ∧ ∀ c ∈ w.getLast?, isDangling c = false

/-- The text `w` is what `e` should have been, if the slips in it are those that the repair is
for. Where nothing else is left of `e` it is `0`. -/
def Repair.Mended : Repair → Text → Text → Prop
  | .mergeOperators, e, w =>
      Stutters w e ∧ w.IsChain fun c d => isOperator c = true → c ≠ d
  | .removeEmptyGroups, e, w => ∃ v : Text, EmptyGroups v e ∧ w = v.orZero
  | .movePercent, e, w => PercentsAhead false w e
  | .trimEnd, e, w => ∃ v : Text, Dangles v e ∧ w = v.orZero
  | .closeGroups, e, w =>
      ∃ n : Nat, w = e ++ List.replicate n ')' ∧ e.count ')' + n = e.count '('

variable {c : Char} {e w : Text}

section Operators

/-- A character is left out exactly if it is an operator with the same one behind it. -/
theorem mergeOperators_cons (c : Char) (e : Text) :
    mergeOperators (c :: e) =
      if e.head? = some c ∧ isOperator c = true then mergeOperators e
      else c :: mergeOperators e := by
  cases e with
  | nil => rfl
  | cons d e => simp only [mergeOperators, List.head?_cons, Option.some_inj, eq_comm (a := d)]

theorem stutters_mergeOperators (e : Text) : Stutters (mergeOperators e) e := by
  induction e with
  | nil => exact .nil
  | cons c e ih =>
      rw [mergeOperators_cons]
      split
      · next h =>
          obtain ⟨v, hv⟩ := List.head?_eq_some_iff.1 ((head?_mergeOperators e).trans h.1)
          rw [hv] at ih ⊢
          exact .again h.2 ih
      · exact .keep c ih

theorem isChain_mergeOperators (e : Text) :
    (mergeOperators e).IsChain fun c d => isOperator c = true → c ≠ d := by
  induction e with
  | nil => exact .nil
  | cons c e ih =>
      rw [mergeOperators_cons]
      split
      · exact ih
      · next h =>
          refine List.isChain_cons.2 ⟨fun d hd hc => ?_, ih⟩
          rintro rfl
          exact h ⟨(head?_mergeOperators e).symm.trans hd, hc⟩

theorem mergeOperators_of_stutters (h : Stutters w e)
    (hchain : w.IsChain fun c d => isOperator c = true → c ≠ d) : mergeOperators e = w := by
  induction h with
  | nil => rfl
  | @keep c w e h ih =>
      obtain ⟨hhead, hrest⟩ := List.isChain_cons.1 hchain
      have hmerged := ih hrest
      have hkept : ¬(e.head? = some c ∧ isOperator c = true) := by
        rintro ⟨hc, hoperator⟩
        rw [← head?_mergeOperators, hmerged] at hc
        exact hhead c hc hoperator rfl
      rw [mergeOperators_cons, if_neg hkept, hmerged]
  | @again c w e hc h ih =>
      have hmerged := ih hchain
      have hagain : e.head? = some c := by
        rw [← head?_mergeOperators, hmerged, List.head?_cons]
      rw [mergeOperators_cons, if_pos ⟨hagain, hc⟩, hmerged]

/-- Merging leads back to the text that was struck without repetitions. -/
theorem mergeOperators_eq_iff :
    mergeOperators e = w ↔
      Stutters w e ∧ w.IsChain fun c d => isOperator c = true → c ≠ d := by
  constructor
  · rintro rfl
    exact ⟨stutters_mergeOperators e, isChain_mergeOperators e⟩
  · exact fun h => mergeOperators_of_stutters h.1 h.2

end Operators

section Groups

variable {t kept : Text}

/-- The text is read in two pieces unless the cut parts an empty group. -/
theorem withoutEmptyGroups_append (hcut : e.getLast? = some '(' → t.head? ≠ some ')') :
    withoutEmptyGroups kept (e ++ t) =
      withoutEmptyGroups (withoutEmptyGroups kept e).reverse t := by
  fun_induction withoutEmptyGroups kept e with
  | case1 kept rest ih =>
      change withoutEmptyGroups (dropOperator kept) (rest ++ t) = _
      refine ih fun hlast => hcut ?_
      rw [← hlast]
      exact List.getLast?_append_of_ne_nil ['(', ')'] (by rintro rfl; cases hlast)
  | case2 kept c rest hne ih =>
      have hrest : rest.getLast? = some '(' → t.head? ≠ some ')' := fun hlast => by
        refine hcut ?_
        rw [← hlast]
        exact List.getLast?_append_of_ne_nil [c] (by rintro rfl; cases hlast)
      rw [List.cons_append, withoutEmptyGroups, ih hrest]
      rintro v rfl hv
      cases rest with
      | nil => exact hcut rfl (by rw [← List.nil_append t, hv, List.head?_cons])
      | cons d rest =>
          obtain ⟨rfl, -⟩ := List.cons.inj hv
          exact hne rest rfl rfl
  | case3 kept => rw [List.nil_append, List.reverse_reverse]

theorem emptyGroups_dropOperator (h : EmptyGroups kept.reverse e) :
    EmptyGroups (dropOperator kept).reverse (e ++ ['(', ')']) := by
  cases kept with
  | nil => exact .group h fun c hc => nomatch hc
  | cons c kept =>
      rw [List.reverse_cons] at h
      cases hc : isOperator c with
      | true =>
          rw [dropOperator, if_pos hc]
          exact .operand h hc
      | false =>
          rw [dropOperator, if_neg (by simp [hc]), List.reverse_cons]
          exact .group h (by simpa using hc)

/-- The part `e` of the text has been read, and `kept` is what is left of it. -/
theorem emptyGroups_withoutEmptyGroups (h : EmptyGroups kept.reverse e)
    (hcut : e.getLast? = some '(' → t.head? ≠ some ')') :
    EmptyGroups (withoutEmptyGroups kept t) (e ++ t) := by
  fun_induction withoutEmptyGroups kept t generalizing e with
  | case1 kept rest ih => simpa using ih (emptyGroups_dropOperator h) (by simp)
  | case2 kept c rest hne ih =>
      have hkept : EmptyGroups (c :: kept).reverse (e ++ [c]) := by
        rw [List.reverse_cons]
        refine .keep h ?_
        rintro rfl hlast
        exact hcut hlast rfl
      have hrest : (e ++ [c]).getLast? = some '(' → rest.head? ≠ some ')' := by
        rw [List.getLast?_concat, Option.some_inj]
        rintro rfl hhead
        obtain ⟨v, rfl⟩ := List.head?_eq_some_iff.1 hhead
        exact hne v rfl rfl
      simpa using ih hkept hrest
  | case3 kept => rwa [List.append_nil]

theorem withoutEmptyGroups_of_emptyGroups (h : EmptyGroups w e) :
    withoutEmptyGroups [] e = w := by
  -- behind what is left of the text before it, the last group is closed
  have hgroup : ∀ {v u : Text}, withoutEmptyGroups [] u = v →
      withoutEmptyGroups [] (u ++ ['(', ')']) = (dropOperator v.reverse).reverse := by
    rintro v u rfl
    rw [withoutEmptyGroups_append (by simp)]
    rfl
  induction h with
  | nil => rfl
  | @keep c w e h hcut ih =>
      rw [withoutEmptyGroups_append, ih, withoutEmptyGroups]
      · simp [withoutEmptyGroups]
      · rintro v - hv
        cases hv
      · rintro hlast hclosing
        exact hcut (Option.some_inj.1 hclosing) hlast
  | @group w e h hlast ih =>
      rw [hgroup ih]
      rcases List.eq_nil_or_concat' w with rfl | ⟨v, c, rfl⟩
      · rfl
      · have hc : isOperator c = false := hlast c (by simp)
        simp [dropOperator, hc]
  | @operand c w e h hc ih =>
      rw [hgroup ih]
      simp [dropOperator, hc]

/-- Removing the empty groups leads back to the text that they were put in. -/
theorem withoutEmptyGroups_eq_iff_emptyGroups :
    withoutEmptyGroups [] e = w ↔ EmptyGroups w e := by
  constructor
  · rintro rfl
    have hnil : EmptyGroups (List.reverse []) [] := .nil
    simpa using emptyGroups_withoutEmptyGroups (t := e) hnil (by simp)
  · exact withoutEmptyGroups_of_emptyGroups

end Groups

section Percents

theorem percentsAhead_movePercent (numeral : Bool) (e : Text) :
    PercentsAhead numeral (movePercent numeral e) e := by
  fun_induction movePercent numeral e with
  | case1 numeral c d rest hcd ih =>
      obtain ⟨rfl, rfl, hd⟩ := hcd
      exact .move hd ih
  | case2 numeral c d rest hcd ih =>
      refine .keep ?_ ih
      rintro rfl rfl d ⟨⟩
      exact Bool.eq_false_iff.2 fun hd => hcd ⟨rfl, rfl, hd⟩
  | case3 numeral t hne =>
      rcases t with _ | ⟨c, _ | ⟨d, rest⟩⟩
      · exact .nil numeral
      · exact .keep (by simp) (.nil _)
      · exact absurd rfl (hne c d rest)

theorem PercentsAhead.eq_nil {numeral : Bool} (h : PercentsAhead numeral w []) : w = [] := by
  cases h
  rfl

/-- Moving the percent signs leads back to the text in which they followed their numerals. -/
theorem movePercent_eq_iff {numeral : Bool} :
    movePercent numeral e = w ↔ PercentsAhead numeral w e := by
  constructor
  · rintro rfl
    exact percentsAhead_movePercent numeral e
  · intro h
    induction h with
    | nil numeral => rfl
    | @keep numeral c w e hc h ih =>
        cases e with
        | nil => rw [h.eq_nil]; rfl
        | cons d e =>
            have hkept : ¬(c = '%' ∧ numeral = false ∧ d.isDigit = true) := by
              rintro ⟨hpercent, hnumeral, hd⟩
              rw [hc hpercent hnumeral d rfl] at hd
              cases hd
            rw [movePercent, if_neg hkept, ih]
    | @move d w e hd h ih => rw [movePercent, if_pos ⟨rfl, rfl, hd⟩, ih]

end Percents

section Ends

variable {p : Char → Bool} {t : Text}

theorem dropWhile_append_of_head (ht : ∀ c ∈ t, p c = true)
    (hw : ∀ c ∈ w.head?, p c = false) : (t ++ w).dropWhile p = w := by
  rw [List.dropWhile_append_of_pos ht]
  cases w with
  | nil => rfl
  | cons c w => rw [List.dropWhile_cons_of_neg (by simpa using hw c rfl)]

theorem dropEndWhile_append_of_getLast? (ht : ∀ c ∈ t, p c = true)
    (hw : ∀ c ∈ w.getLast?, p c = false) : Text.dropEndWhile p (w ++ t) = w := by
  rw [Text.dropEndWhile, List.reverse_append, dropWhile_append_of_head (by simpa using ht)
    (by simpa using hw), List.reverse_reverse]

theorem isBlank_of_isDangling (h : isDangling c = true) : isBlank c = false := by
  rw [isDangling, Bool.or_eq_true, beq_iff_eq] at h
  rcases h with hoperator | rfl
  · obtain ⟨op, hop⟩ := Option.isSome_iff_exists.1 hoperator
    have hblank : ∀ d ∈ ['+', '-', '×', '*', '÷', '/'], (!isBlank d) = true :=
      List.all_eq_true.1 rfl
    simpa using hblank c (Operator.mem_of_ofChar? hop)
  · decide

theorem trim_of_dangling {front tail back : Text} (hfront : ∀ c ∈ front, isBlank c = true)
    (hback : ∀ c ∈ back, isBlank c = true) (htail : ∀ c ∈ tail, isDangling c = true)
    (hne : tail ≠ []) (hhead : ∀ c ∈ w.head?, isBlank c = false) :
    Text.trim (front ++ (w ++ tail) ++ back) = w ++ tail := by
  have hdangling : ∀ c ∈ tail, isBlank c = false := fun c hc => isBlank_of_isDangling (htail c hc)
  have hstart : ∀ c ∈ (w ++ tail ++ back).head?, isBlank c = false := by
    cases w with
    | nil =>
        intro c hc
        rw [List.nil_append, List.head?_append_of_ne_nil _ hne] at hc
        exact hdangling c (List.mem_of_mem_head? hc)
    | cons d w => exact hhead
  have hend : ∀ c ∈ (w ++ tail).getLast?, isBlank c = false := by
    intro c hc
    rw [List.getLast?_append_of_ne_nil w hne] at hc
    exact hdangling c (List.mem_of_mem_getLast? hc)
  rw [Text.trim, List.append_assoc, dropWhile_append_of_head hfront hstart,
    dropEndWhile_append_of_getLast? hback hend]

/-- What dangles is taken off, and with it the blanks around. -/
theorem trimEnd_of_dangles (h : Dangles w e) : trimEnd e = w.orZero := by
  obtain ⟨front, tail, back, rfl, hfront, hback, htail, hne, hhead, hlast⟩ := h
  have hkept : Text.dropEndWhile isDangling (w ++ tail) = w :=
    dropEndWhile_append_of_getLast? htail hlast
  have hshort : w ≠ w ++ tail := by simpa using hne
  rw [trimEnd, trim_of_dangling hfront hback htail hne hhead, hkept, if_neg hshort]

theorem dangles_of_trim (h : Text.dropEndWhile isDangling e.trim ≠ e.trim) :
    Dangles (Text.dropEndWhile isDangling e.trim) e := by
  have hstart := List.takeWhile_append_dropWhile (p := isBlank) (l := e)
  have hend : e.trim ++ _ = _ :=
    Text.dropEndWhile_append_takeEndWhile isBlank (e.dropWhile isBlank)
  have hkept := Text.dropEndWhile_append_takeEndWhile isDangling e.trim
  refine ⟨e.takeWhile isBlank, Text.takeEndWhile isDangling e.trim,
    Text.takeEndWhile isBlank (e.dropWhile isBlank), ?_, ?_, Text.of_mem_takeEndWhile,
    Text.of_mem_takeEndWhile, ?_, ?_, Text.getLast?_dropEndWhile isDangling _⟩
  · rw [hkept, List.append_assoc, hend, hstart]
  · exact List.all_eq_true.1 List.all_takeWhile
  · intro hnil
    rw [hnil, List.append_nil] at hkept
    exact h hkept
  · intro c hc
    have hblank := List.head?_dropWhile_not isBlank e
    rw [← hend, ← hkept, List.append_assoc, List.head?_append, Option.mem_def.1 hc] at hblank
    simpa using hblank

/-- Trimming leads back to the text without what dangles, if anything does. -/
theorem trimEnd_eq_iff (h : trimEnd e ≠ e) :
    trimEnd e = w ↔ ∃ v : Text, Dangles v e ∧ w = v.orZero := by
  constructor
  · rintro rfl
    have hkept : Text.dropEndWhile isDangling e.trim ≠ e.trim := fun heq =>
      h (by simp [trimEnd, heq])
    exact ⟨_, dangles_of_trim hkept, by rw [trimEnd, if_neg hkept]⟩
  · rintro ⟨v, hv, rfl⟩
    exact trimEnd_of_dangles hv

end Ends

theorem closeGroups_eq_iff (h : e.count ')' ≤ e.count '(') :
    closeGroups e = w ↔
      ∃ n : Nat, w = e ++ List.replicate n ')' ∧ e.count ')' + n = e.count '(' := by
  constructor
  · rintro rfl
    exact ⟨_, rfl, Nat.add_sub_cancel' h⟩
  · rintro ⟨n, rfl, hn⟩
    rw [closeGroups, ← hn, Nat.add_sub_cancel_left]

theorem Repair.apply_of_mended {repair : Repair} (he : e ≠ []) (h : repair.Mended e w) :
    repair.apply e = w := by
  cases repair with
  | mergeOperators => exact mergeOperators_eq_iff.2 h
  | removeEmptyGroups =>
      obtain ⟨v, hv, rfl⟩ := h
      change Calculator.removeEmptyGroups e = _
      rw [Calculator.removeEmptyGroups, if_neg he, withoutEmptyGroups_of_emptyGroups hv]
  | movePercent => exact movePercent_eq_iff.2 h
  | trimEnd =>
      obtain ⟨v, hv, rfl⟩ := h
      exact trimEnd_of_dangles hv
  | closeGroups =>
      obtain ⟨n, hw, hn⟩ := h
      exact (closeGroups_eq_iff (hn ▸ Nat.le_add_right _ n)).2 ⟨n, hw, hn⟩

theorem Repair.mended_apply {repair : Repair} (h : repair.apply e ≠ e) :
    repair.Mended e (repair.apply e) := by
  cases repair with
  | mergeOperators => exact mergeOperators_eq_iff.1 rfl
  | removeEmptyGroups =>
      have he : e ≠ [] := by
        rintro rfl
        exact h rfl
      change ∃ v : Text, EmptyGroups v e ∧ Calculator.removeEmptyGroups e = v.orZero
      rw [Calculator.removeEmptyGroups, if_neg he]
      exact ⟨_, withoutEmptyGroups_eq_iff_emptyGroups.1 rfl, rfl⟩
  | movePercent => exact movePercent_eq_iff.1 rfl
  | trimEnd => exact (trimEnd_eq_iff h).1 rfl
  | closeGroups =>
      refine (closeGroups_eq_iff (le_of_not_ge fun hle => h ?_)).1 rfl
      exact (closeGroups_eq_self_iff e).2 hle

/-- A repair leaves a text alone exactly if there is no slip in it that the repair is for. -/
theorem Repair.apply_eq_self_iff {repair : Repair} (he : e ≠ []) :
    repair.apply e = e ↔ ∀ w : Text, repair.Mended e w → w = e := by
  constructor
  · intro h w hw
    rw [← apply_of_mended he hw, h]
  · intro h
    by_contra hne
    exact hne (h _ (mended_apply hne))

/-- A suggestion is the text without the slips that its repair is for, which is the first one that
finds any. -/
theorem suggest_eq_some_iff_mended {s : Suggestion} (he : e ≠ []) :
    suggest e = some s ↔
      s.repair.Mended e s.fix ∧ s.fix ≠ e ∧
        ∃ before after : List Repair, Repair.all = before ++ s.repair :: after ∧
          ∀ repair ∈ before, ∀ w : Text, Repair.Mended repair e w → w = e := by
  simp only [suggest_eq_some_iff, ← Repair.apply_eq_self_iff he]
  constructor
  · rintro ⟨hfix, hne, hfirst⟩
    rw [← hfix] at hne ⊢
    exact ⟨Repair.mended_apply hne, hne, hfirst⟩
  · rintro ⟨hmended, hne, hfirst⟩
    exact ⟨Repair.apply_of_mended he hmended, hne, hfirst⟩

end Calculator
