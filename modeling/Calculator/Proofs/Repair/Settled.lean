import Mathlib.Data.List.Chain
import Calculator.Proofs.Repair.Fix

/-!
# Texts that no repair changes

For each repair the texts that it leaves alone are told by what stands next to what
in them; together these are the settled texts (`Settled`), and they are exactly
those for which nothing is suggested (`suggest_eq_none_iff_settled`). A repair that
finds its pattern changes the text because it makes it shorter or longer, or puts a
digit in the place of a percent sign.
-/

namespace Calculator

/-- No repair has anything to do in the text. -/
structure Settled (t : Text) : Prop where
  /-- No operator is written twice in a row. -/
  operators : t.IsChain fun c d => isOperator c = true → c ≠ d
  /-- No group is empty. -/
  groups : ¬['(', ')'] <:+: t
  /-- A percent sign with a digit behind it has a numeral before it. -/
  percents : ∀ (u v : Text) (d : Char), t = u ++ '%' :: d :: v → d.isDigit = true →
    ∃ c ∈ u.getLast?, isNumeric c = true
  /-- Nothing dangles at the end, blanks aside. -/
  ending : ∀ c ∈ t.trim.getLast?, isOperator c = false ∧ c ≠ '%'
  /-- Every group that is opened is closed, as far as counting can tell. -/
  closed : t.count '(' ≤ t.count ')'

theorem length_mergeOperators_le (t : Text) : (mergeOperators t).length ≤ t.length := by
  fun_induction mergeOperators t with
  | case1 c d rest hcd ih => exact Nat.le_succ_of_le ih
  | case2 c d rest hcd ih => exact Nat.succ_le_succ ih
  | case3 t hne => exact Nat.le_refl _

theorem head?_mergeOperators (t : Text) : (mergeOperators t).head? = t.head? := by
  fun_induction mergeOperators t with
  | case1 c d rest hcd ih => rw [ih, hcd.1, List.head?_cons, List.head?_cons]
  | case2 c d rest hcd ih => rfl
  | case3 t hne => rfl

theorem mergeOperators_eq_self_iff (t : Text) :
    mergeOperators t = t ↔ t.IsChain fun c d => isOperator c = true → c ≠ d := by
  fun_induction mergeOperators t with
  | case1 c d rest hcd ih =>
      obtain ⟨rfl, hc⟩ := hcd
      constructor
      · intro h
        have hle := length_mergeOperators_le (c :: rest)
        rw [h] at hle
        exact absurd hle (by simp)
      · intro h
        exact absurd rfl ((List.isChain_cons_cons.1 h).1 hc)
  | case2 c d rest hcd ih =>
      have hne : isOperator c = true → c ≠ d := fun hc heq => hcd ⟨heq, hc⟩
      rw [List.cons.injEq, ih, List.isChain_cons_cons]
      exact ⟨fun h => ⟨hne, h.2⟩, fun h => ⟨rfl, h.2⟩⟩
  | case3 t hne =>
      refine iff_of_true rfl ?_
      rcases t with _ | ⟨c, _ | ⟨d, rest⟩⟩
      · exact .nil
      · exact .singleton c
      · exact absurd rfl (hne c d rest)

theorem dropOperator_sublist (kept : Text) : (dropOperator kept).Sublist kept := by
  cases kept with
  | nil => exact .refl []
  | cons c kept =>
      rw [dropOperator]
      split
      · exact List.sublist_cons_self c kept
      · exact .refl _

/-- Nothing is written anew when empty groups go. -/
theorem withoutEmptyGroups_sublist (kept t : Text) :
    (withoutEmptyGroups kept t).Sublist (kept.reverse ++ t) := by
  fun_induction withoutEmptyGroups kept t with
  | case1 kept rest ih =>
      have hrest : rest.Sublist ('(' :: ')' :: rest) := List.sublist_append_right ['(', ')'] rest
      exact ih.trans ((dropOperator_sublist kept).reverse.append hrest)
  | case2 kept c rest hne ih => simpa using ih
  | case3 kept => simp

theorem length_withoutEmptyGroups_le (kept t : Text) :
    (withoutEmptyGroups kept t).length ≤ kept.length + t.length := by
  simpa using (withoutEmptyGroups_sublist kept t).length_le

theorem withoutEmptyGroups_eq_iff (kept t : Text) :
    withoutEmptyGroups kept t = kept.reverse ++ t ↔ ¬['(', ')'] <:+: t := by
  fun_induction withoutEmptyGroups kept t with
  | case1 kept rest ih =>
      refine iff_of_false (fun h => ?_) (not_not_intro ⟨[], rest, rfl⟩)
      have hle := length_withoutEmptyGroups_le (dropOperator kept) rest
      have hkept := (dropOperator_sublist kept).length_le
      rw [h] at hle
      simp only [List.length_append, List.length_reverse, List.length_cons] at hle
      omega
  | case2 kept c rest hne ih =>
      rw [List.reverse_cons, List.append_assoc, List.singleton_append] at ih
      rw [ih, List.infix_cons_iff, not_or]
      refine ⟨fun h => ⟨?_, h⟩, And.right⟩
      rintro ⟨v, hv⟩
      rw [List.cons_append, List.cons_append, List.nil_append] at hv
      obtain ⟨rfl, rfl⟩ := List.cons.inj hv
      exact hne v rfl rfl
  | case3 kept => simp

theorem removeEmptyGroups_eq_self_iff (t : Text) :
    removeEmptyGroups t = t ↔ ¬['(', ')'] <:+: t := by
  rw [← withoutEmptyGroups_eq_iff [] t, List.reverse_nil, List.nil_append, removeEmptyGroups]
  split
  · next hnil => rw [hnil]; exact iff_of_true rfl rfl
  · next hne =>
      by_cases hempty : withoutEmptyGroups [] t = []
      · -- a lone `0` has no empty group, so it is not what the text was
        rw [hempty, Text.orZero, if_pos rfl]
        refine iff_of_false (fun h => ?_) (Ne.symm hne)
        rw [← h] at hempty
        cases hempty
      · rw [Text.orZero_of_ne_nil hempty]

/-- A percent sign with a digit behind it has a numeral before it; at the start of
the text the flag says whether there is one. -/
def PercentsPlaced (numeral : Bool) (t : Text) : Prop :=
  ∀ (u v : Text) (d : Char), t = u ++ '%' :: d :: v → d.isDigit = true →
    u = [] ∧ numeral = true ∨ ∃ c ∈ u.getLast?, isNumeric c = true

theorem percentsPlaced_cons_cons {numeral : Bool} {c d : Char} {rest : Text} :
    PercentsPlaced numeral (c :: d :: rest) ↔
      ¬(c = '%' ∧ numeral = false ∧ d.isDigit = true) ∧
        PercentsPlaced (isNumeric c) (d :: rest) := by
  constructor
  · refine fun h => ⟨?_, fun u v x heq hx => ?_⟩
    · rintro ⟨rfl, hnumeral, hd⟩
      rcases h [] rest d rfl hd with ⟨-, htrue⟩ | ⟨x, hx, -⟩
      · rw [hnumeral] at htrue
        cases htrue
      · cases hx
    · rcases h (c :: u) v x (by rw [heq, List.cons_append]) hx with ⟨hnil, -⟩ | ⟨y, hy, hnumeric⟩
      · cases hnil
      · cases u with
        | nil =>
            obtain rfl : c = y := by simpa using hy
            exact Or.inl ⟨rfl, hnumeric⟩
        | cons z u => exact Or.inr ⟨y, by simpa using hy, hnumeric⟩
  · rintro ⟨hhead, hrest⟩ u v x heq hx
    cases u with
    | nil =>
        rw [List.nil_append] at heq
        cases heq
        cases numeral with
        | true => exact Or.inl ⟨rfl, rfl⟩
        | false => exact absurd ⟨rfl, rfl, hx⟩ hhead
    | cons y u =>
        rw [List.cons_append] at heq
        obtain ⟨rfl, htail⟩ := List.cons.inj heq
        right
        rcases hrest u v x htail hx with ⟨rfl, hnumeric⟩ | ⟨z, hz, hnumeric⟩
        · exact ⟨c, rfl, hnumeric⟩
        · cases u with
          | nil => cases hz
          | cons w u => exact ⟨z, by simpa using hz, hnumeric⟩

theorem length_movePercent (numeral : Bool) (t : Text) :
    (movePercent numeral t).length = t.length := by
  fun_induction movePercent numeral t with
  | case1 numeral c d rest hcd ih => exact congrArg (· + 2) ih
  | case2 numeral c d rest hcd ih => exact congrArg (· + 1) ih
  | case3 numeral t hne => rfl

theorem movePercent_eq_self_iff (numeral : Bool) (t : Text) :
    movePercent numeral t = t ↔ PercentsPlaced numeral t := by
  fun_induction movePercent numeral t with
  | case1 numeral c d rest hcd ih =>
      rw [percentsPlaced_cons_cons]
      refine iff_of_false (fun h => ?_) fun h => h.1 hcd
      have hd : d = c := (List.cons.inj h).1
      rw [hd, hcd.1] at hcd
      exact absurd hcd.2.2 (by decide)
  | case2 numeral c d rest hcd ih =>
      rw [percentsPlaced_cons_cons, List.cons.injEq, ih]
      exact ⟨fun h => ⟨hcd, h.2⟩, fun h => ⟨rfl, h.2⟩⟩
  | case3 numeral t hne =>
      refine iff_of_true rfl fun u v d heq _ => ?_
      cases u with
      | nil => exact absurd heq (hne _ _ _)
      | cons x u => cases u <;> exact absurd heq (hne _ _ _)

theorem dropEndWhile_isPrefix (p : Char → Bool) (t : Text) : Text.dropEndWhile p t <+: t :=
  ⟨Text.takeEndWhile p t, Text.dropEndWhile_append_takeEndWhile p t⟩

theorem dropEndWhile_eq_self_iff (p : Char → Bool) (t : Text) :
    Text.dropEndWhile p t = t ↔ ∀ c ∈ t.getLast?, p c = false := by
  rcases List.eq_nil_or_concat' t with rfl | ⟨s, c, rfl⟩
  · simp
  · rw [Text.dropEndWhile_append_singleton, List.getLast?_concat]
    cases hc : p c with
    | false => simp [hc]
    | true =>
        refine iff_of_false (fun h => ?_) (by simp [hc])
        have hle := (dropEndWhile_isPrefix p s).length_le
        rw [if_pos rfl] at h
        rw [h] at hle
        exact absurd hle (by simp)

theorem length_trim_le (t : Text) : t.trim.length ≤ t.length :=
  (dropEndWhile_isPrefix isBlank _).length_le.trans (List.dropWhile_suffix isBlank).length_le

theorem trimEnd_eq_self_iff (t : Text) :
    trimEnd t = t ↔ ∀ c ∈ t.trim.getLast?, isDangling c = false := by
  rw [← dropEndWhile_eq_self_iff, trimEnd]
  by_cases hkept : Text.dropEndWhile isDangling t.trim = t.trim
  · simp [hkept]
  · refine iff_of_false (fun h => ?_) hkept
    rw [if_neg hkept] at h
    by_cases hnil : Text.dropEndWhile isDangling t.trim = []
    · -- all of the text dangled, but the `0` that is left of it does not
      rw [hnil, Text.orZero, if_pos rfl] at h
      rw [← h] at hkept
      exact hkept rfl
    · rw [Text.orZero_of_ne_nil hnil] at h
      refine hkept ((dropEndWhile_isPrefix isDangling t.trim).eq_of_length_le ?_)
      rw [h]
      exact length_trim_le t

theorem closeGroups_eq_self_iff (t : Text) :
    closeGroups t = t ↔ t.count '(' ≤ t.count ')' := by
  rw [closeGroups, List.append_right_eq_self, List.replicate_eq_nil_iff, Nat.sub_eq_zero_iff_le]

theorem isDangling_eq_false_iff {c : Char} :
    isDangling c = false ↔ isOperator c = false ∧ c ≠ '%' := by
  rw [isDangling, Bool.or_eq_false_iff, beq_eq_false_iff_ne]

/-- Nothing is suggested exactly for the settled texts. -/
theorem suggest_eq_none_iff_settled (t : Text) : suggest t = none ↔ Settled t := by
  have hpercents : PercentsPlaced false t ↔ ∀ (u v : Text) (d : Char),
      t = u ++ '%' :: d :: v → d.isDigit = true → ∃ c ∈ u.getLast?, isNumeric c = true := by
    simp [PercentsPlaced]
  have hending : (∀ c ∈ t.trim.getLast?, isDangling c = false) ↔
      ∀ c ∈ t.trim.getLast?, isOperator c = false ∧ c ≠ '%' :=
    forall₂_congr fun _ _ => isDangling_eq_false_iff
  rw [suggest_eq_none_iff]
  constructor
  · intro h
    exact
      { operators := (mergeOperators_eq_self_iff t).1 (h .mergeOperators)
        groups := (removeEmptyGroups_eq_self_iff t).1 (h .removeEmptyGroups)
        percents := hpercents.1 ((movePercent_eq_self_iff false t).1 (h .movePercent))
        ending := hending.1 ((trimEnd_eq_self_iff t).1 (h .trimEnd))
        closed := (closeGroups_eq_self_iff t).1 (h .closeGroups) }
  · intro h repair
    cases repair with
    | mergeOperators => exact (mergeOperators_eq_self_iff t).2 h.operators
    | removeEmptyGroups => exact (removeEmptyGroups_eq_self_iff t).2 h.groups
    | movePercent => exact (movePercent_eq_self_iff false t).2 (hpercents.2 h.percents)
    | trimEnd => exact (trimEnd_eq_self_iff t).2 (hending.2 h.ending)
    | closeGroups => exact (closeGroups_eq_self_iff t).2 h.closed

end Calculator
