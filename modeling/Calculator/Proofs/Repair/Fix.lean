import Calculator.Proofs.Decimal.BareNumber
import Calculator.Repair
import Calculator.Zone

/-!
# What a repair leaves

No repair empties a text (`fix_ne_nil_of_suggest`): what would be left with
nothing becomes `0`. And none finds anything to do on a bare number, where no
operator, parenthesis or percent sign stands but the minus sign in front
(`suggest_of_isBareNumber`).
-/

namespace Calculator

open Buffer (isBareNumber)

theorem mergeOperators_ne_nil {t : Text} (h : t ≠ []) : mergeOperators t ≠ [] := by
  fun_induction mergeOperators t with
  | case1 c d rest hcd ih => exact ih (List.cons_ne_nil d rest)
  | case2 c d rest hcd ih => exact List.cons_ne_nil c _
  | case3 t hne => exact h

theorem movePercent_ne_nil {numeral : Bool} {t : Text} (h : t ≠ []) :
    movePercent numeral t ≠ [] := by
  fun_cases movePercent numeral t with
  | case1 c d rest hcd => exact List.cons_ne_nil d _
  | case2 c d rest hcd => exact List.cons_ne_nil c _
  | case3 t hne => exact h

theorem Repair.apply_ne_nil (repair : Repair) {t : Text} (h : t ≠ []) :
    repair.apply t ≠ [] := by
  cases repair with
  | mergeOperators => exact mergeOperators_ne_nil h
  | removeEmptyGroups =>
      change (if t = [] then [] else _) ≠ []
      rw [if_neg h]
      exact Text.orZero_ne_nil _
  | movePercent => exact movePercent_ne_nil h
  | trimEnd =>
      change (if Text.dropEndWhile isDangling t.trim = t.trim then t else _) ≠ []
      split
      · exact h
      · exact Text.orZero_ne_nil _
  | closeGroups => exact List.append_ne_nil_of_left_ne_nil h _

theorem ne_nil_of_suggest {t : Text} {s : Suggestion} (h : suggest t = some s) : t ≠ [] := by
  rintro rfl
  cases h

/-- A suggestion is never empty. -/
theorem fix_ne_nil_of_suggest {t : Text} {s : Suggestion} (h : suggest t = some s) :
    s.fix ≠ [] := by
  rw [← (apply_of_suggest h).1]
  exact s.repair.apply_ne_nil (ne_nil_of_suggest h)

theorem mergeOperators_of_tail {t : Text} (h : ∀ c ∈ t.tail, isOperator c = false) :
    mergeOperators t = t := by
  fun_induction mergeOperators t with
  | case1 c d rest hcd ih =>
      have hd : isOperator d = false := h d (by simp)
      rw [hcd.1, hd] at hcd
      exact absurd hcd.2 (by decide)
  | case2 c d rest hcd ih =>
      rw [ih fun x hx => h x (List.mem_cons_of_mem d hx)]
  | case3 t hne => rfl

theorem withoutEmptyGroups_of_not_mem {kept t : Text} (h : '(' ∉ t) :
    withoutEmptyGroups kept t = kept.reverse ++ t := by
  fun_induction withoutEmptyGroups kept t with
  | case1 kept rest ih => exact absurd (List.mem_cons_self ..) h
  | case2 kept c rest hne ih =>
      rw [ih fun hmem => h (List.mem_cons_of_mem c hmem), List.reverse_cons, List.append_assoc,
        List.singleton_append]
  | case3 kept => rw [List.append_nil]

theorem movePercent_of_not_mem {numeral : Bool} {t : Text} (h : '%' ∉ t) :
    movePercent numeral t = t := by
  fun_induction movePercent numeral t with
  | case1 numeral c d rest hcd ih =>
      rw [hcd.1] at h
      exact absurd (List.mem_cons_self ..) h
  | case2 numeral c d rest hcd ih => rw [ih fun hmem => h (List.mem_cons_of_mem c hmem)]
  | case3 numeral t hne => rfl

theorem isBlank_of_isNumeric {c : Char} (h : isNumeric c = true) : isBlank c = false := by
  have hrange : 46 ≤ c.toNat ∧ c.toNat ≤ 57 := by
    rcases Bool.or_eq_true_iff.1 h with hdigit | hpoint
    · obtain ⟨hlo, hhi⟩ := Bool.and_eq_true_iff.1 hdigit
      have hlo : 48 ≤ c.toNat := UInt32.le_iff_toNat_le.1 (of_decide_eq_true hlo)
      have hhi : c.toNat ≤ 57 := UInt32.le_iff_toNat_le.1 (of_decide_eq_true hhi)
      exact ⟨by omega, hhi⟩
    · rw [eq_of_beq hpoint]
      decide
  simp only [isBlank, Bool.or_eq_false_iff, Bool.and_eq_false_iff, decide_eq_false_iff_not,
    beq_eq_false_iff_ne]
  omega

/-- A text without blanks that ends with a digit has nothing dangling. -/
theorem trimEnd_of_digit {rest : Text} {c : Char} (hblank : ∀ d ∈ rest ++ [c], isBlank d = false)
    (hc : c.isDigit = true) : trimEnd (rest ++ [c]) = rest ++ [c] := by
  have hstart : (rest ++ [c]).dropWhile isBlank = rest ++ [c] := by
    cases rest with
    | nil => rw [List.nil_append, List.dropWhile_cons_of_neg (by simpa using hblank c)]
    | cons d rest =>
        have hd : isBlank d = false := hblank d (by simp)
        rw [List.cons_append, List.dropWhile_cons_of_neg (by simp [hd])]
  have hend : isBlank c = false := hblank c (by simp)
  have htrim : Text.trim (rest ++ [c]) = rest ++ [c] := by
    rw [Text.trim, hstart, Text.dropEndWhile_append_singleton, hend]
    rfl
  have hdangling : isDangling c = false := by
    have hpercent : c ≠ '%' := by
      rintro rfl
      exact absurd hc (by decide)
    rw [isDangling, isOperator_of_isNumeric (isNumeric_of_isDigit hc), beq_false_of_ne hpercent]
    rfl
  rw [trimEnd, htrim, Text.dropEndWhile_append_singleton, hdangling]
  simp

theorem closeGroups_of_not_mem {t : Text} (h : '(' ∉ t) : closeGroups t = t := by
  rw [closeGroups, List.count_eq_zero.2 h, Nat.zero_sub, List.replicate_zero, List.append_nil]

theorem first?_emptyGroupWidth_of_not_mem {t : Text} (h : '(' ∉ t) (previous : Option Char) :
    Zone.first? emptyGroupWidth previous t = none := by
  induction t generalizing previous with
  | nil => rfl
  | cons c t ih =>
      have hc : c ≠ '(' := fun heq => h (heq ▸ List.mem_cons_self ..)
      have hwidth : emptyGroupWidth previous (c :: t) = 0 := by
        unfold emptyGroupWidth
        split
        · next heq => cases heq; exact absurd rfl hc
        · rfl
      rw [Zone.first?, hwidth]
      simp [ih (fun hmem => h (List.mem_cons_of_mem c hmem))]

/-- No repair finds anything to do on a bare number. -/
theorem suggest_of_isBareNumber {t : Text} (h : isBareNumber t = true) : suggest t = none := by
  have hopening : '(' ∉ t := not_mem_of_isBareNumber h (by decide) (by decide)
  refine (suggest_eq_none_iff t).2 fun repair => ?_
  obtain ⟨n, hn, ht⟩ := exists_of_isBareNumber h
  cases repair with
  | mergeOperators =>
      refine mergeOperators_of_tail fun c hc => ?_
      have hnumeric : isNumeric c = true := by
        rcases ht with rfl | rfl
        · exact hn.isNumeric c (List.mem_of_mem_tail hc)
        · exact hn.isNumeric c hc
      exact isOperator_of_isNumeric hnumeric
  | removeEmptyGroups =>
      change (if t = [] then [] else _) = t
      split
      · next hnil => exact hnil.symm
      · next hne =>
          rw [withoutEmptyGroups_of_not_mem hopening, List.reverse_nil, List.nil_append,
            Text.orZero_of_ne_nil hne]
  | movePercent =>
      exact movePercent_of_not_mem (not_mem_of_isBareNumber h (by decide) (by decide))
  | trimEnd =>
      obtain ⟨rest, c, hend, hc⟩ := exists_append_of_isBareNumber h
      change trimEnd t = t
      rw [hend]
      refine trimEnd_of_digit (fun d hd => ?_) hc
      rw [← hend] at hd
      rcases mem_of_isBareNumber h hd with hnumeric | rfl
      · exact isBlank_of_isNumeric hnumeric
      · decide
  | closeGroups => exact closeGroups_of_not_mem hopening

/-- A bare number that is too large has no zone to show. -/
theorem report_of_isBareNumber {t : Text} (h : isBareNumber t = true) :
    Report.on t .malformed = ⟨.malformed, Fault.malformed.message, none⟩ := by
  have hopening : '(' ∉ t := not_mem_of_isBareNumber h (by decide) (by decide)
  rw [Report.on, locate, first?_emptyGroupWidth_of_not_mem hopening]
  rfl

end Calculator
