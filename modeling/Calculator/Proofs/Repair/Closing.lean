import Calculator.Proofs.Repair.Settled

/-!
# Closing the groups

Only one repair makes a text longer (`length_apply_le`). It is the last one, so that
the others had nothing to do when it is suggested (`apply_eq_self_of_closeGroups`), and
the text did not end with anything that dangles (`getLast?_ne_of_trimEnd_eq_self`).
-/

namespace Calculator

theorem length_orZero_le {t : Text} {n : Nat} (h : t.length ≤ n) (hn : 0 < n) :
    t.orZero.length ≤ n := by
  unfold Text.orZero
  split
  · exact hn
  · exact h

/-- No other repair makes a text longer. -/
theorem length_apply_le {repair : Repair} (hrepair : repair ≠ .closeGroups) {t : Text}
    (ht : t ≠ []) : (repair.apply t).length ≤ t.length := by
  have hpos : 0 < t.length := List.length_pos_of_ne_nil ht
  cases repair with
  | mergeOperators => exact length_mergeOperators_le t
  | removeEmptyGroups =>
      have hle : (withoutEmptyGroups [] t).length ≤ t.length := by
        simpa using length_withoutEmptyGroups_le [] t
      change (removeEmptyGroups t).length ≤ t.length
      rw [removeEmptyGroups, if_neg ht]
      exact length_orZero_le hle hpos
  | movePercent => exact (length_movePercent false t).le
  | trimEnd =>
      have hle := (dropEndWhile_isPrefix isDangling t.trim).length_le.trans (length_trim_le t)
      change (trimEnd t).length ≤ t.length
      simp only [trimEnd]
      split
      · exact Nat.le_refl _
      · exact length_orZero_le hle hpos
  | closeGroups => exact absurd rfl hrepair

/-- A suggestion that goes on with the text closes its groups. -/
theorem repair_of_fix_eq_append {t w : Text} {s : Suggestion} (h : suggest t = some s)
    (hfix : s.fix = t ++ w) : s.repair = .closeGroups := by
  obtain ⟨happly, hne⟩ := apply_of_suggest h
  by_contra hrepair
  have hle := length_apply_le hrepair (ne_nil_of_suggest h)
  rw [happly, hfix, List.length_append] at hle
  have hw : w = [] := List.eq_nil_of_length_eq_zero (by omega)
  rw [hfix, hw, List.append_nil] at hne
  exact hne rfl

/-- Where the closing of groups is suggested no other repair has anything to do. -/
theorem apply_eq_self_of_closeGroups {t : Text} {s : Suggestion} (h : suggest t = some s)
    (hs : s.repair = .closeGroups) {repair : Repair} (hrepair : repair ≠ .closeGroups) :
    repair.apply t = t := by
  obtain ⟨-, -, before, after, hall, hbefore⟩ := suggest_eq_some_iff.1 h
  rw [hs] at hall
  have hcut : [.mergeOperators, .removeEmptyGroups, .movePercent, .trimEnd] = before := by
    have hsplit : [.mergeOperators, .removeEmptyGroups, .movePercent, .trimEnd] ++
        [Repair.closeGroups] = before ++ .closeGroups :: after := hall
    exact ((List.append_cons_inj_of_notMem (by decide) (by decide)).1 hsplit).1
  refine hbefore repair ?_
  rw [← hcut]
  cases repair with
  | closeGroups => exact absurd rfl hrepair
  | _ => decide

/-- A text whose end needs no trimming does not end with what would be taken away. -/
theorem getLast?_ne_of_trimEnd_eq_self {t : Text} (h : trimEnd t = t) {c : Char}
    (hdangling : isDangling c = true) (hblank : isBlank c = false) : t.getLast? ≠ some c := by
  intro hlast
  obtain ⟨u, rfl⟩ := List.getLast?_eq_some_iff.1 hlast
  have hstart : (u ++ [c]).dropWhile isBlank = u.dropWhile isBlank ++ [c] := by
    rw [List.dropWhile_append]
    split
    · next hnil => rw [List.isEmpty_iff.1 hnil, List.dropWhile_cons_of_neg (by simp [hblank])]; rfl
    · rfl
  have htrim : Text.trim (u ++ [c]) = u.dropWhile isBlank ++ [c] := by
    rw [Text.trim, hstart, Text.dropEndWhile_append_singleton, hblank]
    rfl
  have hkept := (trimEnd_eq_self_iff _).1 h c (by rw [htrim, List.getLast?_concat]; rfl)
  rw [hdangling] at hkept
  cases hkept

end Calculator
