import Mathlib.Logic.Relation
import Calculator.Proofs.Repair.Settled

/-!
# Repairs, step by step

A repair goes over the whole text at once. Here it is taken apart into steps that
change the text in one place each (`Mends`), so that what every step does to a text
is said of every suggestion too. The bridge is `transGen_mends_of_suggest`: a
suggestion is reached in one step or more, except that `0` is written where the
steps leave nothing.
-/

namespace Calculator

open Relation (ReflTransGen TransGen)

/-- One place of a text is mended. -/
inductive Mends : Text → Text → Prop
  | repeated (u v : Text) {c : Char} :
      isOperator c = true → Mends (u ++ c :: c :: v) (u ++ c :: v)
  | group (u v : Text) : Mends (u ++ '(' :: ')' :: v) (u ++ v)
  | operand (u v : Text) {c : Char} :
      isOperator c = true → Mends (u ++ c :: '(' :: ')' :: v) (u ++ v)
  | percent (u v : Text) {d : Char} :
      d.isDigit = true → (∀ c ∈ u.getLast?, isNumeric c = false) →
        Mends (u ++ '%' :: d :: v) (u ++ d :: '%' :: v)
  | start (v : Text) {c : Char} : isBlank c = true → Mends (c :: v) v
  | ending (u : Text) {c : Char} :
      isBlank c = true ∨ isDangling c = true → Mends (u ++ [c]) u
  | close {t : Text} : t.count ')' < t.count '(' → Mends t (t ++ [')'])

/-- The characters that are taken away by themselves belong to no numeral and no
group. -/
def IsPlain (c : Char) : Prop :=
  isNumeric c = false ∧ c ≠ '(' ∧ c ≠ ')'

theorem isPlain_of_class {p : Char → Bool} (hnumeric : ∀ c : Char, isNumeric c = true → p c = false)
    (hopening : p '(' = false) (hclosing : p ')' = false) {c : Char} (h : p c = true) :
    IsPlain c := by
  have hne : ∀ d : Char, p d = false → c ≠ d := by
    rintro d hd rfl
    rw [h] at hd
    cases hd
  refine ⟨?_, hne '(' hopening, hne ')' hclosing⟩
  cases hc : isNumeric c with
  | false => rfl
  | true =>
      rw [hnumeric c hc] at h
      cases h

theorem isPlain_of_isOperator {c : Char} (h : isOperator c = true) : IsPlain c :=
  isPlain_of_class (fun _ => isOperator_of_isNumeric) rfl rfl h

theorem isPlain_of_isBlank {c : Char} (h : isBlank c = true) : IsPlain c :=
  isPlain_of_class (fun _ => isBlank_of_isNumeric) rfl rfl h

theorem isPlain_of_ending {c : Char} (h : isBlank c = true ∨ isDangling c = true) :
    IsPlain c := by
  rcases h with h | h
  · exact isPlain_of_isBlank h
  · rw [isDangling, Bool.or_eq_true] at h
    rcases h with h | h
    · exact isPlain_of_isOperator h
    · rw [eq_of_beq h]
      exact ⟨rfl, by decide, by decide⟩

theorem mends_mergeOperators (u t : Text) :
    ReflTransGen Mends (u ++ t) (u ++ mergeOperators t) := by
  fun_induction mergeOperators t generalizing u with
  | case1 c d rest hcd ih =>
      obtain ⟨rfl, hc⟩ := hcd
      exact .head (.repeated u rest hc) (ih u)
  | case2 c d rest hcd ih => simpa using ih (u ++ [c])
  | case3 t hne => exact .refl

theorem mends_dropOperator (kept rest : Text) :
    Mends (kept.reverse ++ '(' :: ')' :: rest) ((dropOperator kept).reverse ++ rest) := by
  cases kept with
  | nil => exact .group [] rest
  | cons c kept =>
      cases hc : isOperator c with
      | true => simpa [dropOperator, hc] using Mends.operand kept.reverse rest hc
      | false => simpa [dropOperator, hc] using Mends.group (c :: kept).reverse rest

theorem mends_withoutEmptyGroups (kept t : Text) :
    ReflTransGen Mends (kept.reverse ++ t) (withoutEmptyGroups kept t) := by
  fun_induction withoutEmptyGroups kept t with
  | case1 kept rest ih => exact .head (mends_dropOperator kept rest) ih
  | case2 kept c rest hne ih => simpa using ih
  | case3 kept => rw [List.append_nil]

/-- A percent sign that has been moved over a digit counts as part of its numeral
and is not moved on; so the flag may hold where the character before is a percent
sign. -/
theorem mends_movePercent {numeral : Bool} {u : Text}
    (h : numeral = false → ∀ c ∈ u.getLast?, isNumeric c = false) (t : Text) :
    ReflTransGen Mends (u ++ t) (u ++ movePercent numeral t) := by
  fun_induction movePercent numeral t generalizing u with
  | case1 numeral c d rest hcd ih =>
      obtain ⟨rfl, hnumeral, hd⟩ := hcd
      have hrest := ih (u := u ++ [d, '%']) fun heq => by cases heq
      refine .head (.percent u rest hd (h hnumeral)) ?_
      simpa using hrest
  | case2 numeral c d rest hcd ih =>
      have hlast : isNumeric c = false → ∀ x ∈ (u ++ [c]).getLast?, isNumeric x = false := by
        rw [List.getLast?_concat]
        rintro hc x ⟨⟩
        exact hc
      simpa using ih hlast
  | case3 numeral t hne => exact .refl

theorem mends_dropWhile (t : Text) : ReflTransGen Mends t (t.dropWhile isBlank) := by
  induction t with
  | nil => exact .refl
  | cons c t ih =>
      cases hc : isBlank c with
      | true =>
          rw [List.dropWhile_cons_of_pos hc]
          exact .head (.start t hc) ih
      | false =>
          rw [List.dropWhile_cons_of_neg (by simp [hc])]

theorem mends_dropEndWhile {p : Char → Bool}
    (hp : ∀ c : Char, p c = true → isBlank c = true ∨ isDangling c = true) (t : Text) :
    ReflTransGen Mends t (Text.dropEndWhile p t) := by
  induction t using List.reverseRecOn with
  | nil => exact .refl
  | append_singleton t c ih =>
      rw [Text.dropEndWhile_append_singleton]
      cases hc : p c with
      | true => exact .head (.ending t (hp c hc)) ih
      | false => exact .refl

theorem mends_replicate {t : Text} {n : Nat} (hn : n ≤ t.count '(' - t.count ')') :
    ReflTransGen Mends t (t ++ List.replicate n ')') := by
  induction n with
  | zero => rw [List.replicate_zero, List.append_nil]
  | succ n ih =>
      rw [List.replicate_succ', ← List.append_assoc]
      refine .tail (ih (by omega)) (.close ?_)
      simp only [List.count_append, List.count_replicate_self]
      rw [List.count_replicate, if_neg (by decide)]
      omega

/-- A repair takes the steps, and writes `0` if nothing is left. -/
theorem mends_apply (repair : Repair) {t : Text} (ht : t ≠ []) :
    ∃ w : Text, repair.apply t = w.orZero ∧ ReflTransGen Mends t w := by
  have hkept : repair.apply t = (repair.apply t).orZero :=
    (Text.orZero_of_ne_nil (repair.apply_ne_nil ht)).symm
  cases repair with
  | mergeOperators => exact ⟨_, hkept, mends_mergeOperators [] t⟩
  | removeEmptyGroups =>
      refine ⟨withoutEmptyGroups [] t, ?_, mends_withoutEmptyGroups [] t⟩
      exact if_neg ht
  | movePercent => exact ⟨_, hkept, mends_movePercent (u := []) (by simp) t⟩
  | trimEnd =>
      have htrim : ReflTransGen Mends t t.trim :=
        (mends_dropWhile t).trans (mends_dropEndWhile (fun _ => Or.inl) _)
      by_cases heq : Text.dropEndWhile isDangling t.trim = t.trim
      · refine ⟨t, ?_, .refl⟩
        rw [Text.orZero_of_ne_nil ht]
        exact if_pos heq
      · refine ⟨Text.dropEndWhile isDangling t.trim, if_neg heq, ?_⟩
        exact htrim.trans (mends_dropEndWhile (fun _ => Or.inr) _)
  | closeGroups => exact ⟨_, hkept, mends_replicate le_rfl⟩

/-- A suggestion is reached in one step or more. -/
theorem transGen_mends_of_suggest {t : Text} {s : Suggestion} (h : suggest t = some s) :
    ∃ w : Text, s.fix = w.orZero ∧ TransGen Mends t w := by
  have ht := ne_nil_of_suggest h
  obtain ⟨hfix, hne⟩ := apply_of_suggest h
  obtain ⟨w, hw, hmends⟩ := mends_apply s.repair ht
  rw [hfix] at hw
  refine ⟨w, hw, (Relation.reflTransGen_iff_eq_or_transGen.1 hmends).resolve_left ?_⟩
  rintro rfl
  exact hne (hw.trans (Text.orZero_of_ne_nil ht))

/-- What every step keeps is kept by a suggestion. -/
theorem invariant_of_suggest {P : Text → Prop} (hzero : P Text.zero)
    (hstep : ∀ {t w : Text}, P t → Mends t w → P w) {t : Text} {s : Suggestion}
    (h : suggest t = some s) (ht : P t) : P s.fix := by
  obtain ⟨w, hfix, hmends⟩ := transGen_mends_of_suggest h
  have hw : P w := by
    clear hfix
    induction hmends with
    | single h => exact hstep ht h
    | tail _ h ih => exact hstep ih h
  rw [hfix, Text.orZero]
  split
  · exact hzero
  · exact hw

end Calculator
