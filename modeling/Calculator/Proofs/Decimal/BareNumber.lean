import Calculator.Decimal
import Calculator.Editor.Buffer
import Calculator.Proofs.Binary64.Negation
import Calculator.Proofs.Expression.Written

/-!
# Numbers by themselves

A result is a bare number: digits, perhaps a minus sign before them, perhaps a
point and more digits behind (`isBareNumber_resultText`). A bare number is the
numeral of a number or its negation, so that it has a value unless it is too
large, and then its negation has none either (`evaluate_toggleSign`).
-/

namespace Calculator

open Buffer (isDigits unsigned isBareNumber toggleSign)

theorem isDigits_iff {t : Text} :
    isDigits t = true ↔ t ≠ [] ∧ ∀ c ∈ t, c.isDigit = true := by
  simp [isDigits]

theorem ne_point_of_isDigit {c : Char} (h : c.isDigit = true) : c ≠ '.' := by
  rintro rfl
  exact absurd h (by decide)

theorem ne_minus_of_isDigit {c : Char} (h : c.isDigit = true) : c ≠ '-' := by
  rintro rfl
  exact absurd h (by decide)

/-- Digits, perhaps a point and more digits behind. -/
inductive IsPlainNumber : Text → Prop
  | whole {w : Text} : isDigits w = true → IsPlainNumber w
  | fraction {w f : Text} :
      isDigits w = true → isDigits f = true → IsPlainNumber (w ++ '.' :: f)

theorem cut_digits {w : Text} (hw : ∀ c ∈ w, c.isDigit = true) :
    w.takeWhile (· != '.') = w ∧ w.dropWhile (· != '.') = [] := by
  have hall : ∀ c ∈ w, (c != '.') = true := fun c hc => bne_iff_ne.2 (ne_point_of_isDigit (hw c hc))
  exact ⟨List.takeWhile_eq_self_iff.2 hall, List.dropWhile_eq_nil_iff.2 hall⟩

theorem cut_point {w : Text} (hw : ∀ c ∈ w, c.isDigit = true) (f : Text) :
    (w ++ '.' :: f).takeWhile (· != '.') = w ∧
      (w ++ '.' :: f).dropWhile (· != '.') = '.' :: f := by
  have hall : ∀ c ∈ w, (c != '.') = true := fun c hc => bne_iff_ne.2 (ne_point_of_isDigit (hw c hc))
  constructor
  · rw [List.takeWhile_append_of_pos hall]
    simp
  · rw [List.dropWhile_append_of_pos hall]
    simp

theorem isBareNumber_iff {t : Text} : isBareNumber t = true ↔ IsPlainNumber (unsigned t) := by
  constructor
  · intro h
    have hcut := List.takeWhile_append_dropWhile (p := (· != '.')) (l := unsigned t)
    rw [isBareNumber] at h
    cases hdrop : (unsigned t).dropWhile (· != '.') with
    | nil =>
        simp only [hdrop] at h
        rw [hdrop, List.append_nil] at hcut
        rw [← hcut]
        exact .whole h
    | cons c f =>
        simp only [hdrop, Bool.and_eq_true] at h
        have hc : c = '.' := by
          have hhead := List.head?_dropWhile_not (· != '.') (unsigned t)
          rw [hdrop] at hhead
          simpa using hhead
        rw [hdrop, hc] at hcut
        rw [← hcut]
        exact .fraction h.1 h.2
  · intro h
    rw [isBareNumber]
    generalize unsigned t = body at h
    cases h with
    | whole hw =>
        obtain ⟨htake, hdrop⟩ := cut_digits (isDigits_iff.1 hw).2
        simp only [htake, hdrop, hw]
    | @fraction w f hw hf =>
        obtain ⟨htake, hdrop⟩ := cut_point (isDigits_iff.1 hw).2 f
        simp only [htake, hdrop, hw, hf, Bool.and_self]

theorem exists_cons_of_isDigits {t : Text} (h : isDigits t = true) :
    ∃ (c : Char) (rest : Text), t = c :: rest ∧ c.isDigit = true := by
  obtain ⟨hne, hdigits⟩ := isDigits_iff.1 h
  obtain ⟨c, rest, rfl⟩ := List.exists_cons_of_ne_nil hne
  exact ⟨c, rest, rfl, hdigits c (by simp)⟩

theorem exists_append_of_isDigits {t : Text} (h : isDigits t = true) :
    ∃ (rest : Text) (c : Char), t = rest ++ [c] ∧ c.isDigit = true := by
  obtain ⟨hne, hdigits⟩ := isDigits_iff.1 h
  refine ⟨t.dropLast, t.getLast hne, (List.dropLast_append_getLast hne).symm, ?_⟩
  exact hdigits _ (List.getLast_mem hne)

theorem count_point_of_isDigits {t : Text} (h : isDigits t = true) : t.count '.' = 0 := by
  refine List.count_eq_zero.2 fun hmem => ?_
  exact ne_point_of_isDigit ((isDigits_iff.1 h).2 _ hmem) rfl

namespace IsPlainNumber

theorem isNumeric {t : Text} (h : IsPlainNumber t) : ∀ c ∈ t, isNumeric c = true := by
  have hdigits : ∀ {w : Text}, isDigits w = true → ∀ c ∈ w, Calculator.isNumeric c = true :=
    fun hw c hc => isNumeric_of_isDigit ((isDigits_iff.1 hw).2 c hc)
  cases h with
  | whole hw => exact hdigits hw
  | fraction hw hf =>
      intro c hc
      rcases List.mem_append.1 hc with hc | hc
      · exact hdigits hw c hc
      · rcases List.mem_cons.1 hc with rfl | hc
        · rfl
        · exact hdigits hf c hc

theorem exists_cons {t : Text} (h : IsPlainNumber t) :
    ∃ (c : Char) (rest : Text), t = c :: rest ∧ c.isDigit = true := by
  cases h with
  | whole hw => exact exists_cons_of_isDigits hw
  | @fraction w f hw hf =>
      obtain ⟨c, rest, rfl, hc⟩ := exists_cons_of_isDigits hw
      exact ⟨c, rest ++ '.' :: f, rfl, hc⟩

theorem exists_append {t : Text} (h : IsPlainNumber t) :
    ∃ (rest : Text) (c : Char), t = rest ++ [c] ∧ c.isDigit = true := by
  cases h with
  | whole hw => exact exists_append_of_isDigits hw
  | @fraction w f hw hf =>
      obtain ⟨rest, c, rfl, hc⟩ := exists_append_of_isDigits hf
      exact ⟨w ++ '.' :: rest, c, by simp, hc⟩

theorem exists_isNumeral {t : Text} (h : IsPlainNumber t) : ∃ d : Decimal, IsNumeral t d := by
  refine Calculator.exists_isNumeral (List.all_eq_true.2 h.isNumeric) ?_
  obtain ⟨c, rest, hcons, hc⟩ := h.exists_cons
  have hany : t.any Char.isDigit = true := by
    rw [hcons, List.any_cons, hc, Bool.true_or]
  rw [isLiteral, hany, Bool.and_true, decide_eq_true_eq]
  cases h with
  | whole hw =>
      rw [count_point_of_isDigits hw]
      exact Nat.zero_le 1
  | fraction hw hf =>
      rw [List.count_append, List.count_cons_self, count_point_of_isDigits hw,
        count_point_of_isDigits hf]

theorem unsigned_eq {t : Text} (h : IsPlainNumber t) : unsigned t = t := by
  obtain ⟨c, rest, rfl, hc⟩ := h.exists_cons
  rw [unsigned]
  intro _ heq
  cases heq
  exact absurd hc (by decide)

end IsPlainNumber

/-- A bare number has a sign or none. -/
theorem exists_of_isBareNumber {t : Text} (h : isBareNumber t = true) :
    ∃ n : Text, IsPlainNumber n ∧ (t = n ∨ t = '-' :: n) := by
  refine ⟨unsigned t, isBareNumber_iff.1 h, ?_⟩
  unfold unsigned
  split
  · exact Or.inr rfl
  · exact Or.inl rfl

theorem mem_of_isBareNumber {t : Text} (h : isBareNumber t = true) {c : Char} (hc : c ∈ t) :
    isNumeric c = true ∨ c = '-' := by
  obtain ⟨n, hn, rfl | rfl⟩ := exists_of_isBareNumber h
  · exact Or.inl (hn.isNumeric c hc)
  · rcases List.mem_cons.1 hc with rfl | hc
    · exact Or.inr rfl
    · exact Or.inl (hn.isNumeric c hc)

theorem not_mem_of_isBareNumber {t : Text} (h : isBareNumber t = true) {c : Char}
    (hnumeric : isNumeric c = false) (hminus : c ≠ '-') : c ∉ t := by
  intro hc
  rcases mem_of_isBareNumber h hc with htrue | heq
  · rw [hnumeric] at htrue
    cases htrue
  · exact hminus heq

/-- A digit stands last. -/
theorem exists_append_of_isBareNumber {t : Text} (h : isBareNumber t = true) :
    ∃ (rest : Text) (c : Char), t = rest ++ [c] ∧ c.isDigit = true := by
  obtain ⟨n, hn, hsign⟩ := exists_of_isBareNumber h
  obtain ⟨rest, c, rfl, hc⟩ := hn.exists_append
  rcases hsign with rfl | rfl
  · exact ⟨rest, c, rfl, hc⟩
  · exact ⟨'-' :: rest, c, rfl, hc⟩

theorem evaluate_plain {n : Text} {d : Decimal} (h : IsNumeral n d) :
    evaluate n = if d.toFloat.isFinite then .ok d.toFloat else .error .malformed := by
  have hwrites : Writes .sum n (.leaf d.toFloat) := .product (.factor (.primary (.number h)))
  rw [evaluate_eq_of_writes hwrites, Tree.outcome_leaf, Except.bind]

/-- The negation of a number has no value either if the number has none. -/
theorem evaluate_negated {n : Text} {d : Decimal} (h : IsNumeral n d) :
    evaluate ('-' :: n) =
      if d.toFloat.isFinite then .ok (-d.toFloat) else .error .malformed := by
  have hwrites : Writes .sum ('-' :: n) (.negate (.leaf d.toFloat)) :=
    .product (.factor (.negate (.number h)))
  rw [evaluate_eq_of_writes hwrites, Tree.outcome_negate, Tree.outcome_leaf, Except.map,
    Except.bind, Binary64.isFinite_neg]

theorem isBareNumber_signed {n : Text} (h : IsPlainNumber n) (negative : Bool) :
    isBareNumber (signed negative n) = true := by
  rw [isBareNumber_iff]
  cases negative with
  | true => exact h
  | false => exact h.unsigned_eq.symm ▸ h

/-- The change of sign leads from a bare number to the same digits. -/
theorem exists_toggleSign {t : Text} (h : isBareNumber t = true) :
    ∃ n : Text, IsPlainNumber n ∧ (t = n ∨ t = '-' :: n) ∧
      (toggleSign t = n ∨ toggleSign t = '-' :: n) := by
  obtain ⟨n, hn, ht⟩ := exists_of_isBareNumber h
  refine ⟨n, hn, ht, ?_⟩
  obtain ⟨c, rest, hcons, hc⟩ := hn.exists_cons
  unfold toggleSign
  split
  · next hzero =>
      rcases ht with rfl | rfl
      · exact Or.inl rfl
      · cases hzero
  · rcases ht with rfl | rfl
    · split
      · cases hcons
        exact absurd hc (by decide)
      · exact Or.inr rfl
    · exact Or.inl rfl

theorem isBareNumber_toggleSign {t : Text} (h : isBareNumber t = true) :
    isBareNumber (toggleSign t) = true := by
  obtain ⟨n, hn, -, htoggle⟩ := exists_toggleSign h
  rcases htoggle with heq | heq
  · rw [heq]
    exact isBareNumber_signed hn false
  · rw [heq]
    exact isBareNumber_signed hn true

/-- A bare number has a value unless it is too large, whatever its sign. -/
theorem evaluate_toggleSign {t : Text} {f : Fault} (h : isBareNumber t = true)
    (hf : evaluate t = .error f) :
    f = .malformed ∧ evaluate (toggleSign t) = .error .malformed := by
  obtain ⟨n, hn, ht, htoggle⟩ := exists_toggleSign h
  obtain ⟨d, hd⟩ := hn.exists_isNumeral
  have hplain := evaluate_plain hd
  have hnegated := evaluate_negated hd
  by_cases hfinite : d.toFloat.isFinite = true
  · rw [if_pos hfinite] at hplain hnegated
    rcases ht with rfl | rfl
    · rw [hplain] at hf
      cases hf
    · rw [hnegated] at hf
      cases hf
  · rw [if_neg hfinite] at hplain hnegated
    have hfault : f = .malformed := by
      rcases ht with rfl | rfl
      · rw [hplain] at hf
        exact Except.error.inj hf.symm
      · rw [hnegated] at hf
        exact Except.error.inj hf.symm
    refine ⟨hfault, ?_⟩
    rcases htoggle with heq | heq
    · rw [heq, hplain]
    · rw [heq, hnegated]

/-- The digits of a natural number. -/
theorem isDigits_toDigits (n : Nat) : isDigits (Nat.toDigits 10 n) = true :=
  isDigits_iff.2 ⟨Nat.toDigits_ne_nil, fun _ hc =>
    Nat.isDigit_of_mem_toDigits (by decide) (by decide) hc⟩

theorem isDigit_of_mem_fractionDigits {d : Decimal} {c : Char} (h : c ∈ d.fractionDigits) :
    c.isDigit = true := by
  have hcut := Text.dropEndWhile_append_takeEndWhile (· == '0')
    ((Nat.toDigits 10 (d.mantissa % Nat.pow 10 d.places)).leftpad d.places '0')
  have hmem : c ∈ (Nat.toDigits 10 (d.mantissa % Nat.pow 10 d.places)).leftpad d.places '0' := by
    rw [← hcut]
    exact List.mem_append_left _ h
  rw [List.leftpad, List.mem_append, List.mem_replicate] at hmem
  rcases hmem with ⟨-, rfl⟩ | hmem
  · rfl
  · exact (isDigits_iff.1 (isDigits_toDigits _)).2 c hmem

theorem isPlainNumber_text (d : Decimal) : IsPlainNumber d.text := by
  have hwhole : isDigits d.wholeDigits = true := isDigits_toDigits _
  unfold Decimal.text
  cases hfraction : d.fractionDigits with
  | nil => exact .whole hwhole
  | cons c rest =>
      refine .fraction hwhole (isDigits_iff.2 ⟨List.cons_ne_nil c rest, ?_⟩)
      rw [← hfraction]
      exact fun x hx => isDigit_of_mem_fractionDigits hx

/-- A result is a bare number. -/
theorem isBareNumber_resultText {x : Float} (hx : x.isFinite = true) :
    isBareNumber (resultText x) = true := by
  rw [resultText, if_pos hx]
  exact isBareNumber_signed (isPlainNumber_text _) _

theorem isFinite_of_evaluate {t : Text} {v : Float} (h : evaluate t = .ok v) :
    v.isFinite = true := by
  obtain ⟨tokens, -, htokens⟩ := exists_of_bind_eq_ok h
  obtain ⟨ordered, -, hordered⟩ := exists_of_bind_eq_ok htokens
  obtain ⟨value, -, hvalue⟩ := exists_of_bind_eq_ok hordered
  by_cases hfinite : value.isFinite = true
  · rw [if_pos hfinite] at hvalue
    cases hvalue
    exact hfinite
  · rw [if_neg hfinite] at hvalue
    cases hvalue

end Calculator
