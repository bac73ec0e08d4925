import Calculator.Proofs.Expression.Beginning
import Calculator.Proofs.Repair.Mending
import Calculator.Proofs.Repair.Slips

/-!
# Faults that a repair leaves

What a repair changes is told by the relations of the slips, and along them it is told here
which faults outlast the change. Groups are opened and closed as before when operators are
struck once, percent signs are moved or something dangling is taken off
(`openGroups?_of_stutters`, `openGroups?_of_percentsAhead`, `openGroups?_of_dangles`). The
scanner finds the same fault without the repetitions (`expressionTokens_eq_error_iff_of_stutters`),
it finds the one before the first empty group when that group goes
(`expressionTokens_of_emptyGroup`), and of what dangles it finds fault with percent signs and
blanks only (`expressionTokens_of_dangles`).
-/

namespace Calculator

variable {e u v w z : Text} {c : Char} {f : Fault} {ts : List Token}

section Groups

theorem openGroups?_of_stutters (h : Stutters w e) (d : Nat) :
    openGroups? d e = openGroups? d w := by
  induction h generalizing d with
  | nil => rfl
  | keep c h ih => exact openGroups?_append_congr ih [c] d
  | again hc h ih =>
      obtain ⟨-, hopening, hclosing⟩ := isPlain_of_isOperator hc
      rw [openGroups?_cons_of_ne hopening hclosing, ih]

theorem openGroups?_of_percentsAhead {numeral : Bool} (h : PercentsAhead numeral w e) (d : Nat) :
    openGroups? d e = openGroups? d w := by
  induction h generalizing d with
  | nil numeral => rfl
  | @keep numeral c w e hc h ih => exact openGroups?_append_congr ih [c] d
  | @move x w e hx h ih =>
      obtain ⟨hopening, hclosing⟩ := ne_parenthesis_of_isNumeric (isNumeric_of_isDigit hx)
      rw [openGroups?_cons_of_ne (by decide) (by decide), openGroups?_cons_of_ne hopening hclosing,
        openGroups?_cons_of_ne hopening hclosing, openGroups?_cons_of_ne (by decide) (by decide),
        ih]

theorem openGroups?_of_dangles (h : Dangles w e) (d : Nat) :
    openGroups? d e = openGroups? d w := by
  obtain ⟨front, tail, back, rfl, hfront, hback, htail, -⟩ := h
  have hends : ∀ c ∈ tail ++ back, c ≠ '(' ∧ c ≠ ')' := by
    intro c hc
    rcases List.mem_append.1 hc with hc | hc
    · exact (isPlain_of_ending (Or.inr (htail c hc))).2
    · exact (isPlain_of_ending (Or.inl (hback c hc))).2
  rw [List.append_assoc,
    openGroups?_append_of_not_mem fun c hc => (isPlain_of_isBlank (hfront c hc)).2,
    List.append_assoc, openGroups?_append]
  cases openGroups? d w with
  | none => rfl
  | some k => exact openGroups?_of_not_mem hends k

end Groups

section Operators

/-- A repeated operator is at fault nowhere, and it hides no fault. -/
theorem expressionTokens_eq_error_iff_of_stutters (h : Stutters w e) (u : Text) :
    expressionTokens (u ++ e) = .error f ↔ expressionTokens (u ++ w) = .error f := by
  induction h generalizing u with
  | nil => exact Iff.rfl
  | keep c h ih => simpa using ih (u ++ [c])
  | @again c w e hc h ih =>
      have hrest := ih (u ++ [c])
      rw [List.append_assoc, List.append_assoc, List.singleton_append,
        List.singleton_append] at hrest
      rw [hrest, expressionTokens_repeated_eq_error_iff hc]

end Operators

section Empty

/-- The operators that are kept at the end may go with a group, and nothing else. -/
theorem dropWhile_isPrefix_withoutEmptyGroups (kept t : Text) :
    (kept.dropWhile isOperator).reverse <+: withoutEmptyGroups kept t := by
  fun_induction withoutEmptyGroups kept t with
  | case1 kept rest ih =>
      have hkept : (dropOperator kept).dropWhile isOperator = kept.dropWhile isOperator := by
        cases kept with
        | nil => rfl
        | cons c kept =>
            cases hc : isOperator c <;> simp [dropOperator, hc]
      rwa [hkept] at ih
  | case2 kept c rest hne ih =>
      refine List.IsPrefix.trans ?_ ih
      cases hc : isOperator c with
      | true => rw [List.dropWhile_cons_of_pos hc]
      | false =>
          rw [List.dropWhile_cons_of_neg (by simp [hc]), List.reverse_cons]
          exact (List.reverse_prefix.2 (List.dropWhile_suffix isOperator)).trans
            (List.prefix_append _ _)
  | case3 kept => exact List.reverse_prefix.2 (List.dropWhile_suffix isOperator)

/-- What is left of a text with an empty group begins as the text does before the first one,
operators at the end aside. -/
theorem exists_beginning_of_emptyGroup (h : ['(', ')'] <:+: e) :
    ∃ p rest : Text, e = p ++ '(' :: ')' :: rest ∧
      Text.dropEndWhile isOperator p <+: withoutEmptyGroups [] e := by
  have hkept : ∀ kept t : Text, ['(', ')'] <:+: t → ∃ p rest : Text,
      t = p ++ '(' :: ')' :: rest ∧
        ((p.reverse ++ kept).dropWhile isOperator).reverse <+: withoutEmptyGroups kept t := by
    intro kept t ht
    fun_induction withoutEmptyGroups kept t with
    | case1 kept rest ih =>
        exact ⟨[], rest, rfl, dropWhile_isPrefix_withoutEmptyGroups kept ('(' :: ')' :: rest)⟩
    | case2 kept c rest hne ih =>
        have hrest : ['(', ')'] <:+: rest := by
          rcases List.infix_cons_iff.1 ht with ⟨v, hv⟩ | hrest
          · obtain ⟨rfl, hrest⟩ := List.cons.inj hv
            exact (hne v rfl hrest.symm).elim
          · exact hrest
        obtain ⟨p, tail, rfl, hprefix⟩ := ih hrest
        exact ⟨c :: p, tail, rfl, by simpa using hprefix⟩
    | case3 kept => simp at ht
  obtain ⟨p, rest, heq, hprefix⟩ := hkept [] e h
  exact ⟨p, rest, heq, by simpa [Text.dropEndWhile] using hprefix⟩

theorem expressionTokens_append_operators_eq_error_iff (hz : ∀ c ∈ z, isOperator c = true) :
    expressionTokens (u ++ z) = .error f ↔ expressionTokens u = .error f := by
  induction z using List.reverseRecOn with
  | nil => rw [List.append_nil]
  | append_singleton z c ih =>
      obtain ⟨hz, hc⟩ := List.forall_mem_append.1 hz
      have hc : isOperator c = true := hc c (List.mem_singleton_self c)
      rw [← List.append_assoc, expressionTokens_concat_operator_eq_error_iff hc, ih hz]

/-- An empty group behind an expression that is scanned is at fault. -/
theorem expressionTokens_append_emptyGroup (h : expressionTokens u = .ok ts) :
    expressionTokens (u ++ ['(', ')']) = .error .malformed := by
  have hspelling : ['(', ')'].map canonicalChar = ['(', ')'] := rfl
  rw [expressionTokens,
    canonical_absorbPercent_append (Or.inr (by simp; rfl)) (by decide) (by decide), hspelling,
    scan_append_eq_error_iff (Or.inr (by simp; rfl)) (by simp)]
  exact Or.inr ⟨⟨ts, h⟩, rfl⟩

/-- The fault of a text with an empty group is that of the group, or one before it, which is left
when the group goes. -/
theorem expressionTokens_of_emptyGroup (h : ['(', ')'] <:+: e) :
    ∃ f : Fault, expressionTokens e = .error f ∧
      (f ≠ .malformed → expressionTokens (withoutEmptyGroups [] e) = .error f) := by
  obtain ⟨p, rest, rfl, v, hv⟩ := exists_beginning_of_emptyGroup h
  cases hp : expressionTokens p with
  | error f =>
      refine ⟨f, expressionTokens_append_of_beginning hp fun _ _ => by simp; rfl, fun hf => ?_⟩
      rw [← Text.dropEndWhile_append_takeEndWhile isOperator p,
        expressionTokens_append_operators_eq_error_iff Text.of_mem_takeEndWhile] at hp
      rw [← hv]
      exact expressionTokens_append_of_beginning hp fun hmalformed => absurd hmalformed hf
  | ok ts =>
      refine ⟨.malformed, ?_, fun hf => absurd rfl hf⟩
      have htext : p ++ '(' :: ')' :: rest = p ++ ['(', ')'] ++ rest := by simp
      rw [htext]
      refine expressionTokens_append_of_getLast? ?_ (expressionTokens_append_emptyGroup hp) rest
      simp
      rfl

end Empty

section Ends

theorem not_inAlphabet_of_isBlank (hc : isBlank c = true) : ¬InAlphabet c := by
  rintro (hnumeric | hsymbol)
  · rw [isBlank_of_isNumeric hnumeric] at hc
    cases hc
  · have hblank : ∀ d ∈ ['+', '-', '×', '÷', '*', '/', '(', ')', '%'], (!isBlank d) = true :=
      List.all_eq_true.1 rfl
    have hnone := hblank c hsymbol
    rw [hc] at hnone
    cases hnone

/-- A fault stays the fault with something dangling behind it. -/
theorem expressionTokens_append_dangling_of_error
    (hz : ∀ c ∈ z, isBlank c = true ∨ isDangling c = true)
    (h : expressionTokens u = .error f) : expressionTokens (u ++ z) = .error f :=
  expressionTokens_append_of_beginning h fun _ _ c hc =>
    (isPlain_of_ending (hz c (List.mem_of_mem_head? hc))).1

/-- What dangles behind an expression that is scanned brings in no fault but that of a percent
sign or of a blank. -/
theorem fault_of_append_dangling (h : expressionTokens u = .ok ts)
    (hz : ∀ c ∈ z, isBlank c = true ∨ isDangling c = true)
    (hf : expressionTokens (u ++ z) = .error f) :
    ∃ c : Char, f = .unknownSymbol c ∧ (c = '%' ∨ isBlank c = true) := by
  induction z using List.reverseRecOn with
  | nil =>
      rw [List.append_nil, h] at hf
      cases hf
  | append_singleton z c ih =>
      obtain ⟨hz, hc⟩ := List.forall_mem_append.1 hz
      rw [List.forall_mem_singleton] at hc
      rw [← List.append_assoc] at hf
      cases hrest : expressionTokens (u ++ z) with
      | error g =>
          have hkept :=
            expressionTokens_append_dangling_of_error (z := [c]) (by simpa using hc) hrest
          rw [hf] at hkept
          cases hkept
          exact ih hz hrest
      | ok us =>
          rcases hc with hblank | hdangling
          · have hunknown :=
              expressionTokens_concat_unknown hrest (not_inAlphabet_of_isBlank hblank)
            rw [hf] at hunknown
            cases hunknown
            exact ⟨c, rfl, Or.inr hblank⟩
          · rw [isDangling, Bool.or_eq_true, beq_iff_eq] at hdangling
            rcases hdangling with hoperator | rfl
            · rw [expressionTokens_concat_operator_eq_error_iff hoperator, hrest] at hf
              cases hf
            · exact ⟨'%', fault_of_concat_percent hrest hf, Or.inl rfl⟩

/-- The fault of a text with something dangling is that of the text without it, or that of a
percent sign or a blank. The text without it has no fault that is not seen with it. -/
theorem expressionTokens_of_dangles (h : Dangles w e) :
    (∀ f : Fault, expressionTokens e = .error f → expressionTokens w = .error f ∨
        ∃ c : Char, f = .unknownSymbol c ∧ (c = '%' ∨ isBlank c = true)) ∧
      ∀ ts : List Token, expressionTokens e = .ok ts →
        ∃ us : List Token, expressionTokens w = .ok us := by
  obtain ⟨front, tail, back, rfl, hfront, hback, htail, -⟩ := h
  have hends : ∀ c ∈ tail ++ back, isBlank c = true ∨ isDangling c = true := by
    intro c hc
    rcases List.mem_append.1 hc with hc | hc
    · exact Or.inr (htail c hc)
    · exact Or.inl (hback c hc)
  cases front with
  | cons d front =>
      have hblank : isBlank d = true := hfront d (List.mem_cons_self ..)
      rw [List.cons_append, List.cons_append,
        expressionTokens_cons_unknown (not_inAlphabet_of_isBlank hblank)]
      refine ⟨?_, fun ts hts => nomatch hts⟩
      rintro f ⟨⟩
      exact Or.inr ⟨d, rfl, Or.inr hblank⟩
  | nil =>
      rw [List.nil_append, List.append_assoc]
      cases hw : expressionTokens w with
      | error g =>
          rw [expressionTokens_append_dangling_of_error hends hw]
          exact ⟨fun f hf => Or.inl hf, fun ts hts => nomatch hts⟩
      | ok us =>
          exact ⟨fun f hf => Or.inr (fault_of_append_dangling hw hends hf), fun _ _ => ⟨us, rfl⟩⟩

end Ends

end Calculator
