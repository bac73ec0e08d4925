import Calculator.Proofs.Postfix.Signs
import Calculator.Proofs.Repair.Leftover
import Calculator.Proofs.Repair.Termination
import Calculator.Proofs.Zone.StrayPercent

/-!
# What a repair brings about

A repair mends slips of one kind, and a text with others besides can have the same fault
afterwards (`not_forall_evaluate_fix_ne`). If the slips were all of that kind, the text is mended
(`outcome_of_suggest`): it fails only for its value. If they were not, the fault of the text comes
back only where its cause is still there (`Fault.CauseIn`), and it does come back where the repair
has nothing to do with it (`Repair.Leaves`). In any case it does not come back for ever: accepting
one suggestion after the other leads to another outcome or to a text for which nothing is
suggested.
-/

namespace Calculator

/-- What causes the fault is seen in the text: the unknown symbol, or a percent sign that follows
no numeral; a numeral with two points; parentheses that do not match. Where an operand is missing
or a divisor is zero they do match, unless what cannot be scanned is an empty group or a lone
point. -/
def Fault.CauseIn (f : Fault) (t : Text) : Prop :=
  match f with
  | .unknownSymbol c =>
      c ∈ t ∧ (¬InAlphabet c ∨ c = '%' ∧
        ∃ u v : Text, t = u ++ '%' :: v ∧ ∀ d ∈ u.getLast?, isNumeric d = false)
  | .decimalPoint => ∃ r ∈ runs t, 1 < r.count '.'
  | .unbalanced => ¬Balanced t ∧ ∃ ts : List Token, expressionTokens t = .ok ts
  | .malformed => Balanced t ∨ expressionTokens t = .error .malformed
  | .divisionByZero => Balanced t

/-- The fault of the text `e` is none that the repair could take away. -/
def Repair.Leaves (repair : Repair) (e : Text) (f : Fault) : Prop :=
  match repair with
  | .mergeOperators => f = .unbalanced ∨ expressionTokens e = .error f
  | .removeEmptyGroups => f ≠ .malformed
  | .movePercent =>
      f = .unbalanced ∧
        ∃ ts : List Token, expressionTokens (Calculator.movePercent false e) = .ok ts
  | .trimEnd =>
      f = .unbalanced ∨ expressionTokens e = .error f ∧
        ∀ c : Char, f = .unknownSymbol c → c ≠ '%' ∧ isBlank c = false
  | .closeGroups =>
      f ≠ .unbalanced ∨
        e.getLast? ≠ some '(' ∧ ∃ p : Text, p <+: e ∧ p.count '(' < p.count ')'

/-- The tokens of the derivation fail for their value: a divisor is zero, the value is not finite,
or a minus sign directly before another one finds no operand before it. Where no sign stands
directly before another one the shifted tree is the tree that is meant, and nothing is surplus. -/
def Derivation.Fails (d : Derivation .sum) : Fault → Prop
  | .divisionByZero => d.surplus = 0 ∧ d.shifted.hasZeroDivisor = true
  | .malformed =>
      d.surplus ≠ 0 ∨ d.shifted.hasZeroDivisor = false ∧ d.shifted.value.isFinite = false
  | _ => False

section Causes

variable {t : Text} {f : Fault} {ts : List Token}

/-- What is scanned and fails otherwise than for its groups has matching parentheses. -/
theorem balanced_of_evaluate (hts : expressionTokens t = .ok ts) (h : evaluate t = .error f)
    (hf : f ≠ .unbalanced) : Balanced t := by
  rw [balanced_iff]
  by_contra hopen
  have hunbalanced := evaluate_eq_unbalanced_iff_openGroups?.2 ⟨⟨ts, hts⟩, hopen⟩
  rw [h] at hunbalanced
  exact hf (Except.error.inj hunbalanced)

/-- A fault has its cause in the text. -/
theorem causeIn_of_evaluate (h : evaluate t = .error f) : f.CauseIn t := by
  cases f with
  | unknownSymbol c =>
      obtain ⟨hmem, hc⟩ := mem_of_unknownSymbol h
      refine ⟨hmem, hc.symm.imp_right ?_⟩
      rintro rfl
      exact ⟨rfl, exists_percent_of_evaluate h⟩
  | decimalPoint => exact exists_run_of_decimalPoint h
  | unbalanced =>
      obtain ⟨hts, hopen⟩ := evaluate_eq_unbalanced_iff_openGroups?.1 h
      exact ⟨by rwa [balanced_iff], hts⟩
  | malformed =>
      cases hts : expressionTokens t with
      | error g =>
          rw [evaluate_of_expressionTokens hts] at h
          cases h
          exact Or.inr hts
      | ok ts => exact Or.inl (balanced_of_evaluate hts h (by simp))
  | divisionByZero =>
      cases hts : expressionTokens t with
      | error g =>
          rw [evaluate_of_expressionTokens hts] at h
          cases h
          rcases Token.fault_of_ofLexemes hts with ⟨hf, -⟩ | ⟨c, hf, -⟩ | hf
          · cases hf
          · cases hf
          · cases hf
      | ok ts => exact balanced_of_evaluate hts h (by simp)

end Causes

/-- The tokens of a derivation fail for nothing but their value. -/
theorem evaluate_eq_error_iff_fails {t : Text} {f : Fault} {d : Derivation .sum}
    (h : expressionTokens t = .ok d.tokens) : evaluate t = .error f ↔ d.Fails f := by
  have hvalue : evaluate t = (Token.value d.tokens).bind finiteValue := by
    rw [evaluate_eq_bind, h]
    rfl
  rw [hvalue, d.value_tokens]
  by_cases hsurplus : d.surplus = 0
  · rw [if_pos hsurplus, Tree.outcome]
    cases hzero : d.shifted.hasZeroDivisor with
    | true => cases f <;> simp [Derivation.Fails, Except.bind, hsurplus, hzero]
    | false =>
        cases hfinite : d.shifted.value.isFinite with
        | true =>
            cases f <;>
              simp [Derivation.Fails, Except.bind, finiteValue, hsurplus, hzero, hfinite]
        | false =>
            cases f <;>
              simp [Derivation.Fails, Except.bind, finiteValue, hsurplus, hzero, hfinite]
  · rw [if_neg hsurplus]
    cases f <;> simp [Derivation.Fails, Except.bind, hsurplus]

/-- Where the closing of groups is suggested a group is open at the end. -/
theorem count_lt_of_closeGroups {e : Text} {s : Suggestion} (h : suggest e = some s)
    (hs : s.repair = .closeGroups) : e.count ')' < e.count '(' := by
  obtain ⟨happly, hne⟩ := apply_of_suggest h
  rw [hs] at happly
  refine not_le.1 fun hle => hne ?_
  rw [← happly]
  exact (closeGroups_eq_self_iff e).2 hle

/-- Behind a text that is scanned the missing parentheses close its groups, unless one of them is
closed in vain. -/
theorem evaluate_closeGroups_eq_unbalanced_iff {e : Text} {ts : List Token}
    (htokens : expressionTokens e = .ok ts) (hlast : e.getLast? ≠ some '(')
    (hend : ∀ c ∈ e.getLast?, c ≠ '%' ∧ c ≠ '+') :
    evaluate (closeGroups e) = .error .unbalanced ↔
      ∃ p : Text, p <+: e ∧ p.count '(' < p.count ')' := by
  have hscanned := expressionTokens_append_closings (e.count '(' - e.count ')') hend hlast htokens
  rw [closeGroups, evaluate_eq_unbalanced_iff_openGroups?, ne_eq, openGroups?_append_missing,
    isSome_openGroups?_iff]
  constructor
  · rintro ⟨-, hvain⟩
    by_contra hnone
    exact hvain fun p hp => by simpa using not_lt.1 fun hlt => hnone ⟨p, hp, hlt⟩
  · rintro ⟨p, hp, hlt⟩
    refine ⟨⟨_, hscanned⟩, fun hall => ?_⟩
    have hle := hall p hp
    omega

/-- Closing the missing groups leaves every fault but that of the groups. That one is left
only if a group is closed in vain. -/
theorem evaluate_closeGroups_eq_error_iff {e : Text} {k : Fault} {s : Suggestion}
    (he : evaluate e = .error k) (hs : suggest e = some s) (hclose : s.repair = .closeGroups) :
    evaluate s.fix = .error k ↔
      k ≠ .unbalanced ∨
        e.getLast? ≠ some '(' ∧ ∃ p : Text, p <+: e ∧ p.count '(' < p.count ')' := by
  have hlt := count_lt_of_closeGroups hs hclose
  have hfix := (apply_of_suggest hs).1
  rw [hclose] at hfix
  change closeGroups e = s.fix at hfix
  rw [← hfix]
  cases htokens : expressionTokens e with
  | error f =>
      rw [evaluate_of_expressionTokens htokens] at he
      cases he
      have hclosings : ∀ c ∈ (List.replicate (e.count '(' - e.count ')') ')').head?,
          isNumeric c = false := by
        intro c hc
        rw [List.eq_of_mem_replicate (List.mem_of_mem_head? hc)]
        rfl
      have hkept := expressionTokens_append_of_beginning htokens fun _ _ => hclosings
      exact iff_of_true (evaluate_of_expressionTokens hkept)
        (Or.inl (ne_unbalanced_of_expressionTokens htokens))
  | ok ts =>
      have hopen : openGroups? 0 e ≠ some 0 := fun hzero => by
        have hcount := count_of_openGroups? hzero
        omega
      rw [evaluate_eq_unbalanced_iff_openGroups?.2 ⟨⟨ts, htokens⟩, hopen⟩] at he
      cases he
      by_cases hlast : e.getLast? = some '('
      · obtain ⟨m, hm⟩ := Nat.exists_eq_succ_of_ne_zero (Nat.sub_ne_zero_of_lt hlt)
        have hempty := evaluate_of_expressionTokens
          (expressionTokens_append_empty_group m hlast htokens)
        refine iff_of_false (fun h => ?_) (by simp [hlast])
        rw [closeGroups, hm, hempty] at h
        cases h
      · have htrim : Repair.trimEnd.apply e = e :=
          apply_eq_self_of_closeGroups hs hclose Repair.noConfusion
        have hend : ∀ c ∈ e.getLast?, c ≠ '%' ∧ c ≠ '+' := by
          refine fun c hc => ⟨?_, ?_⟩ <;> rintro rfl
          · exact getLast?_ne_of_trimEnd_eq_self htrim rfl rfl hc
          · exact getLast?_ne_of_trimEnd_eq_self htrim rfl rfl hc
        rw [evaluate_closeGroups_eq_unbalanced_iff htokens hlast hend]
        simp [hlast]

/-- Accepting suggestions leads to another outcome, or to a text without one. -/
theorem exists_iterate_outcome {k : Fault} (e : Text) (he : evaluate e = .error k) :
    ∃ n : Nat,
      (evaluate (repaired^[n] e) ≠ .error k ∨ suggest (repaired^[n] e) = none) ∧
        ∀ m < n, evaluate (repaired^[m] e) = .error k := by
  induction e using suggest_induction with
  | hnone e hnone => exact ⟨0, Or.inr hnone, fun m hm => absurd hm (Nat.not_lt_zero m)⟩
  | hsome e s hs ih =>
      by_cases hfix : evaluate s.fix = .error k
      · obtain ⟨n, hend, hbefore⟩ := ih hfix
        refine ⟨n + 1, ?_, fun m hm => ?_⟩
        · rw [Function.iterate_succ_apply, repaired_of_suggest hs]
          exact hend
        · cases m with
          | zero => exact he
          | succ m =>
              rw [Function.iterate_succ_apply, repaired_of_suggest hs]
              exact hbefore m (Nat.lt_of_succ_lt_succ hm)
      · refine ⟨1, Or.inl ?_, fun m hm => ?_⟩
        · rw [Function.iterate_one, repaired_of_suggest hs]
          exact hfix
        · rw [Nat.lt_one_iff.1 hm]
          exact he

section Leaves

variable {e v w : Text} {f k : Fault}

theorem exists_ok_iff {α : Type} {x : Except Fault α} :
    (∃ a : α, x = .ok a) ↔ ∀ f : Fault, x ≠ .error f := by
  cases x <;> simp

/-- Nothing is as little at fault as `0`, and it opens no group either. -/
theorem expressionTokens_orZero_eq_error_iff :
    expressionTokens v.orZero = .error f ↔ expressionTokens v = .error f := by
  unfold Text.orZero
  split
  · next hnil =>
      rw [hnil]
      exact iff_of_false (fun h => nomatch h) fun h => nomatch h
  · rfl

theorem openGroups?_orZero (v : Text) : openGroups? 0 v.orZero = openGroups? 0 v := by
  unfold Text.orZero
  split
  · next hnil => rw [hnil]; rfl
  · rfl

/-- A text with the groups of an unbalanced one is unbalanced if it can be scanned. -/
theorem evaluate_eq_unbalanced_of_openGroups? (he : evaluate e = .error .unbalanced)
    (hgroups : openGroups? 0 e = openGroups? 0 w)
    (hw : ∃ ts : List Token, expressionTokens w = .ok ts) : evaluate w = .error .unbalanced := by
  rw [evaluate_eq_unbalanced_iff_openGroups?] at he ⊢
  rw [← hgroups]
  exact ⟨hw, he.2⟩

theorem exists_tokens_of_unbalanced (he : evaluate e = .error .unbalanced) :
    ∃ ts : List Token, expressionTokens e = .ok ts :=
  (evaluate_eq_unbalanced_iff_openGroups?.1 he).1

theorem evaluate_of_stutters (h : Stutters w e) (he : evaluate e = .error k)
    (hk : k = .unbalanced ∨ expressionTokens e = .error k) : evaluate w = .error k := by
  have hsame : ∀ f : Fault, expressionTokens e = .error f ↔ expressionTokens w = .error f :=
    fun f => expressionTokens_eq_error_iff_of_stutters h []
  rcases hk with rfl | hscan
  · refine evaluate_eq_unbalanced_of_openGroups? he (openGroups?_of_stutters h 0) ?_
    have htokens := exists_tokens_of_unbalanced he
    simpa only [exists_ok_iff, ne_eq, hsame] using htokens
  · exact evaluate_of_expressionTokens ((hsame k).1 hscan)

theorem evaluate_of_emptyGroup (h : ['(', ')'] <:+: e) (he : evaluate e = .error k)
    (hk : k ≠ .malformed) : evaluate (withoutEmptyGroups [] e).orZero = .error k := by
  obtain ⟨f, hscan, hleft⟩ := expressionTokens_of_emptyGroup h
  have hf : f = k := Except.error.inj ((evaluate_of_expressionTokens hscan).symm.trans he)
  rw [hf] at hleft
  exact evaluate_of_expressionTokens (expressionTokens_orZero_eq_error_iff.2 (hleft hk))

theorem evaluate_of_dangles (h : Dangles v e) (he : evaluate e = .error k)
    (hk : k = .unbalanced ∨ expressionTokens e = .error k ∧
      ∀ c : Char, k = .unknownSymbol c → c ≠ '%' ∧ isBlank c = false) :
    evaluate v.orZero = .error k := by
  obtain ⟨hfault, htokens⟩ := expressionTokens_of_dangles h
  rcases hk with rfl | ⟨hscan, hsymbol⟩
  · refine evaluate_eq_unbalanced_of_openGroups? he ?_ ?_
    · rw [openGroups?_orZero, openGroups?_of_dangles h]
    · obtain ⟨ts, hts⟩ := exists_tokens_of_unbalanced he
      simpa only [exists_ok_iff, ne_eq, expressionTokens_orZero_eq_error_iff] using htokens ts hts
  · rcases hfault k hscan with hv | ⟨c, hc, hends⟩
    · exact evaluate_of_expressionTokens (expressionTokens_orZero_eq_error_iff.2 hv)
    · obtain ⟨hpercent, hblank⟩ := hsymbol c hc
      rw [hblank] at hends
      exact absurd hends (by simp [hpercent])

/-- A fault that the repair has nothing to do with is still there. -/
theorem evaluate_fix_of_leaves {s : Suggestion} (he : evaluate e = .error k)
    (hs : suggest e = some s) (h : s.repair.Leaves e k) : evaluate s.fix = .error k := by
  obtain ⟨repair, w⟩ := s
  obtain ⟨hmended, -⟩ := (suggest_eq_some_iff_mended (ne_nil_of_suggest hs)).1 hs
  cases repair with
  | mergeOperators => exact evaluate_of_stutters hmended.1 he h
  | removeEmptyGroups =>
      obtain ⟨v, hv, rfl⟩ := hmended
      obtain rfl := withoutEmptyGroups_of_emptyGroups hv
      refine evaluate_of_emptyGroup ?_ he h
      by_contra hgroup
      exact (apply_of_suggest hs).2 ((apply_of_suggest hs).1.symm.trans
        ((removeEmptyGroups_eq_self_iff e).2 hgroup))
  | movePercent =>
      obtain ⟨rfl, htokens⟩ := h
      rw [movePercent_eq_iff.2 hmended] at htokens
      exact evaluate_eq_unbalanced_of_openGroups? he (openGroups?_of_percentsAhead hmended 0)
        htokens
  | trimEnd =>
      obtain ⟨v, hv, rfl⟩ := hmended
      exact evaluate_of_dangles hv he h
  | closeGroups => exact (evaluate_closeGroups_eq_error_iff he hs rfl).2 h

end Leaves

/-- A fault that is found in a common beginning of two expressions is the fault of the second one,
unless a numeral goes on there that had no digit yet. -/
theorem evaluate_of_isPrefix {u w : Text} {k : Fault} (hu : u <+: w)
    (h : expressionTokens u = .error k) (hpoint : k = .malformed → u.getLast? ≠ some '.') :
    evaluate w = .error k := by
  obtain ⟨v, rfl⟩ := hu
  refine evaluate_of_expressionTokens (expressionTokens_append_of_beginning h ?_)
  exact fun hk hlast => absurd hlast (hpoint hk)

/-- Of an expression that fails and of its suggestion.

The suggestion is the text without the slips that the repair is for, and there are none in the
expression that an earlier repair is for. If the tokens of that text can be derived, the repair has
mended it: it fails in the same way only for its value. If it has other slips besides, it fails in
the same way only where the cause of the fault is still in it. It does so where the repair has
nothing to do with the fault, for the closing of groups exactly there, and where the fault is found
before the first place that is mended. In any case the fault does not outlast the suggestions. -/
theorem outcome_of_suggest {e : Text} {k : Fault} {s : Suggestion}
    (he : evaluate e = .error k) (hs : suggest e = some s) :
    (∀ t : Suggestion, s = t ↔
        t.repair.Mended e t.fix ∧ t.fix ≠ e ∧
          ∃ before after : List Repair, Repair.all = before ++ t.repair :: after ∧
            ∀ repair ∈ before, ∀ w : Text, Repair.Mended repair e w → w = e) ∧
      (∀ (w : Text) (d : Derivation .sum), s.repair.Mended e w →
        expressionTokens w = .ok d.tokens → (evaluate s.fix = .error k ↔ d.Fails k)) ∧
      (evaluate s.fix = .error k → k.CauseIn s.fix) ∧
      (s.repair.Leaves e k → evaluate s.fix = .error k) ∧
      (s.repair = .closeGroups → evaluate s.fix = .error k → s.repair.Leaves e k) ∧
      (∀ u : Text, u <+: e → u <+: s.fix → expressionTokens u = .error k →
        (k = .malformed → u.getLast? ≠ some '.') → evaluate s.fix = .error k) ∧
      ∃ n : Nat,
        (evaluate (repaired^[n] e) ≠ .error k ∨ suggest (repaired^[n] e) = none) ∧
          ∀ m < n, evaluate (repaired^[m] e) = .error k := by
  have he' : e ≠ [] := ne_nil_of_suggest hs
  refine ⟨fun t => ?_, fun w d hw htokens => ?_,
    causeIn_of_evaluate, evaluate_fix_of_leaves he hs, fun hclose hfix => ?_,
    fun u _ hu h hpoint => evaluate_of_isPrefix hu h hpoint, exists_iterate_outcome e he⟩
  · rw [← suggest_eq_some_iff_mended he', hs, Option.some_inj]
  · rw [← (apply_of_suggest hs).1, Repair.apply_of_mended he' hw]
    exact evaluate_eq_error_iff_fails htokens
  · have hexact := (evaluate_closeGroups_eq_error_iff he hs hclose).1 hfix
    rw [hclose]
    exact hexact

/-- The empty group of `6×()` goes with its operator, and what is left is mended. Of `(6×()` only
the group is left open, which was not its fault. The group of `(5++3` is left open and was its
fault, and that of `(5+3` is closed. -/
theorem outcome_of_empty_factor :
    evaluate ['6'] ≠ .error .malformed ∧ evaluate ['(', '6'] ≠ .error .malformed ∧
      evaluate ['(', '5', '+', '3'] = .error .unbalanced ∧
      evaluate ['(', '5', '+', '3', ')'] ≠ .error .unbalanced := by
  have hsix : EmptyGroups ['6'] ['6', '×', '(', ')'] :=
    .operand (w := ['6']) (.keep (.keep .nil (by simp)) (by simp)) rfl
  obtain ⟨-, hfactor, -⟩ := outcome_of_suggest (e := ['6', '×', '(', ')']) (k := .malformed)
    (s := ⟨.removeEmptyGroups, ['6']⟩) rfl rfl
  obtain ⟨-, -, hcause, -⟩ := outcome_of_suggest (e := ['(', '6', '×', '(', ')']) (k := .malformed)
    (s := ⟨.removeEmptyGroups, ['(', '6']⟩) rfl rfl
  obtain ⟨-, -, -, hleft, -⟩ := outcome_of_suggest (e := ['(', '5', '+', '+', '3'])
    (k := .unbalanced) (s := ⟨.mergeOperators, ['(', '5', '+', '3']⟩) rfl rfl
  obtain ⟨-, -, -, -, hclosed, -⟩ := outcome_of_suggest (e := ['(', '5', '+', '3'])
    (k := .unbalanced) (s := ⟨.closeGroups, ['(', '5', '+', '3', ')']⟩) rfl rfl
  refine ⟨fun h => ?_, fun h => ?_, hleft (Or.inl rfl), fun h => ?_⟩
  · let d : Derivation .sum := .product (.factor (.primary (.number (Decimal.toFloat ⟨6, 0⟩))))
    have hfails : d.Fails .malformed := (hfactor ['6'] d ⟨['6'], hsix, rfl⟩ rfl).1 h
    have hnumber : (Decimal.toFloat ⟨6, 0⟩).isFinite = true := by decide +kernel
    rcases hfails with hsurplus | ⟨-, hfinite⟩
    · exact hsurplus rfl
    · exact Bool.false_ne_true (hfinite.symm.trans hnumber)
  · rcases hcause h with hbalanced | hscan
    · cases balanced_iff.1 hbalanced
    · cases hscan
  · rcases hclosed rfl h with hk | ⟨-, p, hp, hcount⟩
    · exact hk rfl
    · have hnone : p.count ')' ≤ 0 := hp.sublist.count_le ')'
      omega

/-- `(5++3` has a doubled operator and an open group: the first suggestion leaves the
group open. -/
theorem not_forall_evaluate_fix_ne :
    ¬∀ (e : Text) (k : Fault) (s : Suggestion),
      evaluate e = .error k → suggest e = some s → evaluate s.fix ≠ .error k := fun h =>
  h ['(', '5', '+', '+', '3'] .unbalanced ⟨.mergeOperators, ['(', '5', '+', '3']⟩ rfl rfl rfl

end Calculator
