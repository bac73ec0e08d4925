import Calculator.Proofs.Decimal.Tidy
import Calculator.Proofs.Editor.Invariant
import Calculator.Proofs.Editor.Segment
import Calculator.Proofs.Expression.Points
import Calculator.Proofs.Repair.Mending

/-!
# Numerals in a session

As long as neither an answer is inserted nor an expression loaded, every numeral in
the buffer is tidy (`TidyNumerals`). The keys look at the numeral being typed only.
What carries the property over a repair, which takes characters away in the middle of
the buffer, is that no numeral stands directly behind a group or a percent sign: so no
two numerals can come together.
-/

namespace Calculator

open Buffer

/-- The numerals of the text are tidy, none of them stands directly behind a group or a
percent sign, and every other character begins a numeral anew. -/
structure TidyNumerals (t : Text) : Prop where
  tidy : ∀ r ∈ runs t, IsTidy r
  apart : t.IsChain fun c d => isNumeric d = true → c ≠ ')' ∧ c ≠ '%'
  letters : ∀ c ∈ t, isNumeric c = true ∨ isBoundary c = true

/-- Digits other than `0` alone begin a numeral. -/
theorem isTidy_text_of_isZeros {g : Glyph} (hdigits : isDigits g.text = true)
    (hzeros : g.isZeros = false) : IsTidy g.text := by
  cases g with
  | digit n =>
      have hdigit : ∀ k ≤ 9, 0 < k → (Char.ofNat (48 + k)).isDigit = true ∧
          Char.ofNat (48 + k) ≠ '0' := by decide
      have hpos : n ≠ 0 := beq_eq_false_iff_ne.1 hzeros
      obtain ⟨hd, hne⟩ := hdigit (min n 9) (Nat.min_le_right n 9) (by omega)
      exact .whole (.digits hd hne (List.forall_mem_nil _))
  | doubleZero => cases hzeros
  | tripleZero => cases hzeros
  | point => cases hdigits
  | operator op => cases op <;> cases hdigits
  | percent => cases hdigits

namespace TidyNumerals

variable {t : Text}

theorem nil : TidyNumerals [] :=
  ⟨List.forall_mem_nil _, .nil, List.forall_mem_nil _⟩

/-- A character that is no part of a numeral parts the text. -/
theorem of_symbol {u v : Text} {c : Char} (h : TidyNumerals (u ++ c :: v))
    (hc : isNumeric c = false) : TidyNumerals u ∧ TidyNumerals v := by
  have htidy := h.tidy
  rw [runs_append_symbol hc, List.forall_mem_append] at htidy
  have hletters := h.letters
  rw [List.forall_mem_append, List.forall_mem_cons] at hletters
  obtain ⟨hu, hcv, -⟩ := List.isChain_append.1 h.apart
  exact ⟨⟨htidy.1, hu, hletters.1⟩, ⟨htidy.2, hcv.tail, hletters.2.2⟩⟩

theorem append {u v : Text} (hu : TidyNumerals u) (hv : TidyNumerals v)
    (hhead : ∀ c ∈ v.head?, isNumeric c = false) : TidyNumerals (u ++ v) := by
  refine ⟨?_, ?_, List.forall_mem_append.2 ⟨hu.letters, hv.letters⟩⟩
  · rw [runs_append_of_head hhead]
    exact List.forall_mem_append.2 ⟨hu.tidy, hv.tidy⟩
  · refine List.isChain_append.2 ⟨hu.apart, hv.apart, fun c _ d hd hnumeric => ?_⟩
    rw [hhead d hd] at hnumeric
    cases hnumeric

theorem push (h : TidyNumerals t) {c : Char} (hc : isBoundary c = true) :
    TidyNumerals (t ++ [c]) := by
  have hnumeric := isNumeric_of_isBoundary hc
  refine h.append ⟨?_, .singleton c, ?_⟩ (by simpa using hnumeric)
  · rw [runs_cons_symbol hnumeric]
    exact List.forall_mem_nil _
  · exact List.forall_mem_singleton.2 (Or.inr hc)

/-- A tidy numeral at the end. -/
theorem append_numeral {u s : Text} (h : TidyNumerals u)
    (hu : ∀ c ∈ u.getLast?, isNumeric c = false ∧ c ≠ ')' ∧ c ≠ '%') (hs : IsTidy s) :
    TidyNumerals (u ++ s) := by
  refine ⟨?_, ?_, List.forall_mem_append.2 ⟨h.letters, fun c hc => Or.inl (hs.isNumeric c hc)⟩⟩
  · rw [runs_append_numeral (fun c hc => (hu c hc).1) hs.isNumeric hs.ne_nil]
    exact List.forall_mem_append.2 ⟨h.tidy, List.forall_mem_singleton.2 hs⟩
  · refine List.isChain_append.2 ⟨h.apart, ?_, fun c hc _ _ _ => (hu c hc).2⟩
    refine List.Pairwise.isChain (List.pairwise_of_forall_mem_list fun c hc _ _ _ => ?_)
    constructor <;> rintro rfl <;> exact absurd (hs.isNumeric _ hc) (by decide)

/-- What stands before the numeral at the end, and that numeral if there is one. -/
theorem of_append {u s : Text} (h : TidyNumerals (u ++ s))
    (hu : ∀ c ∈ u.getLast?, isNumeric c = false) (hs : ∀ c ∈ s, isNumeric c = true) :
    TidyNumerals u ∧ (s ≠ [] → IsTidy s) := by
  have htidy := h.tidy
  rw [runs_append_of_getLast hu, List.forall_mem_append] at htidy
  refine ⟨⟨htidy.1, (List.isChain_append.1 h.apart).1, (List.forall_mem_append.1 h.letters).1⟩, ?_⟩
  intro hne
  rw [runs_of_numeric hne hs] at htidy
  exact htidy.2 s (List.mem_singleton_self s)

/-- The last character is taken away. -/
theorem cut {c : Char} (h : TidyNumerals (t ++ [c])) : TidyNumerals t := by
  cases hc : isNumeric c with
  | false => exact (h.of_symbol hc).1
  | true =>
      obtain ⟨u, s, rfl, hu, hs⟩ := exists_cut t
      have hsc : ∀ x ∈ s ++ [c], isNumeric x = true :=
        List.forall_mem_append.2 ⟨hs, List.forall_mem_singleton.2 hc⟩
      obtain ⟨hleft, -⟩ := List.isChain_append.1 h.apart
      rw [List.append_assoc] at h
      obtain ⟨hbefore, htidy⟩ := h.of_append hu hsc
      rcases (htidy (by simp)).dropLast with rfl | hs'
      · rwa [List.append_nil]
      · refine ⟨?_, hleft, (List.forall_mem_append.1 (List.append_assoc u s [c] ▸ h.letters)).1⟩
        rw [runs_append_numeral hu hs hs'.ne_nil]
        exact List.forall_mem_append.2 ⟨hbefore.tidy, List.forall_mem_singleton.2 hs'⟩

theorem dropLast (h : TidyNumerals t) : TidyNumerals t.dropLast := by
  rcases List.eq_nil_or_concat' t with rfl | ⟨t, c, rfl⟩
  · exact nil
  · rw [List.dropLast_concat]
    exact h.cut

theorem zero : TidyNumerals Text.zero :=
  nil.append_numeral (by simp) (.whole .zero)

/-- A minus sign in front belongs to no numeral. -/
theorem cons_minus (h : TidyNumerals t) : TidyNumerals ('-' :: t) := by
  refine ⟨?_, List.isChain_cons.2 ⟨fun _ _ _ => by decide, h.apart⟩,
    List.forall_mem_cons.2 ⟨by decide, h.letters⟩⟩
  rw [runs_cons_symbol (by decide)]
  exact h.tidy

theorem of_isTidy {n : Text} (hn : IsTidy n) (ht : t = n ∨ t = '-' :: n) : TidyNumerals t := by
  have h : TidyNumerals n := nil.append_numeral (by simp) hn
  rcases ht with rfl | rfl
  · exact h
  · exact h.cons_minus

/-- A repair takes away what stands between a numeral and a group, but no numeral
comes to stand behind another one by that. -/
theorem mends {w : Text} (h : TidyNumerals t) (hmends : Mends t w) : TidyNumerals w := by
  -- what stands behind a closed group begins no numeral
  have hbehind : ∀ {u v : Text}, TidyNumerals u → TidyNumerals (')' :: v) →
      TidyNumerals (u ++ v) := by
    intro u v hu hclosing
    obtain ⟨-, hv⟩ := of_symbol (u := []) hclosing (by decide)
    refine hu.append hv fun c hc => ?_
    have hapart := (List.isChain_cons.1 hclosing.apart).1 c hc
    exact eq_false_of_ne_true fun hnumeric => (hapart hnumeric).1 rfl
  cases hmends with
  | @repeated u v c hc =>
      have hnumeric := (isPlain_of_isOperator hc).1
      obtain ⟨hu, hv⟩ := h.of_symbol hnumeric
      exact hu.append hv (by simpa using hnumeric)
  | group u v =>
      obtain ⟨hu, hv⟩ := h.of_symbol (by decide)
      exact hbehind hu hv
  | @operand u v c hc =>
      obtain ⟨hu, hv⟩ := h.of_symbol (isPlain_of_isOperator hc).1
      exact hbehind hu (of_symbol (u := []) hv (by decide)).2
  | @percent u v d hd _ =>
      -- a percent sign has no numeral behind it
      have hapart := (List.isChain_append.1 h.apart).2.1
      exact absurd rfl ((List.isChain_cons_cons.1 hapart).1 (isNumeric_of_isDigit hd)).2
  | @start v c hc => exact (of_symbol (u := []) h (isPlain_of_isBlank hc).1).2
  | ending u _ => exact h.cut
  | close _ => exact h.push rfl

theorem fix {s : Suggestion} (hs : suggest t = some s) (h : TidyNumerals t) : TidyNumerals s.fix :=
  invariant_of_suggest zero (fun htidy hmends => htidy.mends hmends) hs h

theorem buffer_closeOperand (h : TidyNumerals t) :
    TidyNumerals (closeOperand t) ∧ ∀ c ∈ (closeOperand t).getLast?, c ≠ ')' ∧ c ≠ '%' := by
  unfold closeOperand
  split
  · exact ⟨h.push (by decide), by simp⟩
  · next hlast =>
      refine ⟨h, fun c hc => ⟨?_, ?_⟩⟩ <;> rintro rfl
      · exact hlast (Or.inl hc)
      · exact hlast (Or.inr hc)

/-- Digits and the point go on with a tidy numeral or begin one. -/
theorem buffer_typesNumeric (h : TidyNumerals t) (hlast : ∀ c ∈ t.getLast?, c ≠ ')' ∧ c ≠ '%')
    {g : Glyph} {s : Text} (hs : TypesNumeric t g s) : TidyNumerals s := by
  obtain ⟨u, n, rfl, hu, hn⟩ := exists_cut t
  -- the numeral being typed, and where it stands
  have hboundary : ∀ c ∈ u.getLast?, isBoundary c = true := by
    intro c hc
    have hmem : c ∈ u ++ n := List.mem_append_left n (List.mem_of_mem_getLast? hc)
    exact (h.letters c hmem).resolve_left (by rw [hu c hc]; exact Bool.false_ne_true)
  have hsegment : activeSegment (u ++ n) = n := activeSegment_append hboundary hn
  obtain ⟨hbefore, htidy⟩ := h.of_append hu hn
  have hend : ∀ c ∈ u.getLast?, isNumeric c = false ∧ c ≠ ')' ∧ c ≠ '%' := by
    refine fun c hc => ⟨hu c hc, ?_⟩
    cases n with
    | nil => exact hlast c (by rwa [List.append_nil])
    | cons d n =>
        obtain ⟨-, -, hcut⟩ := List.isChain_append.1 h.apart
        exact hcut c hc d rfl (hn d (List.mem_cons_self ..))
  have htyped : ∀ {w : Text}, IsTidy (n ++ w) → TidyNumerals (u ++ n ++ w) := by
    intro w hw
    rw [List.append_assoc]
    exact hbefore.append_numeral hend hw
  cases hs with
  | pointFirst hnil =>
      rw [hsegment] at hnil
      subst hnil
      exact htyped (.point .zero (List.forall_mem_nil _))
  | point hne hpoint =>
      rw [hsegment] at hne hpoint
      exact htyped ((htidy hne).push_point hpoint)
  | zeroFirst hnil =>
      rw [hsegment] at hnil
      subst hnil
      exact htyped (.whole .zero)
  | digits hdigits hzero hzeros =>
      rw [hsegment] at hzero hzeros
      refine htyped ?_
      by_cases hne : n = []
      · subst hne
        refine isTidy_text_of_isZeros hdigits (eq_false_of_ne_true fun htrue => ?_)
        exact absurd rfl (hzeros htrue)
      · exact (htidy hne).append hzero (isDigits_iff.1 hdigits).2
  | replace hdigits hzeros hzero =>
      rw [hsegment] at hzero
      subst hzero
      have hcut : (u ++ Text.zero).dropLast = u := List.dropLast_concat
      rw [hcut]
      exact hbefore.append_numeral hend (isTidy_text_of_isZeros hdigits hzeros)

theorem buffer_append (h : TidyNumerals t) {g : Glyph} {s : Text} (hs : Appends t g s) :
    TidyNumerals s := by
  have hglyph : ∀ op : Operator, isBoundary op.glyph = true := fun op =>
    isBoundary_of_isOperator (isOperator_glyph op)
  cases hs with
  | refused => exact h
  | @replace op _ => exact h.dropLast.push (hglyph op)
  | @operator op _ _ => exact h.push (hglyph op)
  | percent _ => exact h.push (by decide)
  | numeric hs =>
      obtain ⟨hclosed, hlast⟩ := h.buffer_closeOperand
      exact hclosed.buffer_typesNumeric hlast hs

theorem buffer_toggleGroup (h : TidyNumerals t) {s : Text} (hs : Toggles t s) :
    TidyNumerals s := by
  cases hs with
  | closing _ _ => exact h.push (by decide)
  | refused => exact h
  | first => exact nil.push rfl
  | factor => exact (h.push (by decide)).push (by decide)
  | opening _ _ => exact h.push (by decide)

theorem buffer_backspace (h : TidyNumerals t) : TidyNumerals (backspace t) := by
  unfold backspace Text.orZero
  split
  · exact zero
  · exact h.dropLast

theorem buffer_toggleSign (h : TidyNumerals t) : TidyNumerals (toggleSign t) := by
  unfold toggleSign
  split
  · exact h
  · split
    · exact (of_symbol (u := []) h (by decide)).2
    · exact h.cons_minus

/-- Every edit keeps the numerals tidy, but for an answer that is inserted and a text
that is loaded. -/
theorem invariant :
    Buffer.Invariant (fun a => a ≠ .insertAnswer ∧ ∀ x : Text, a ≠ .load x) TidyNumerals where
  zero := zero
  opening := nil.push rfl
  result hv := by
    obtain ⟨n, hn, hresult⟩ := exists_isTidy_of_resultText hv
    exact of_isTidy hn hresult
  append g h := h.buffer_append (appends_append _ g)
  toggleGroup h := h.buffer_toggleGroup (toggles_toggleGroup _)
  backspace h := h.buffer_backspace
  toggleSign _ h := h.buffer_toggleSign
  insertAnswer hallowed := absurd rfl hallowed.1
  fix _ hs h := h.fix hs
  load hallowed := absurd rfl (hallowed.2 _)

end TidyNumerals

/-- In every session without an inserted answer and without a loaded expression every
numeral of the buffer is tidy, so that the fault of two points never occurs. -/
theorem tidy_run {actions : List Action}
    (h : ∀ a ∈ actions, a ≠ .insertAnswer ∧ ∀ x : Text, a ≠ .load x) :
    let e := ({} : Editor).run actions
    (∀ r ∈ runs e.buffer, IsTidy r) ∧
      evaluate e.buffer ≠ .error .decimalPoint ∧
      ∀ r : Report, e.commit.1.report? = some r → r.fault ≠ .decimalPoint := by
  intro e
  have htidy : ∀ r ∈ runs e.buffer, IsTidy r := (TidyNumerals.invariant.run h).tidy
  have hvalue : evaluate e.buffer ≠ .error .decimalPoint := by
    intro hfault
    obtain ⟨r, hr, hlt⟩ := exists_run_of_decimalPoint hfault
    exact absurd (htidy r hr).count_point_le (not_le.2 hlt)
  refine ⟨htidy, hvalue, fun r hr hfault => hvalue ?_⟩
  have hcoherent : e.Coherent := Editor.Coherent.new.run actions
  rw [(hcoherent.of_commit_report? hr).1, hfault]

/-- A second point is not typed behind `0.5`. -/
theorem isTidy_after_second_point :
    (({} : Editor).run [.append .point, .append (.digit 5), .append .point]).buffer =
        ['0', '.', '5'] ∧
      IsTidy ['0', '.', '5'] ∧ evaluate ['0', '.', '5'] ≠ .error .decimalPoint := by
  have hallowed : ∀ a ∈ [Action.append .point, .append (.digit 5), .append .point],
      a ≠ .insertAnswer ∧ ∀ x : Text, a ≠ .load x := by simp
  obtain ⟨htidy, hvalue, -⟩ := tidy_run hallowed
  exact ⟨rfl, htidy _ (List.mem_singleton_self _), hvalue⟩

end Calculator
