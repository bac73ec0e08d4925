import Calculator.Proofs.Typing.Standing

/-!
# Edits of a text that is being typed

Every edit of the buffer leads from a text that is read to its end to another
one, but for three: an operator in place of a sign, a group behind a point, and
an answer that does not fit (`AnswerClashes`). These are read no further by any
reader.
-/

namespace Calculator

open Buffer
open Position (origin run? Advances)

/-- No reader goes on. -/
def Stuck (t : Text) : Prop :=
  run? true origin t = none

theorem Stands.stuck {s : Text} {p : Position} (h : Stands s p) {c : Char}
    (hc : Position.advance? true p c = none) (rest : Text) : Stuck (s ++ c :: rest) := by
  rw [Stuck, Position.run?_append_of_eq (Position.run?_loose h), Position.run?_cons, hc]
  rfl

theorem Stands.digits {t w : Text} {p : Position} (h : Stands t p) {q : Phase}
    (hq : p.phase.digit? = some q) (hw : isDigits w = true) :
    ∃ r : Position, Stands (t ++ w) r := by
  obtain ⟨hne, hdigits⟩ := isDigits_iff.1 hw
  exact ⟨⟨q, p.depth⟩, (h.append w).2 (Position.run?_digits_of_ne_nil hq p.depth hdigits hne)⟩

/-- A plain number is read where a primary is due. -/
theorem run?_plain {loose : Bool} {n : Text} (hn : IsPlainNumber n) {p : Phase}
    (hp : p.isDue = true) (d : Nat) :
    ∃ q : Phase, run? loose ⟨p, d⟩ n = some ⟨q, d⟩ := by
  have hwhole : p.digit? = some .whole := by cases p <;> first | rfl | cases hp
  cases hn with
  | whole hw =>
      obtain ⟨hne, hdigits⟩ := isDigits_iff.1 hw
      exact ⟨.whole, Position.run?_digits_of_ne_nil hwhole d hdigits hne⟩
  | @fraction w f hw hf =>
      obtain ⟨hne, hdigits⟩ := isDigits_iff.1 hw
      refine ⟨.fraction, ?_⟩
      rw [Position.run?_append_of_eq (Position.run?_digits_of_ne_nil hwhole d hdigits hne),
        Position.run?_cons_of_advances (.point rfl)]
      exact Position.run?_digits rfl d (isDigits_iff.1 hf).2

/-- A bare number is read where an operand is due. -/
theorem run?_bare {loose : Bool} {b : Text} (hb : isBareNumber b = true) (d : Nat) :
    ∃ q : Phase, run? loose ⟨.start, d⟩ b = some ⟨q, d⟩ := by
  obtain ⟨n, hn, rfl | rfl⟩ := exists_of_isBareNumber hb
  · exact run?_plain hn rfl d
  · rw [Position.run?_cons_of_advances .sign]
    exact run?_plain hn rfl d

theorem exists_stands_bare {b : Text} (hb : isBareNumber b = true) :
    ∃ p : Position, Stands b p := by
  obtain ⟨q, hq⟩ := run?_bare hb 0
  exact ⟨⟨q, 0⟩, hq⟩

theorem isOperator_minus : isOperator '-' = true := rfl

theorem appendOperator_append_singleton (s : Text) (c : Char) (op : Operator) :
    appendOperator (s ++ [c]) op =
      if isOperator c then s ++ [op.glyph]
      else if c = '(' then s ++ [c] else s ++ [c] ++ [op.glyph] := by
  simp [appendOperator]

theorem stands_appendOperator {t : Text} {p : Position} (h : Stands t p) (hne : t ≠ [])
    {op : Operator} (hsign : op = .minus ∨ endsWithSign t = false) :
    ∃ q : Position, Stands (appendOperator t op) q := by
  obtain ⟨s, c, rfl⟩ := (List.eq_nil_or_concat' t).resolve_left hne
  obtain ⟨r, hr, hstep⟩ := stands_append_singleton.1 h
  have hends : p.phase.isEnd = true → isOperator c = false → c ≠ '(' →
      ∃ q : Position, Stands (appendOperator (s ++ [c]) op) q := by
    intro hend hoperator hopening
    rw [appendOperator_append_singleton, if_neg (by simp [hoperator]), if_neg hopening]
    exact ⟨_, h.push (.operator op hend)⟩
  cases hstep with
  | digit hc hq =>
      refine hends ?_ (isOperator_of_isNumeric (isNumeric_of_isDigit hc)) ?_
      · rcases Phase.eq_of_digit? hq with rfl | rfl <;> rfl
      · rintro rfl
        cases hc
  | point hq => exact hends (by rw [(Phase.eq_of_point? hq).2]; rfl) rfl (by decide)
  | closing hend => exact hends rfl rfl (by decide)
  | percent hend => exact hends rfl rfl (by decide)
  | opening hdue =>
      rw [appendOperator_append_singleton, if_neg (by decide), if_pos rfl]
      exact ⟨_, h⟩
  | operator op' hend =>
      rw [appendOperator_append_singleton, if_pos (isOperator_glyph op')]
      exact ⟨_, hr.push (.operator op hend)⟩
  | sign =>
      have htrue := (endsWithSign_iff h).2 rfl
      rw [htrue] at hsign
      obtain rfl : op = .minus := hsign.resolve_right Bool.noConfusion
      rw [appendOperator_append_singleton, if_pos isOperator_minus]
      exact ⟨_, h⟩

/-- An operator in place of a sign stands where an operand is due. -/
theorem stuck_appendOperator {t : Text} {p : Position} (h : Stands t p) {op : Operator}
    (hop : op ≠ .minus) (hsign : endsWithSign t = true) : Stuck (appendOperator t op) := by
  have hphase := (endsWithSign_iff h).1 hsign
  rcases List.eq_nil_or_concat' t with rfl | ⟨s, c, rfl⟩
  · cases h
    cases hphase
  · obtain ⟨r, hr, hstep⟩ := stands_append_singleton.1 h
    cases hstep with
    | sign =>
        rw [appendOperator_append_singleton, if_pos isOperator_minus]
        refine hr.stuck ?_ []
        cases op <;> first | rfl | exact absurd rfl hop
    | digit hc hq => rcases Phase.eq_of_digit? hq with rfl | rfl <;> cases hphase
    | point hq => rw [(Phase.eq_of_point? hq).2] at hphase; cases hphase
    | _ => cases hphase

theorem closeOperand_append_singleton (s : Text) (c : Char) :
    closeOperand (s ++ [c]) = if c = ')' ∨ c = '%' then s ++ [c] ++ ['×'] else s ++ [c] := by
  simp [closeOperand]

theorem stands_closeOperand {t : Text} {p : Position} (h : Stands t p) :
    ∃ q : Position, Stands (closeOperand t) q ∧ q.phase ≠ .closed := by
  rcases List.eq_nil_or_concat' t with rfl | ⟨s, c, rfl⟩
  · exact ⟨p, h, by cases h; decide⟩
  · obtain ⟨r, hr, hstep⟩ := stands_append_singleton.1 h
    rw [closeOperand_append_singleton]
    cases hstep with
    | digit hc hq =>
        rw [if_neg]
        · exact ⟨_, h, by rcases Phase.eq_of_digit? hq with rfl | rfl <;> exact Phase.noConfusion⟩
        · rintro (rfl | rfl) <;> cases hc
    | point hq =>
        rw [if_neg (by decide)]
        exact ⟨_, h, by rw [(Phase.eq_of_point? hq).2]; exact Phase.noConfusion⟩
    | opening hdue =>
        rw [if_neg (by decide)]
        exact ⟨_, h, Phase.noConfusion⟩
    | closing hend =>
        rw [if_pos (Or.inl rfl)]
        exact ⟨_, h.push (.operator .times rfl), Phase.noConfusion⟩
    | percent hend =>
        rw [if_pos (Or.inr rfl)]
        exact ⟨_, h.push (.operator .times rfl), Phase.noConfusion⟩
    | operator op hend =>
        rw [if_neg (by cases op <;> decide)]
        exact ⟨_, h, Phase.noConfusion⟩
    | sign =>
        rw [if_neg (by decide)]
        exact ⟨_, h, Phase.noConfusion⟩

theorem isDigits_zero : isDigits ['0'] = true := rfl

/-- The last digit of a text can be replaced. -/
theorem Stands.replace {t w : Text} {p : Position} (h : Stands t p)
    (hlast : t.getLast? = some '0') (hw : isDigits w = true) :
    ∃ r : Position, Stands (t.dropLast ++ w) r := by
  obtain ⟨s, rfl⟩ := List.getLast?_eq_some_iff.1 hlast
  obtain ⟨r, hr, hstep⟩ := stands_append_singleton.1 h
  obtain ⟨q, hq⟩ := hstep.exists_digit? rfl
  rw [List.dropLast_concat]
  exact hr.digits hq hw

/-- Digits and the point are typed into a numeral or begin one. -/
theorem stands_appendNumeric? {t s : Text} {p : Position} (h : Stands t p)
    (hp : p.phase ≠ .closed) {g : Glyph} (hg : g.canStart = true)
    (hs : appendNumeric? t g = some s) : ∃ q : Position, Stands s q := by
  have hsegment := segment_of_stands h
  obtain ⟨q, hq⟩ := Phase.exists_digit? hp
  cases typesNumeric_of_appendNumeric? hg hs with
  | pointFirst hnil =>
      have hzero : p.phase.digit? = some .whole := by
        cases hphase : p.phase with
        | start => rfl
        | signed => rfl
        | closed => exact absurd hphase hp
        | whole => rw [hphase] at hsegment; exact absurd hnil hsegment.1
        | point => rw [hphase, hnil] at hsegment; cases hsegment
        | fraction => rw [hphase, hnil] at hsegment; cases hsegment
      refine ⟨⟨.fraction, p.depth⟩, (h.append ['0', '.']).2 ?_⟩
      rw [Position.run?_cons_of_advances (.digit rfl hzero),
        Position.run?_cons_of_advances (.point rfl)]
      rfl
  | point hne hpoint =>
      have hwhole : p.phase = .whole := by
        cases hphase : p.phase with
        | whole => rfl
        | closed => exact absurd hphase hp
        | start => rw [hphase] at hsegment; exact absurd hsegment hne
        | signed => rw [hphase] at hsegment; exact absurd hsegment hne
        | point => rw [hphase] at hsegment; exact absurd hsegment hpoint
        | fraction => rw [hphase] at hsegment; exact absurd hsegment hpoint
      obtain ⟨phase, d⟩ := p
      cases hwhole
      exact ⟨_, h.push (.point rfl)⟩
  | zeroFirst _ => exact h.digits hq isDigits_zero
  | digits hdigits _ _ => exact h.digits hq hdigits
  | replace hdigits _ hzero =>
      have hlast : t.getLast? = some '0' := getLast?_of_activeSegment (by rw [hzero]; rfl)
      exact h.replace hlast hdigits

/-- A percent sign is allowed behind an operand only. -/
theorem isEnd_of_percentAllowed {t : Text} {p : Position} (h : Stands t p)
    (hallowed : percentAllowed t = true) : p.phase.isEnd = true := by
  refine isEnd_of_stands h ?_
  rcases Bool.or_eq_true_iff.1 hallowed with hlast | hsegment
  · have hne : t ≠ [] := by
      rintro rfl
      cases hlast
    have hdue : operandDue t = false := by
      rw [operandDue, eq_of_beq hlast]
      rfl
    rw [← operandDue_of_stands h hne, hdue]
  · have hne : activeSegment t ≠ [] := bne_iff_ne.1 (Bool.and_eq_true_iff.1 hsegment).1
    have hfits := segment_of_stands h
    cases hphase : p.phase with
    | start => rw [hphase] at hfits; exact absurd hfits hne
    | signed => rw [hphase] at hfits; exact absurd hfits hne
    | _ => rfl

/-- A glyph is written; an operator may not take the place of a sign. -/
theorem stands_append {t : Text} {p : Position} (h : Stands t p) (hne : t ≠ []) {g : Glyph}
    (hsign : ∀ op : Operator, g = .operator op → op = .minus ∨ endsWithSign t = false) :
    ∃ q : Position, Stands (append t g) q := by
  have hnumeric : g.canStart = true →
      ∃ q : Position, Stands ((appendNumeric? (closeOperand t) g).getD t) q := by
    intro hg
    obtain ⟨q, hq, hclosed⟩ := stands_closeOperand h
    cases hs : appendNumeric? (closeOperand t) g with
    | none => exact ⟨p, h⟩
    | some s => exact stands_appendNumeric? hq hclosed hg hs
  cases g with
  | operator op => exact stands_appendOperator h hne (hsign op rfl)
  | percent =>
      change ∃ q : Position, Stands (if percentAllowed t = true then t ++ ['%'] else t) q
      split
      · next hallowed => exact ⟨_, h.push (.percent (isEnd_of_percentAllowed h hallowed))⟩
      · exact ⟨p, h⟩
  | digit n => exact hnumeric rfl
  | doubleZero => exact hnumeric rfl
  | tripleZero => exact hnumeric rfl
  | point => exact hnumeric rfl

/-- A group is closed or opened; a point may not stand before the one that is
opened. -/
theorem stands_toggleGroup {t : Text} {p : Position} (h : Stands t p) (hne : t ≠ [])
    (hpoint : t.getLast? = some '.' → hasOpenGroup t = true) :
    ∃ q : Position, Stands (toggleGroup t) q := by
  have hdue := operandDue_of_stands h hne
  unfold toggleGroup
  split
  · next hclose =>
      obtain ⟨hopen, hnotdue⟩ := Bool.and_eq_true_iff.1 hclose
      have hdepth := (hasOpenGroup_iff h).1 hopen
      have hend : p.phase.isEnd = true := by
        refine isEnd_of_stands h ?_
        rw [← hdue]
        simpa using hnotdue
      obtain ⟨phase, _ | d⟩ := p
      · exact absurd hdepth (Nat.lt_irrefl 0)
      · exact ⟨_, h.push (.closing hend)⟩
  · next hopen =>
      split
      · exact ⟨p, h⟩
      · split
        · exact ⟨⟨.start, 1⟩, rfl⟩
        · obtain ⟨s, c, rfl⟩ := (List.eq_nil_or_concat' t).resolve_left hne
          rw [List.getLast?_concat, Option.any_some]
          split
          · next hlast =>
              have hend := isEnd_of_last h (by simpa [or_assoc] using hlast)
              rw [List.append_cons]
              exact ⟨_, (h.push (.operator .times hend)).push (.opening rfl)⟩
          · next hlast =>
              have hdue : p.phase.isDue = true := by
                obtain ⟨r, hr, hstep⟩ := stands_append_singleton.1 h
                cases hstep with
                | digit hc hq => simp [hc] at hlast
                | point hq =>
                    refine absurd ?_ hopen
                    rw [hpoint (by simp), operandDue_append_singleton]
                    rfl
                | closing hend => simp at hlast
                | percent hend => simp at hlast
                | _ => rfl
              exact ⟨_, h.push (.opening hdue)⟩

/-- A group does not open behind a point. -/
theorem stuck_toggleGroup {t : Text} {p : Position} (h : Stands t p)
    (hlast : t.getLast? = some '.') (hopen : hasOpenGroup t = false) : Stuck (toggleGroup t) := by
  have htoggle : toggleGroup t = t ++ ['('] := by
    rcases List.eq_nil_or_concat' t with rfl | ⟨s, c, rfl⟩
    · cases hlast
    · obtain rfl : c = '.' := by simpa using hlast
      have hzero : s ++ ['.'] ≠ Text.zero := by
        intro heq
        simpa [Text.zero] using congrArg List.getLast? heq
      simp [toggleGroup, hopen, maxOpenings, Text.takeEndWhile_append_singleton, hzero]
  obtain ⟨r, hstep⟩ := exists_advances_of_getLast? h hlast
  have hphase := hstep.phase_point
  obtain ⟨phase, d⟩ := p
  cases hphase
  rw [htoggle]
  exact h.stuck rfl []

/-- The answer does not fit behind the text: a numeral cannot follow a percent
sign or take a second point, and a sign takes no other one. -/
def AnswerClashes (t answer : Text) : Prop :=
  t.getLast? = some '%' ∧ answer.head? ≠ some '-' ∨
    t.getLast? = some '.' ∧ answer.head? ≠ some '-' ∧ '.' ∈ answer ∨
    endsWithSign t = true ∧ answer.head? = some '-'

theorem IsPlainNumber.head?_ne {n : Text} (hn : IsPlainNumber n) : n.head? ≠ some '-' := by
  obtain ⟨c, rest, rfl, hc⟩ := hn.exists_cons
  intro heq
  exact ne_minus_of_isDigit hc (Option.some.inj heq)

/-- Behind an operand the sign of a number is an operator. -/
theorem run?_negative {loose : Bool} {n : Text} (hn : IsPlainNumber n) {p : Phase}
    (hp : p.isEnd = true) (d : Nat) :
    ∃ q : Phase, run? loose ⟨p, d⟩ ('-' :: n) = some ⟨q, d⟩ := by
  have hminus : Advances loose ⟨p, d⟩ '-' ⟨.start, d⟩ := .operator .minus hp
  rw [Position.run?_cons_of_advances hminus]
  exact run?_plain hn rfl d

theorem stands_insertAnswer {t answer : Text} {p : Position} (h : Stands t p) (hne : t ≠ [])
    (hanswer : isBareNumber answer = true) (hfits : ¬AnswerClashes t answer) :
    ∃ q : Position, Stands (insertAnswer t answer) q := by
  have hgoes : ∀ {p : Position} {t s : Text}, Stands t p →
      (∃ q : Phase, run? false p s = some ⟨q, p.depth⟩) → ∃ q : Position, Stands (t ++ s) q := by
    rintro p t s h ⟨q, hq⟩
    exact ⟨_, (h.append s).2 hq⟩
  obtain ⟨s, c, rfl⟩ := (List.eq_nil_or_concat' t).resolve_left hne
  obtain ⟨r, hr, hstep⟩ := stands_append_singleton.1 h
  unfold insertAnswer
  split
  · exact exists_stands_bare hanswer
  · rw [List.getLast?_concat, Option.any_some]
    split
    · next hlast =>
        have hend : p.phase.isEnd = true := by
          refine isEnd_of_last h ?_
          rcases Bool.or_eq_true_iff.1 hlast with hc | hc
          · exact Or.inl hc
          · exact Or.inr (Or.inl (eq_of_beq hc))
        rw [List.append_cons]
        exact hgoes (h.push (.operator .times hend)) (run?_bare hanswer p.depth)
    · next hlast =>
        refine hgoes h ?_
        cases hstep with
        | digit hc hq => simp [hc] at hlast
        | closing hend => simp at hlast
        | opening hdue => exact run?_bare hanswer _
        | operator op hend => exact run?_bare hanswer _
        | point hq =>
            have hphase := (Phase.eq_of_point? hq).2
            obtain ⟨n, hn, rfl | rfl⟩ := exists_of_isBareNumber hanswer
            · cases hn with
              | whole hw =>
                  rw [hphase]
                  exact ⟨_, Position.run?_digits rfl _ (isDigits_iff.1 hw).2⟩
              | fraction hw hf =>
                  refine absurd (Or.inr (Or.inl ⟨by simp, ?_, by simp⟩)) hfits
                  exact IsPlainNumber.head?_ne (.fraction hw hf)
            · exact run?_negative hn (by rw [hphase]; rfl) _
        | percent hend =>
            obtain ⟨n, hn, rfl | rfl⟩ := exists_of_isBareNumber hanswer
            · exact absurd (Or.inl ⟨by simp, hn.head?_ne⟩) hfits
            · exact run?_negative hn rfl _
        | sign =>
            obtain ⟨n, hn, rfl | rfl⟩ := exists_of_isBareNumber hanswer
            · exact run?_plain hn rfl _
            · exact absurd (Or.inr (Or.inr ⟨(endsWithSign_iff h).2 rfl, rfl⟩)) hfits

/-- An answer that clashes with the text is read by no reader. -/
theorem stuck_insertAnswer {t answer : Text} {p : Position} (h : Stands t p)
    (hanswer : isBareNumber answer = true) (hclash : AnswerClashes t answer) :
    Stuck (insertAnswer t answer) := by
  have hinsert : ∀ c : Char, t.getLast? = some c → c.isDigit = false → c ≠ ')' →
      insertAnswer t answer = t ++ answer := by
    intro c hlast hc hclosing
    have hzero : t ≠ Text.zero := by
      rintro rfl
      cases hlast
      cases hc
    simp [insertAnswer, hlast, hc, hclosing, hzero]
  obtain ⟨n, hn, hsign⟩ := exists_of_isBareNumber hanswer
  rcases hclash with ⟨hlast, hhead⟩ | ⟨hlast, hhead, hpoint⟩ | ⟨hlast, hhead⟩
  · obtain ⟨r, hstep⟩ := exists_advances_of_getLast? h hlast
    have hphase := hstep.phase_percent
    obtain rfl : answer = n := hsign.resolve_right fun heq => hhead (heq ▸ rfl)
    obtain ⟨c, rest, rfl, hc⟩ := hn.exists_cons
    rw [hinsert _ hlast rfl (by decide)]
    refine h.stuck ?_ rest
    rw [Position.advance?, if_pos hc, hphase]
    rfl
  · obtain ⟨r, hstep⟩ := exists_advances_of_getLast? h hlast
    have hphase := hstep.phase_point
    obtain rfl : answer = n := hsign.resolve_right fun heq => hhead (heq ▸ rfl)
    rw [hinsert _ hlast rfl (by decide)]
    cases hn with
    | whole hw => exact absurd rfl (ne_point_of_isDigit ((isDigits_iff.1 hw).2 _ hpoint))
    | @fraction w f hw hf =>
        obtain ⟨phase, d⟩ := p
        cases hphase
        have hdigits := (isDigits_iff.1 hw).2
        have hw : Stands (t ++ w) ⟨.fraction, d⟩ :=
          (h.append w).2 (Position.run?_digits rfl d hdigits)
        rw [← List.append_assoc]
        exact hw.stuck rfl f
  · have hphase := (endsWithSign_iff h).1 hlast
    have hminus : t.getLast? = some '-' := eq_of_beq (Bool.and_eq_true_iff.1 hlast).1
    obtain rfl : answer = '-' :: n :=
      hsign.resolve_left fun heq => hn.head?_ne (heq ▸ hhead)
    obtain ⟨phase, d⟩ := p
    cases hphase
    rw [hinsert _ hminus rfl (by decide)]
    exact h.stuck rfl n

end Calculator
