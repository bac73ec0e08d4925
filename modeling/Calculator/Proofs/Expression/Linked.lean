import Calculator.Proofs.Decimal.BareNumber
import Calculator.Proofs.Expression.Respelling

/-!
# Neighbours in an expression

What may stand behind a character of an expression that is typed is told by that
character alone (`Follows`), and a text in which all neighbours are such is linked
(`Linked`). A linked text begins as if an opening parenthesis stood in front of it. So
it is cut anywhere by looking at the last character of its first part
(`linked_append`). Writing it anew keeps it linked (`Linked.respells`), because what is
written in place of a character bears the same neighbours as that character did
(`Follows.replace`).
-/

namespace Calculator

open Buffer (isDigits isBareNumber)

/-- An operand is due behind the character. -/
def AwaitsOperand (c : Char) : Prop :=
  c = '(' ∨ isOperator c = true

instance (c : Char) : Decidable (AwaitsOperand c) :=
  inferInstanceAs (Decidable (_ ∨ _))

/-- What may stand behind the character `c`. A digit, an operator and an opening
parenthesis may stand anywhere. -/
inductive Follows (c : Char) : Char → Prop
  | digit {d : Char} : d.isDigit = true → Follows c d
  | point : isNumeric c = true → Follows c '.'
  | percent : isNumeric c = true ∨ c = ')' → Follows c '%'
  | opening : Follows c '('
  | closing : ¬AwaitsOperand c → Follows c ')'
  | operator {d : Char} : isOperator d = true → Follows c d

/-- All neighbours of the text may stand next to each other, and its first character
may stand behind an opening parenthesis. -/
def Linked (t : Text) : Prop :=
  ('(' :: t).IsChain Follows

theorem isOperator_canonicalChar (c : Char) : isOperator (canonicalChar c) = isOperator c := by
  unfold canonicalChar
  split <;> rfl

theorem awaitsOperand_canonicalChar {c : Char} (h : AwaitsOperand (canonicalChar c)) :
    AwaitsOperand c := by
  unfold AwaitsOperand at h
  rw [isOperator_canonicalChar] at h
  rcases h with h | h
  · rcases canonicalChar_cases c with heq | heq | heq
    · exact Or.inl (heq ▸ h)
    · rw [heq] at h
      cases h
    · rw [heq] at h
      cases h
  · exact Or.inr h

namespace Follows

variable {c d : Char}

/-- A numeral begins with a digit. -/
theorem isDigit (h : Follows c d) (hc : isNumeric c = false) (hd : isNumeric d = true) :
    d.isDigit = true := by
  cases h with
  | digit hdigit => exact hdigit
  | point hnumeric => rw [hc] at hnumeric; cases hnumeric
  | percent _ => cases hd
  | opening => cases hd
  | closing _ => cases hd
  | operator hoperator => rw [isOperator_of_isNumeric hd] at hoperator; cases hoperator

theorem before_percent (h : Follows c '%') : isNumeric c = true ∨ c = ')' := by
  cases h with
  | percent hc => exact hc
  | digit hdigit => cases hdigit
  | operator hoperator => cases hoperator

theorem before_closing (h : Follows c ')') : ¬AwaitsOperand c := by
  cases h with
  | closing hc => exact hc
  | digit hdigit => cases hdigit
  | operator hoperator => cases hoperator

/-- A character in place of another one bears what may stand behind that one, if it
goes on with a numeral or a group where that one did, and awaits an operand only where
that one did. -/
theorem replace {e : Char} (h : Follows c d) (hnumeric : isNumeric c = true → isNumeric e = true)
    (hgroup : c = ')' → e = ')') (hdue : AwaitsOperand e → AwaitsOperand c) : Follows e d := by
  cases h with
  | digit hdigit => exact .digit hdigit
  | point hc => exact .point (hnumeric hc)
  | percent hc => exact .percent (hc.imp hnumeric hgroup)
  | opening => exact .opening
  | closing hc => exact .closing fun he => hc (hdue he)
  | operator hoperator => exact .operator hoperator

/-- The canonical spelling of a character may stand where the character may. -/
theorem respell (h : Follows c d) : Follows c (canonicalChar d) := by
  rcases canonicalChar_cases d with heq | heq | heq
  · rwa [heq]
  · rw [heq]
    exact .operator rfl
  · rw [heq]
    exact .operator rfl

end Follows

/-- The first character of a linked text is replaced. -/
theorem isChain_replace {c e : Char} {t : Text} (h : (c :: t).IsChain Follows)
    (hnumeric : isNumeric c = true → isNumeric e = true) (hgroup : c = ')' → e = ')')
    (hdue : AwaitsOperand e → AwaitsOperand c) : (e :: t).IsChain Follows := by
  obtain ⟨hhead, htail⟩ := List.isChain_cons.1 h
  exact htail.cons fun d hd => (hhead d hd).replace hnumeric hgroup hdue

/-- A text is linked if its two parts are, the second one behind the last character of
the first one. -/
theorem linked_append {u v : Text} :
    Linked (u ++ v) ↔ Linked u ∧ (u.getLastD '(' :: v).IsChain Follows := by
  rcases List.eq_nil_or_concat' u with rfl | ⟨u, c, rfl⟩
  · exact ⟨fun h => ⟨.singleton _, h⟩, fun h => h.2⟩
  · rw [List.getLastD_concat, Linked, Linked, List.append_assoc, List.singleton_append,
      ← List.cons_append, List.isChain_split, List.cons_append]

/-- What is true of the last character, and of an opening parenthesis if there is none. -/
theorem getLastD_of_getLast? {p : Char → Prop} {u : Text} (hopening : p '(')
    (hu : ∀ c ∈ u.getLast?, p c) : p (u.getLastD '(') := by
  rw [List.getLastD_eq_getLast?]
  cases hlast : u.getLast? with
  | none => exact hopening
  | some c => exact hu c hlast

/-- The divisor that a percent sign is written as. -/
theorem isChain_hundred {t : Text} (h : ('0' :: t).IsChain Follows) :
    ('/' :: '1' :: '0' :: '0' :: t).IsChain Follows :=
  .cons_cons (.digit rfl) (.cons_cons (.digit rfl) (.cons_cons (.digit rfl) h))

namespace Linked

variable {t u v : Text}

theorem nil : Linked [] :=
  .singleton '('

theorem of_isPrefix (h : Linked t) (hu : u <+: t) : Linked u := by
  obtain ⟨v, rfl⟩ := hu
  exact (linked_append.1 h).1

theorem push (h : Linked t) {c : Char} (hc : Follows (t.getLastD '(') c) : Linked (t ++ [c]) :=
  linked_append.2 ⟨h, .cons_cons hc (.singleton c)⟩

theorem push_operator (h : Linked t) {c : Char} (hc : isOperator c = true) : Linked (t ++ [c]) :=
  h.push (.operator hc)

theorem append_digits (h : Linked t) {w : Text} (hw : ∀ c ∈ w, c.isDigit = true) :
    Linked (t ++ w) := by
  induction w using List.reverseRecOn with
  | nil => rwa [List.append_nil]
  | append_singleton w c ih =>
      obtain ⟨hw, hc⟩ := List.forall_mem_append.1 hw
      rw [← List.append_assoc]
      exact (ih hw).push (.digit (hc c (List.mem_singleton_self c)))

/-- A point behind a numeral. -/
theorem push_point (h : Linked t) (hlast : isNumeric (t.getLastD '(') = true) :
    Linked (t ++ ['.']) :=
  h.push (.point hlast)

theorem append_number (h : Linked t) {n : Text} (hn : IsPlainNumber n) : Linked (t ++ n) := by
  cases hn with
  | whole hw => exact h.append_digits (isDigits_iff.1 hw).2
  | @fraction w f hw hf =>
      have hwhole : Linked (t ++ w) := h.append_digits (isDigits_iff.1 hw).2
      obtain ⟨rest, c, rfl, hc⟩ := exists_append_of_isDigits hw
      have hlast : isNumeric ((t ++ (rest ++ [c])).getLastD '(') = true := by
        rw [← List.append_assoc, List.getLastD_concat]
        exact isNumeric_of_isDigit hc
      have hpoint : Linked (t ++ (rest ++ [c]) ++ ['.'] ++ f) :=
        (hwhole.push_point hlast).append_digits (isDigits_iff.1 hf).2
      simpa using hpoint

theorem append_bareNumber (h : Linked t) {n : Text} (hn : isBareNumber n = true) :
    Linked (t ++ n) := by
  obtain ⟨m, hm, rfl | rfl⟩ := exists_of_isBareNumber hn
  · exact h.append_number hm
  · have hsigned := (h.push_operator (c := '-') rfl).append_number hm
    rwa [List.append_assoc] at hsigned

theorem of_isBareNumber (ht : isBareNumber t = true) : Linked t :=
  nil.append_bareNumber ht

/-- A text that is written anew stays linked. -/
theorem respells {w : Text} (h : Linked t) (hstep : Respells t w) : Linked w := by
  cases hstep with
  | @literal u v r hu hr hliteral =>
      obtain ⟨hbefore, hchain⟩ := linked_append.1 h
      cases r with
      | nil => cases hliteral
      | cons d r =>
          obtain ⟨hd, hchain⟩ := List.isChain_cons_cons.1 hchain
          have hlast : isNumeric (u.getLastD '(') = false :=
            getLastD_of_getLast? (p := (isNumeric · = false)) rfl hu
          have hdigit : d.isDigit = true := hd.isDigit hlast (hr d (List.mem_cons_self ..))
          change ((d :: r) ++ '%' :: v).IsChain Follows at hchain
          obtain ⟨hrun, hpercent, -⟩ := List.isChain_append.1 hchain
          have hclosed : (')' :: v).IsChain Follows :=
            isChain_replace hpercent (by decide) (by decide) (by decide)
          have hquotient : ('/' :: '1' :: '0' :: '0' :: ')' :: v).IsChain Follows :=
            isChain_hundred (.cons_cons (.closing (by decide)) hclosed)
          refine linked_append.2 ⟨hbefore, .cons_cons .opening (.cons_cons (.digit hdigit) ?_)⟩
          refine List.isChain_append.2 ⟨hrun, hquotient, fun c _ e he => ?_⟩
          rw [← Option.some_inj.1 he]
          exact .operator rfl
  | group u v =>
      obtain ⟨hbefore, hchain⟩ := linked_append.1 h
      obtain ⟨hclosing, hpercent⟩ := List.isChain_cons_cons.1 hchain
      have hrest : ('0' :: v).IsChain Follows :=
        isChain_replace hpercent.tail (by decide) (by decide) (by decide)
      exact linked_append.2
        ⟨hbefore, .cons_cons hclosing (.cons_cons (.operator rfl) (isChain_hundred hrest))⟩
  | spelling u v c =>
      obtain ⟨hbefore, hchain⟩ := linked_append.1 h
      obtain ⟨hc, hrest⟩ := List.isChain_cons_cons.1 hchain
      refine linked_append.2 ⟨hbefore, .cons_cons hc.respell (isChain_replace hrest ?_ ?_ ?_)⟩
      · rw [isNumeric_canonicalChar]
        exact id
      · rintro rfl
        rfl
      · exact awaitsOperand_canonicalChar
  | plus u v hu =>
      obtain ⟨hbefore, hchain⟩ := linked_append.1 h
      have hlast : u.getLastD '(' = '(' := getLastD_of_getLast? (p := (· = '(')) rfl hu
      have hrest : ('(' :: v).IsChain Follows :=
        isChain_replace hchain.tail (by decide) (by decide) (by decide)
      rw [← hlast] at hrest
      exact linked_append.2 ⟨hbefore, hrest⟩

end Linked

end Calculator
