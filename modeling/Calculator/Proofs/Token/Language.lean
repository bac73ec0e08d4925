import Mathlib
import Calculator.Proofs.Decimal.Reading
import Calculator.Proofs.Text.Places

/-!
# The language of the scanner

What can be scanned is told by the text alone (`Scannable`): by its characters, by its runs and by
the empty groups that it must not have. A text that cannot be scanned has lexemes that are at
fault where they stand (`FaultAt`), and the fault of the leftmost one is reported
(`LeftmostFault`). The bridge is `Token.ofLexemes_eq_error_iff`, along the lexemes of the text:
the first of them is at fault, or the fault is that of the text behind it.

Of a text that can be scanned each lexeme has its token, in the same order (`Token.StandsFor`). A
minus sign is judged by the character before it, the scanner judges it by the token before it, and
these agree (`Token.dueBehind_iff`).
-/

namespace Calculator

/-- The characters that are tokens by themselves. -/
def tokenChars : List Char := ['+', '-', '*', '/', '(', ')']

/-- The lexeme is at fault where the text `v` stands behind it. -/
inductive FaultAt : Lexeme → Text → Fault → Prop
  | points {r v : Text} : 1 < r.count '.' → FaultAt (.run r) v .decimalPoint
  | point {v : Text} : FaultAt (.run ['.']) v .malformed
  | emptyGroup {v : Text} : FaultAt (.symbol '(') (')' :: v) .malformed
  | unknown {c : Char} {v : Text} : c ∉ tokenChars → FaultAt (.symbol c) v (.unknownSymbol c)

/-- The fault is that of a lexeme with no other one at fault further to the left. -/
def LeftmostFault (t : Text) (f : Fault) : Prop :=
  ∃ (u : Text) (l : Lexeme) (v : Text), l.StandsIn t u v ∧ FaultAt l v f ∧
    ∀ (u' : Text) (l' : Lexeme) (v' : Text) (f' : Fault),
      l'.StandsIn t u' v' → FaultAt l' v' f' → u.length ≤ u'.length

/-- A text that can be scanned. -/
structure Scannable (t : Text) : Prop where
  alphabet : ∀ c ∈ t, isNumeric c = true ∨ c ∈ tokenChars
  numerals : ∀ r ∈ runs t, (∃ c ∈ r, c.isDigit = true) ∧ r.count '.' ≤ 1
  groups : ¬['(', ')'] <:+: t

/-- An operand is due behind the text: it is empty or ends with an operator or with an opening
parenthesis. -/
def OperandDue (t : Text) : Prop :=
  ∀ c ∈ t.getLast?, c ∈ ['+', '-', '*', '/', '(']

/-- The token that stands for the lexeme behind the text `u`. -/
inductive Token.StandsFor (u : Text) : Lexeme → Token → Prop
  | number {r : Text} {x : Float} : ReadsTo r x → StandsFor u (.run r) (.number x)
  | plus : StandsFor u (.symbol '+') (.operator .plus)
  | times : StandsFor u (.symbol '*') (.operator .times)
  | divide : StandsFor u (.symbol '/') (.operator .divide)
  | opening : StandsFor u (.symbol '(') .opening
  | closing : StandsFor u (.symbol ')') .closing
  | negate : OperandDue u → StandsFor u (.symbol '-') .negate
  | minus : ¬OperandDue u → StandsFor u (.symbol '-') (.operator .minus)

section Faults

variable {l : Lexeme} {t u v : Text} {f : Fault}

/-- A numeral without a digit and with one point at most is a single point. -/
theorem eq_point_of_wellFormed {r : Text} (h : (Lexeme.run r).WellFormed)
    (hdigit : ¬r.any Char.isDigit = true) (hpoints : ¬1 < r.count '.') : r = ['.'] := by
  have hpoint : ∀ c ∈ r, c = '.' := by
    intro c hc
    have hnumeric := h.2 c hc
    rw [isNumeric, Bool.or_eq_true, beq_iff_eq] at hnumeric
    exact hnumeric.resolve_left fun hd => hdigit (List.any_eq_true.2 ⟨c, hc, hd⟩)
  have hreplicate := List.eq_replicate_of_mem hpoint
  have hpos := List.length_pos_iff.2 h.1
  rw [hreplicate, List.count_replicate_self] at hpoints
  obtain hone : r.length = 1 := by omega
  rw [hreplicate, hone]
  rfl

theorem Token.ofSymbol?_eq_none_iff {due : Bool} {c : Char} :
    Token.ofSymbol? due c = none ↔ c ∉ tokenChars := by
  unfold Token.ofSymbol?
  split <;> simp_all [tokenChars]

theorem head?_lexemes_eq_symbol_iff {c : Char} (hc : isNumeric c = false) :
    (lexemes t).head? = some (.symbol c) ↔ t.head? = some c := by
  refine ⟨head?_of_head?_lexemes, fun h => ?_⟩
  obtain ⟨v, rfl⟩ := List.head?_eq_some_iff.1 h
  rw [lexemes_cons_symbol hc]
  rfl

/-- A lexeme is at fault if it opens an empty group or is no token. -/
theorem faultAt_iff (hl : l.WellFormed) (due : Bool) :
    FaultAt l v f ↔
      OpensEmptyGroup l (lexemes v) ∧ f = .malformed ∨ Token.ofLexeme due l = .error f := by
  constructor
  · intro h
    cases h with
    | @points r v hcount =>
        right
        rw [Token.ofLexeme, Decimal.ofRun, if_pos hcount]
        rfl
    | point => exact Or.inr rfl
    | emptyGroup => exact Or.inl ⟨⟨rfl, (head?_lexemes_eq_symbol_iff rfl).2 rfl⟩, rfl⟩
    | unknown hc =>
        right
        rw [Token.ofLexeme, Token.ofSymbol?_eq_none_iff.2 hc]
        rfl
  · rintro (⟨⟨rfl, hclosing⟩, rfl⟩ | h)
    · obtain ⟨w, rfl⟩ := List.head?_eq_some_iff.1 ((head?_lexemes_eq_symbol_iff rfl).1 hclosing)
      exact .emptyGroup
    · cases l with
      | run r =>
          rw [Token.ofLexeme, Decimal.ofRun] at h
          split at h
          · next hpoints =>
              cases h
              exact .points hpoints
          · next hpoints =>
              split at h
              · cases h
              · next hdigit =>
                  cases h
                  rw [eq_point_of_wellFormed hl hdigit hpoints]
                  exact .point
      | symbol c =>
          rw [Token.ofLexeme] at h
          cases hc : Token.ofSymbol? due c with
          | none =>
              rw [hc] at h
              cases h
              exact .unknown (Token.ofSymbol?_eq_none_iff.1 hc)
          | some token =>
              rw [hc] at h
              cases h

/-- The leftmost fault is that of the first lexeme, or, if this one is not at fault, that of the
text behind it. -/
theorem leftmostFault_iff (h : l.StandsIn t [] v) :
    LeftmostFault t f ↔
      FaultAt l v f ∨ (∀ g : Fault, ¬FaultAt l v g) ∧ LeftmostFault v f := by
  constructor
  · rintro ⟨u, m, w, hm, hfault, hleft⟩
    rcases h.standsIn_iff.1 hm with ⟨rfl, rfl, rfl⟩ | ⟨s, rfl, hs⟩
    · exact Or.inl hfault
    · refine Or.inr ⟨fun g hg => ?_, s, m, w, hs, hfault, fun u' l' v' f' hl' hf' => ?_⟩
      · have hlength := hleft [] l v g h hg
        rw [List.length_nil, Nat.le_zero, List.length_eq_zero_iff, List.append_eq_nil_iff]
          at hlength
        exact Lexeme.text_ne_nil h.wellFormed hlength.1
      · have hlength := hleft _ l' v' f' (h.append hl') hf'
        rw [List.length_append, List.length_append] at hlength
        omega
  · rintro (hfault | ⟨hnone, u, m, w, hm, hfault, hleft⟩)
    · exact ⟨[], l, v, h, hfault, fun u' _ _ _ _ _ => Nat.zero_le u'.length⟩
    · refine ⟨l.text ++ u, m, w, h.append hm, hfault, fun u' l' v' f' hl' hf' => ?_⟩
      rcases h.standsIn_iff.1 hl' with ⟨rfl, rfl, rfl⟩ | ⟨s, rfl, hs⟩
      · exact absurd hf' (hnone f')
      · rw [List.length_append, List.length_append]
        exact Nat.add_le_add_left (hleft s l' v' f' hs hf') _

theorem not_leftmostFault_nil : ¬LeftmostFault [] f := by
  rintro ⟨u, l, v, h, -⟩
  exact Lexeme.not_standsIn_nil h

namespace Token

variable {due : Bool} {ts : List Token}

/-- Scanning fails with the leftmost fault of the text. -/
theorem ofLexemes_eq_error_iff :
    ofLexemes due (lexemes t) = .error f ↔ LeftmostFault t f := by
  induction t using lexeme_induction generalizing due with
  | hnil => exact iff_of_false (fun h => nomatch h) not_leftmostFault_nil
  | hnext l t v hl ih =>
      rw [hl.lexemes_eq_cons, ofLexemes_cons_eq_error_iff, leftmostFault_iff hl,
        faultAt_iff hl.wellFormed due]
      constructor
      · rintro (hgroup | ⟨hgroup, hlexeme | ⟨token, htoken, hrest⟩⟩)
        · exact Or.inl (Or.inl hgroup)
        · exact Or.inl (Or.inr hlexeme)
        · refine Or.inr ⟨fun g hg => ?_, ih.1 hrest⟩
          rcases (faultAt_iff hl.wellFormed due).1 hg with ⟨hempty, -⟩ | herror
          · exact hgroup hempty
          · rw [htoken] at herror
            cases herror
      · rintro ((hgroup | hlexeme) | ⟨hnone, hrest⟩)
        · exact Or.inl hgroup
        · refine Or.inr ⟨fun hempty => ?_, Or.inl hlexeme⟩
          rw [hempty.1] at hlexeme
          cases hlexeme
        · have hfaultless := fun g h => hnone g ((faultAt_iff hl.wellFormed due).2 h)
          refine Or.inr ⟨fun hempty => hfaultless .malformed (Or.inl ⟨hempty, rfl⟩), Or.inr ?_⟩
          cases htoken : ofLexeme due l with
          | error g => exact absurd (Or.inr htoken) (hfaultless g)
          | ok token => exact ⟨token, rfl, ih.2 hrest⟩

/-- No lexeme of a text that is scanned is at fault. -/
theorem not_faultAt_of_ofLexemes (h : ofLexemes due (lexemes t) = .ok ts)
    (hl : l.StandsIn t u v) : ¬FaultAt l v f := by
  induction t using lexeme_induction generalizing due ts u with
  | hnil => exact absurd hl Lexeme.not_standsIn_nil
  | hnext m t w hm ih =>
      rw [hm.lexemes_eq_cons] at h
      obtain ⟨hgroup, token, us, htoken, hus, -⟩ := ofLexemes_cons_eq_ok_iff.1 h
      rcases hm.standsIn_iff.1 hl with ⟨rfl, rfl, rfl⟩ | ⟨s, rfl, hs⟩
      · intro hfault
        rcases (faultAt_iff hl.wellFormed due).1 hfault with ⟨hempty, -⟩ | herror
        · exact hgroup hempty
        · rw [htoken] at herror
          cases herror
      · exact ih hus hs

end Token

/-- Nothing in a text is at fault exactly if it can be scanned. -/
theorem scannable_iff :
    Scannable t ↔
      ∀ (u : Text) (l : Lexeme) (v : Text) (f : Fault), l.StandsIn t u v → ¬FaultAt l v f := by
  constructor
  · rintro ⟨halphabet, hnumerals, hgroups⟩ u l v f hl hfault
    cases hfault with
    | points hcount =>
        have hpoints := (hnumerals _ (mem_runs_iff_exists_standsIn.2 ⟨u, v, hl⟩)).2
        exact absurd hcount (not_lt.2 hpoints)
    | point =>
        obtain ⟨c, hc, hdigit⟩ := (hnumerals _ (mem_runs_iff_exists_standsIn.2 ⟨u, v, hl⟩)).1
        rw [List.mem_singleton] at hc
        subst hc
        cases hdigit
    | @emptyGroup w => exact hgroups ⟨u, w, by simp [hl.text_eq, Lexeme.text]⟩
    | @unknown c v hc =>
        rcases halphabet c (by simp [hl.text_eq, Lexeme.text]) with hnumeric | htoken
        · have hsymbol : isNumeric c = false := hl.wellFormed
          rw [hsymbol] at hnumeric
          cases hnumeric
        · exact hc htoken
  · intro h
    refine ⟨fun c hc => ?_, fun r hr => ?_, ?_⟩
    · cases hnumeric : isNumeric c with
      | true => exact Or.inl rfl
      | false =>
          obtain ⟨u, v, rfl⟩ := List.append_of_mem hc
          right
          by_contra hunknown
          exact h u _ v _ (Lexeme.standsIn_symbol hnumeric u v) (.unknown hunknown)
    · obtain ⟨u, v, hl⟩ := mem_runs_iff_exists_standsIn.1 hr
      have hpoints : ¬1 < r.count '.' := fun hcount => h u _ v _ hl (.points hcount)
      refine ⟨?_, not_lt.1 hpoints⟩
      by_contra hdigit
      rw [← List.any_eq_true] at hdigit
      obtain rfl := eq_point_of_wellFormed hl.wellFormed hdigit hpoints
      exact h u _ v _ hl .point
    · rintro ⟨u, v, rfl⟩
      have hplace := Lexeme.standsIn_symbol (c := '(') rfl u (')' :: v)
      have htext : u ++ ['(', ')'] ++ v = u ++ '(' :: ')' :: v := by simp
      rw [htext] at h
      exact h u _ _ _ hplace .emptyGroup

end Faults

section Pieces

variable {a b s : Text} {c : Char} {l : Lexeme} {f : Fault}

theorem scan_eq_error_iff : scan s = .error f ↔ LeftmostFault s f :=
  Token.ofLexemes_eq_error_iff

/-- A text is read in two pieces if the cut parts neither a numeral nor an empty group: the
fault is that of the first piece, or of the second one behind it. -/
theorem scan_append_eq_error_iff
    (hcut : (∀ c ∈ a.getLast?, isNumeric c = false) ∨ ∀ c ∈ b.head?, isNumeric c = false)
    (hgroup : a.getLast? = some '(' → b.head? ≠ some ')') :
    scan (a ++ b) = .error f ↔
      scan a = .error f ∨ (∃ ts : List Token, scan a = .ok ts) ∧ scan b = .error f := by
  have hlexemes : lexemes (a ++ b) = lexemes a ++ lexemes b :=
    hcut.elim (fun ha => lexemes_append_of_getLast ha b) fun hb => lexemes_append_of_head hb a
  rw [scan, hlexemes]
  cases ha : scan a with
  | error g =>
      rw [Token.ofLexemes_append_of_error ha]
      simp
  | ok ts =>
      rw [Token.ofLexemes_append_eq_error_iff ha, Token.ofLexemes_eq_error_iff, scan_eq_error_iff]
      · simp
      · rw [getLast?_lexemes_eq_symbol_iff rfl]
        exact fun hlast hhead => hgroup hlast (head?_of_head?_lexemes hhead)

/-- A character that is a token is at fault only if it opens an empty group. -/
theorem scan_cons_eq_error_iff (hc : c ∈ tokenChars) (hgroup : c = '(' → b.head? ≠ some ')') :
    scan (c :: b) = .error f ↔ scan b = .error f := by
  have hnumeric : isNumeric c = false := by
    have hsymbols : ∀ d ∈ tokenChars, (!isNumeric d) = true := List.all_eq_true.1 rfl
    simpa using hsymbols c hc
  have hnone : ∀ g : Fault, ¬FaultAt (.symbol c) b g := by
    rintro g (_ | _ | _ | h)
    · exact hgroup rfl rfl
    · exact h hc
  have hplace : (Lexeme.symbol c).StandsIn (c :: b) [] b := Lexeme.standsIn_symbol hnumeric [] b
  rw [scan_eq_error_iff, leftmostFault_iff hplace, scan_eq_error_iff]
  simp [hnone]

/-- A numeral is at fault, or the fault is that of the text behind it. -/
theorem scan_numeral_append_eq_error_iff (hs : (Lexeme.run s).WellFormed)
    (hb : ∀ c ∈ b.head?, isNumeric c = false) :
    scan (s ++ b) = .error f ↔ FaultAt (.run s) b f ∨
      (∀ g : Fault, ¬FaultAt (.run s) b g) ∧ scan b = .error f := by
  have hplace : (Lexeme.run s).StandsIn (s ++ b) [] b :=
    ⟨rfl, hs, by rintro r ⟨⟩; exact ⟨by simp, hb⟩⟩
  rw [scan_eq_error_iff, leftmostFault_iff hplace, scan_eq_error_iff]

/-- A numeral at fault goes on as a numeral at fault, unless it had no digit yet. -/
theorem faultAt_append_numeral {r v w : Text} (h : FaultAt (.run s) v f)
    (hr : ∀ c ∈ r, isNumeric c = true)
    (hstops : f = .malformed → ∀ c ∈ r.head?, isNumeric c = false) :
    FaultAt (.run (s ++ r)) w f := by
  cases h with
  | points hcount =>
      refine .points ?_
      rw [List.count_append]
      omega
  | point =>
      cases r with
      | nil => exact .point
      | cons d r =>
          have hd := hstops rfl d rfl
          rw [hr d (by simp)] at hd
          cases hd

/-- A fault stays the fault however the text goes on, unless a numeral goes on that had no digit
yet. -/
theorem scan_append_of_error (h : scan a = .error f)
    (hb : f = .malformed → a.getLast? = some '.' → ∀ c ∈ b.head?, isNumeric c = false) :
    scan (a ++ b) = .error f := by
  obtain ⟨a, s, rfl, ha, hs⟩ := exists_cut a
  by_cases hne : s = []
  · subst hne
    rw [List.append_nil] at h ⊢
    rw [scan, lexemes_append_of_getLast ha]
    exact Token.ofLexemes_append_of_error h _
  · obtain ⟨r, b, rfl, hr, hhead⟩ := exists_cut_head b
    have hclosing : ∀ {q v : Text}, q ≠ [] → (∀ c ∈ q, isNumeric c = true) →
        (q ++ v).head? ≠ some ')' := by
      rintro (_ | ⟨d, q⟩) v hq hnumeral heq
      · exact hq rfl
      · obtain rfl := Option.some_inj.1 heq
        exact Bool.false_ne_true (hnumeral ')' (by simp))
    have hnumeral : ∀ c ∈ s ++ r, isNumeric c = true := List.forall_mem_append.2 ⟨hs, hr⟩
    have hlonger : s ++ r ≠ [] := List.append_ne_nil_of_left_ne_nil hne r
    have htext : a ++ s ++ (r ++ b) = a ++ (s ++ r ++ b) := by simp
    rw [← List.append_nil (a ++ s), List.append_assoc, scan_append_eq_error_iff (Or.inl ha)
      fun _ => hclosing hne hs, scan_numeral_append_eq_error_iff ⟨hne, hs⟩ (by simp)] at h
    rw [htext, scan_append_eq_error_iff (Or.inl ha) fun _ => hclosing hlonger hnumeral,
      scan_numeral_append_eq_error_iff ⟨hlonger, hnumeral⟩ hhead]
    rcases h with h | ⟨hscan, hfault | ⟨-, hnil⟩⟩
    · exact Or.inl h
    · refine Or.inr ⟨hscan, Or.inl (faultAt_append_numeral hfault hr ?_)⟩
      rintro rfl c hc
      cases hfault
      exact hb rfl (by simp) c (by rw [List.head?_append, hc, Option.some_or]; rfl)
    · cases hnil

end Pieces


namespace Token

variable {due : Bool} {l : Lexeme} {t u v : Text} {ts us : List Token}

/-- Behind the token of a symbol an operand is due if it is due behind the character. -/
theorem operandDue_iff_of_ofLexeme {c : Char} {token : Token}
    (h : ofLexeme due (.symbol c) = .ok token) :
    token.operandDue = true ↔ c ∈ ['+', '-', '*', '/', '('] := by
  rw [ofLexeme_symbol_eq_ok_iff] at h
  unfold ofSymbol? at h
  split at h
  case h_3 => cases due <;> cases h <;> decide
  case h_7 => cases h
  all_goals cases h; decide

/-- What the scanner knows of the tokens behind a text is seen on the last character of it. -/
theorem dueBehind_iff (h : ofLexemes true (lexemes u) = .ok us) :
    dueBehind true us = true ↔ OperandDue u := by
  have htext := text_lexemes u
  rcases List.eq_nil_or_concat' (lexemes u) with hnil | ⟨ls, l, hconcat⟩
  · rw [hnil] at h htext
    cases h
    cases htext
    exact iff_of_true rfl (by simp [OperandDue])
  · have hl : l.WellFormed := Lexeme.wellFormed_of_mem_lexemes (t := u) (by simp [hconcat])
    rw [hconcat] at h
    obtain ⟨us, token, -, rfl, htoken⟩ := exists_of_ofLexemes_concat h
    rw [dueBehind_concat]
    cases l with
    | run r =>
        obtain ⟨d, -, rfl⟩ := ofLexeme_run_eq_ok_iff.1 htoken
        refine iff_of_false Bool.false_ne_true fun hdue => ?_
        obtain ⟨r, c, rfl⟩ := (List.eq_nil_or_concat' r).resolve_left hl.1
        have hlast : u.getLast? = some c := by
          rw [← htext, hconcat, List.flatMap_append]
          simp [Lexeme.text]
        have hnumeric : isNumeric c = true := hl.2 c (by simp)
        have hsymbols : ∀ d ∈ ['+', '-', '*', '/', '('], (!isNumeric d) = true :=
          List.all_eq_true.1 rfl
        have hsymbol := hsymbols c (hdue c hlast)
        rw [hnumeric] at hsymbol
        cases hsymbol
    | symbol c =>
        have hlast : u.getLast? = some c := by
          rw [← getLast?_lexemes_eq_symbol_iff hl, hconcat, List.getLast?_concat]
        rw [operandDue_iff_of_ofLexeme htoken, OperandDue, hlast]
        simp

/-- The token of a lexeme stands for it. -/
theorem standsFor_of_ofLexeme {token : Token} (hdue : due = true ↔ OperandDue u)
    (h : ofLexeme due l = .ok token) : StandsFor u l token := by
  cases l with
  | run r =>
      obtain ⟨d, hd, rfl⟩ := ofLexeme_run_eq_ok_iff.1 h
      exact .number (readsTo_of_ofRun hd)
  | symbol c =>
      rw [ofLexeme_symbol_eq_ok_iff] at h
      unfold ofSymbol? at h
      split at h
      case h_1 => cases h; exact .opening
      case h_2 => cases h; exact .closing
      case h_3 =>
        cases due with
        | true => cases h; exact .negate (hdue.1 rfl)
        | false => cases h; exact .minus fun hoperand => Bool.false_ne_true (hdue.2 hoperand)
      case h_4 => cases h; exact .plus
      case h_5 => cases h; exact .times
      case h_6 => cases h; exact .divide
      case h_7 => cases h

/-- Every lexeme of a text that is scanned has its token. -/
theorem exists_standsFor_of_scan (h : scan t = .ok ts) (hl : l.StandsIn t u v) :
    ∃ token : Token, ts[(lexemes u).length]? = some token ∧ StandsFor u l token := by
  rw [scan, hl.lexemes_eq] at h
  obtain ⟨us, token, ws, hus, htoken, -, rfl⟩ := exists_of_ofLexemes_append h
  refine ⟨token, ?_, standsFor_of_ofLexeme (dueBehind_iff hus) htoken⟩
  rw [← length_of_ofLexemes hus]
  simp

end Token

/-- A text is scanned exactly if it is of the language. There is a token then for each of its
lexemes, in order, and otherwise the leftmost fault is reported. -/
theorem scan_language (s : Text) :
    ((∃ ts : List Token, scan s = .ok ts) ↔ Scannable s) ∧
      (∀ ts : List Token, scan s = .ok ts → ts.length = (lexemes s).length ∧
        ∀ (u : Text) (l : Lexeme) (v : Text), l.StandsIn s u v →
          ∃ token : Token, ts[(lexemes u).length]? = some token ∧ Token.StandsFor u l token) ∧
      ∀ f : Fault, scan s = .error f ↔ LeftmostFault s f := by
  refine ⟨?_, fun ts hts => ⟨Token.length_of_ofLexemes hts, fun u l v hl => ?_⟩, fun f => ?_⟩
  · rw [scannable_iff]
    constructor
    · rintro ⟨ts, hts⟩ u l v f hl
      exact Token.not_faultAt_of_ofLexemes hts hl
    · intro hfaultless
      cases hscan : scan s with
      | ok ts => exact ⟨ts, rfl⟩
      | error f =>
          obtain ⟨u, l, v, hl, hfault, -⟩ := Token.ofLexemes_eq_error_iff.1 hscan
          exact absurd hfault (hfaultless u l v f hl)
  · exact Token.exists_standsFor_of_scan hts hl
  · exact Token.ofLexemes_eq_error_iff

/-- The minus sign of `2*-.5` is the third of four tokens, and it is unary. In `(1..2)()` the two
points are further to the left than the empty group. -/
theorem scan_language_product :
    Scannable ['2', '*', '-', '.', '5'] ∧
      (∃ ts : List Token, scan ['2', '*', '-', '.', '5'] = .ok ts ∧ ts.length = 4 ∧
        ts[2]? = some .negate) ∧
      LeftmostFault ['(', '1', '.', '.', '2', ')', '(', ')'] .decimalPoint := by
  obtain ⟨hscannable, htokens, -⟩ := scan_language ['2', '*', '-', '.', '5']
  obtain ⟨-, -, hfault⟩ := scan_language ['(', '1', '.', '.', '2', ')', '(', ')']
  have hok : ∃ ts : List Token, scan ['2', '*', '-', '.', '5'] = .ok ts := ⟨_, rfl⟩
  refine ⟨hscannable.1 hok, ?_, (hfault .decimalPoint).1 rfl⟩
  obtain ⟨ts, hts⟩ := hok
  obtain ⟨hlength, hplaces⟩ := htokens ts hts
  have hminus := Lexeme.standsIn_symbol (c := '-') rfl ['2', '*'] ['.', '5']
  obtain ⟨token, htoken, hstands⟩ := hplaces ['2', '*'] (.symbol '-') ['.', '5'] hminus
  refine ⟨ts, hts, hlength, ?_⟩
  cases hstands with
  | negate => exact htoken
  | minus hnone => exact absurd (by simp [OperandDue]) hnone

end Calculator
