import Calculator.Token.Scan
import Calculator.Proofs.Expression.Numeral
import Calculator.Proofs.Grammar.Recognition
import Calculator.Proofs.Text.Nesting
import Calculator.Proofs.Text.Runs

/-!
# Scanning, lexeme by lexeme

Every lexeme that is scanned becomes one token, whatever follows it, unless it opens an
empty group (`ofLexemes_cons`); what a single lexeme can become is listed once
(`ofLexeme_run_eq_ok_iff`, `symbol_cases`), and where it stands among the lexemes its token
stands among the tokens (`exists_of_ofLexemes_append`). So the faults of scanning are seen in
one lexeme or in two parentheses side by side (`fault_of_ofLexemes`), a fault that is found
stays the fault however the text goes on (`ofLexemes_append_of_error`), and the tokens close
the groups that the text closes (`closes_iff_of_ofLexemes`).
-/

namespace Calculator

/-- The token that a lexeme becomes. -/
def Token.ofLexeme (due : Bool) : Lexeme → Except Fault Token
  | .run r => (Decimal.ofRun r).map fun d => .number d.toFloat
  | .symbol c => (Token.ofSymbol? due c).elim (.error (.unknownSymbol c)) .ok

/-- The lexeme is an opening parenthesis with the closing one right behind it. -/
def OpensEmptyGroup (l : Lexeme) (rest : List Lexeme) : Prop :=
  l = .symbol '(' ∧ rest.head? = some (.symbol ')')

theorem ne_parenthesis_of_isNumeric {c : Char} (h : isNumeric c = true) : c ≠ '(' ∧ c ≠ ')' := by
  constructor <;> rintro rfl <;> exact absurd h (by decide)

instance (l : Lexeme) (rest : List Lexeme) : Decidable (OpensEmptyGroup l rest) :=
  inferInstanceAs (Decidable (_ ∧ _))

namespace Token

variable {due : Bool} {l : Lexeme} {rest ls : List Lexeme} {ts : List Token} {f : Fault}

theorem ofLexeme_run_eq_ok_iff {r : Text} {token : Token} :
    ofLexeme due (.run r) = .ok token ↔
      ∃ d : Decimal, Decimal.ofRun r = .ok d ∧ .number d.toFloat = token := by
  rw [ofLexeme]
  cases Decimal.ofRun r <;> simp [Except.map]

theorem ofLexeme_symbol_eq_ok_iff {c : Char} {token : Token} :
    ofLexeme due (.symbol c) = .ok token ↔ ofSymbol? due c = some token := by
  rw [ofLexeme]
  cases ofSymbol? due c <;> simp

/-- A symbol is a parenthesis, an operator, or a minus sign where an operand is due. -/
theorem symbol_cases {c : Char} {token : Token} (h : ofSymbol? due c = some token) :
    c = '(' ∧ token = .opening ∨ c = ')' ∧ token = .closing ∨
      c = '-' ∧ due = true ∧ token = .negate ∨
      ∃ op : Operator, Operator.ofChar? c = some op ∧ token = .operator op := by
  unfold ofSymbol? at h
  split at h
  · exact Or.inl ⟨rfl, (Option.some.inj h).symm⟩
  · exact Or.inr (Or.inl ⟨rfl, (Option.some.inj h).symm⟩)
  · cases due with
    | true => exact Or.inr (Or.inr (Or.inl ⟨rfl, rfl, (Option.some.inj h).symm⟩))
    | false => exact Or.inr (Or.inr (Or.inr ⟨.minus, rfl, (Option.some.inj h).symm⟩))
  · exact Or.inr (Or.inr (Or.inr ⟨.plus, rfl, (Option.some.inj h).symm⟩))
  · exact Or.inr (Or.inr (Or.inr ⟨.times, rfl, (Option.some.inj h).symm⟩))
  · exact Or.inr (Or.inr (Or.inr ⟨.divide, rfl, (Option.some.inj h).symm⟩))
  · cases h

theorem ofLexemes_cons (due : Bool) (l : Lexeme) (rest : List Lexeme) :
    ofLexemes due (l :: rest) =
      if OpensEmptyGroup l rest then .error .malformed
      else (ofLexeme due l).bind fun token =>
        (ofLexemes token.operandDue rest).map (token :: ·) := by
  cases l with
  | run r =>
      have hgroup : ¬OpensEmptyGroup (.run r) rest := fun h => nomatch h.1
      simp only [ofLexemes, ofLexeme, if_neg hgroup]
      cases Decimal.ofRun r with
      | error g => rfl
      | ok d =>
          change (ofLexemes false rest >>= _) = (ofLexemes false rest).map _
          cases ofLexemes false rest <;> rfl
  | symbol c =>
      have hgroup : OpensEmptyGroup (.symbol c) rest ↔
          c = '(' ∧ rest.head? = some (.symbol ')') := by
        rw [OpensEmptyGroup, Lexeme.symbol.injEq]
      simp only [ofLexemes, ofLexeme, hgroup]
      split
      · rfl
      · cases ofSymbol? due c with
        | none => rfl
        | some token =>
            change (ofLexemes token.operandDue rest >>= _) =
              (ofLexemes token.operandDue rest).map _
            cases ofLexemes token.operandDue rest <;> rfl

/-- What is scanned is scanned to one token for each lexeme. -/
theorem ofLexemes_cons_eq_ok_iff :
    ofLexemes due (l :: rest) = .ok ts ↔
      ¬OpensEmptyGroup l rest ∧ ∃ (token : Token) (us : List Token),
        ofLexeme due l = .ok token ∧ ofLexemes token.operandDue rest = .ok us ∧
          ts = token :: us := by
  rw [ofLexemes_cons]
  by_cases hgroup : OpensEmptyGroup l rest
  · simp [hgroup]
  · rw [if_neg hgroup]
    constructor
    · intro h
      obtain ⟨token, htoken, h⟩ := exists_of_bind_eq_ok h
      cases hus : ofLexemes token.operandDue rest with
      | error g => rw [hus] at h; cases h
      | ok us =>
          rw [hus] at h
          cases h
          exact ⟨hgroup, token, us, htoken, hus, rfl⟩
    · rintro ⟨-, token, us, htoken, hus, rfl⟩
      rw [htoken, Except.bind, hus]
      rfl

/-- The leftmost fault is the one that is reported. -/
theorem ofLexemes_cons_eq_error_iff :
    ofLexemes due (l :: rest) = .error f ↔
      OpensEmptyGroup l rest ∧ f = .malformed ∨
        ¬OpensEmptyGroup l rest ∧ (ofLexeme due l = .error f ∨
          ∃ token : Token, ofLexeme due l = .ok token ∧
            ofLexemes token.operandDue rest = .error f) := by
  rw [ofLexemes_cons]
  by_cases hgroup : OpensEmptyGroup l rest
  · simp [hgroup, eq_comm]
  · rw [if_neg hgroup]
    constructor
    · intro h
      refine Or.inr ⟨hgroup, ?_⟩
      rcases eq_error_of_bind_eq_error h with hl | ⟨token, htoken, h⟩
      · exact Or.inl hl
      · cases hus : ofLexemes token.operandDue rest with
        | error g => rw [hus] at h; cases h; exact Or.inr ⟨token, htoken, hus⟩
        | ok us => rw [hus] at h; cases h
    · rintro (⟨h, -⟩ | ⟨-, hl | ⟨token, htoken, hrest⟩⟩)
      · exact absurd h hgroup
      · rw [hl]; rfl
      · rw [htoken, Except.bind, hrest]; rfl

/-- Each run of what is scanned reads as a number. -/
theorem isLiteral_of_ofLexemes (h : ofLexemes due ls = .ok ts) {r : Text} (hr : .run r ∈ ls) :
    isLiteral r = true := by
  induction ls generalizing due ts with
  | nil => cases hr
  | cons l rest ih =>
      obtain ⟨-, token, us, htoken, hus, -⟩ := ofLexemes_cons_eq_ok_iff.1 h
      rcases List.mem_cons.1 hr with rfl | hr
      · obtain ⟨d, hd, -⟩ := ofLexeme_run_eq_ok_iff.1 htoken
        rw [← Decimal.isOk_ofRun, hd]
        rfl
      · exact ih hus hr

theorem fault_of_ofLexeme (h : ofLexeme due l = .error f) :
    (f = .decimalPoint ∧ ∃ r : Text, l = .run r ∧ 1 < r.count '.') ∨
      (∃ c : Char, f = .unknownSymbol c ∧ l = .symbol c) ∨ f = .malformed := by
  cases l with
  | run r =>
      simp only [ofLexeme, Decimal.ofRun] at h
      split at h
      · next hcount => cases h; exact Or.inl ⟨rfl, r, rfl, hcount⟩
      · split at h
        · cases h
        · cases h; exact Or.inr (Or.inr rfl)
  | symbol c =>
      rw [ofLexeme] at h
      cases htoken : ofSymbol? due c with
      | none => rw [htoken] at h; cases h; exact Or.inr (Or.inl ⟨c, rfl, rfl⟩)
      | some token => rw [htoken] at h; cases h

/-- A fault of scanning is a run with two points, a character that is no token, or
an operand that is missing. -/
theorem fault_of_ofLexemes (h : ofLexemes due ls = .error f) :
    (f = .decimalPoint ∧ ∃ r : Text, .run r ∈ ls ∧ 1 < r.count '.') ∨
      (∃ c : Char, f = .unknownSymbol c ∧ .symbol c ∈ ls) ∨ f = .malformed := by
  induction ls generalizing due with
  | nil => cases h
  | cons l rest ih =>
      rcases ofLexemes_cons_eq_error_iff.1 h with ⟨-, hf⟩ | ⟨-, hl | ⟨token, -, hrest⟩⟩
      · exact Or.inr (Or.inr hf)
      · rcases fault_of_ofLexeme hl with ⟨hf, r, rfl, hcount⟩ | ⟨c, hf, rfl⟩ | hf
        · exact Or.inl ⟨hf, r, List.mem_cons_self .., hcount⟩
        · exact Or.inr (Or.inl ⟨c, hf, List.mem_cons_self ..⟩)
        · exact Or.inr (Or.inr hf)
      · rcases ih hrest with ⟨hf, r, hr, hcount⟩ | ⟨c, hf, hc⟩ | hf
        · exact Or.inl ⟨hf, r, List.mem_cons_of_mem l hr, hcount⟩
        · exact Or.inr (Or.inl ⟨c, hf, List.mem_cons_of_mem l hc⟩)
        · exact Or.inr (Or.inr hf)

/-- A lexeme is a token that opens and closes the groups that its text does. -/
theorem closes_cons_iff_of_ofLexeme {token : Token} (htoken : ofLexeme due l = .ok token)
    (hl : ∀ r : Text, l = .run r → ∀ c ∈ r, isNumeric c = true) {us : List Token} {v : Text}
    (h : ∀ k : Nat, Closes k us ↔ openGroups? k v = some 0) (d : Nat) :
    Closes d (token :: us) ↔ openGroups? d (l.text ++ v) = some 0 := by
  cases l with
  | run r =>
      have hnumeral := openGroups?_append_of_not_mem fun c hc =>
        ne_parenthesis_of_isNumeric (hl r rfl c hc)
      rw [Lexeme.text, hnumeral, ← h d]
      obtain ⟨numeral, -, rfl⟩ := ofLexeme_run_eq_ok_iff.1 htoken
      exact Iff.rfl
  | symbol c =>
      rcases symbol_cases (ofLexeme_symbol_eq_ok_iff.1 htoken) with
        ⟨rfl, rfl⟩ | ⟨rfl, rfl⟩ | ⟨rfl, -, rfl⟩ | ⟨op, hop, rfl⟩
      · exact h (d + 1)
      · cases d with
        | zero => exact iff_of_false id (by simp [Lexeme.text])
        | succ d => exact h d
      · exact h d
      · have hopening : c ≠ '(' := Operator.ne_of_ofChar? hop (by decide)
        have hclosing : c ≠ ')' := Operator.ne_of_ofChar? hop (by decide)
        rw [Lexeme.text, List.singleton_append, openGroups?_cons_of_ne hopening hclosing]
        exact h d

/-- The tokens close the groups that the text closes. -/
theorem closes_iff_of_ofLexemes
    (hruns : ∀ r : Text, .run r ∈ ls → ∀ c ∈ r, isNumeric c = true)
    (h : ofLexemes due ls = .ok ts) (d : Nat) :
    Closes d ts ↔ openGroups? d (ls.flatMap Lexeme.text) = some 0 := by
  induction ls generalizing due ts d with
  | nil =>
      cases h
      exact Option.some_inj.symm
  | cons l rest ih =>
      obtain ⟨-, token, us, htoken, hus, rfl⟩ := ofLexemes_cons_eq_ok_iff.1 h
      have hrest := ih (fun r hr => hruns r (List.mem_cons_of_mem l hr)) hus
      refine closes_cons_iff_of_ofLexeme htoken (fun r hr => ?_) hrest d
      exact hruns r (hr ▸ List.mem_cons_self ..)

/-- A lexeme that is followed by another one opens no other group with more behind it. -/
theorem opensEmptyGroup_append_iff (hrest : rest ≠ []) (ms : List Lexeme) :
    OpensEmptyGroup l (rest ++ ms) ↔ OpensEmptyGroup l rest := by
  rw [OpensEmptyGroup, OpensEmptyGroup, List.head?_append_of_ne_nil _ hrest]

/-- An operand is due behind every token of a symbol but a closing parenthesis. -/
theorem operandDue_of_ofLexeme {c : Char} (hc : c ≠ ')') {token : Token}
    (h : ofLexeme due (.symbol c) = .ok token) : token.operandDue = true := by
  rcases symbol_cases (ofLexeme_symbol_eq_ok_iff.1 h) with
    ⟨-, rfl⟩ | ⟨hclosing, -⟩ | ⟨-, -, rfl⟩ | ⟨op, -, rfl⟩
  · rfl
  · exact absurd hclosing hc
  · rfl
  · rfl

/-- A fault that is found in a text is found however the text goes on. -/
theorem ofLexemes_append_of_error (h : ofLexemes due ls = .error f) (ms : List Lexeme) :
    ofLexemes due (ls ++ ms) = .error f := by
  induction ls generalizing due with
  | nil => cases h
  | cons l rest ih =>
      refine ofLexemes_cons_eq_error_iff.2 ?_
      rcases ofLexemes_cons_eq_error_iff.1 h with
        ⟨hgroup, hf⟩ | ⟨hgroup, hl | ⟨token, htoken, hrest⟩⟩
      · have hne : rest ≠ [] := by
          rintro rfl
          cases hgroup.2
        exact Or.inl ⟨(opensEmptyGroup_append_iff hne ms).2 hgroup, hf⟩
      · refine Or.inr ⟨fun hempty => ?_, Or.inl hl⟩
        rw [hempty.1] at hl
        cases hl
      · have hne : rest ≠ [] := by
          rintro rfl
          cases hrest
        refine Or.inr ⟨fun hempty => hgroup ((opensEmptyGroup_append_iff hne ms).1 hempty), ?_⟩
        exact Or.inr ⟨token, htoken, ih hrest⟩

/-- Whether an operand is due behind the tokens, where `due` says whether one is due before
them. -/
def dueBehind (due : Bool) (ts : List Token) : Bool :=
  (ts.getLast?.map operandDue).getD due

theorem dueBehind_nil (due : Bool) : dueBehind due [] = due := rfl

theorem dueBehind_cons (due : Bool) (token : Token) (ts : List Token) :
    dueBehind due (token :: ts) = dueBehind token.operandDue ts := by
  rw [dueBehind, dueBehind, List.getLast?_cons]
  cases ts.getLast? <;> rfl

theorem dueBehind_concat (due : Bool) (ts : List Token) (token : Token) :
    dueBehind due (ts ++ [token]) = token.operandDue := by
  rw [dueBehind, List.getLast?_concat]
  rfl

/-- The token of a lexeme that is scanned, what is scanned before it and what behind it. -/
theorem exists_of_ofLexemes_append (h : ofLexemes due (ls ++ l :: rest) = .ok ts) :
    ∃ (us : List Token) (token : Token) (ws : List Token),
      ofLexemes due ls = .ok us ∧ ofLexeme (dueBehind due us) l = .ok token ∧
        ofLexemes token.operandDue rest = .ok ws ∧ ts = us ++ token :: ws := by
  induction ls generalizing due ts with
  | nil =>
      obtain ⟨-, token, ws, htoken, hws, rfl⟩ := ofLexemes_cons_eq_ok_iff.1 h
      exact ⟨[], token, ws, rfl, htoken, hws, rfl⟩
  | cons x ls ih =>
      obtain ⟨hgroup, first, tail, hfirst, htail, rfl⟩ := ofLexemes_cons_eq_ok_iff.1 h
      obtain ⟨us, token, ws, hus, htoken, hws, rfl⟩ := ih htail
      have hopening : ¬OpensEmptyGroup x ls := by
        rintro ⟨hx, hclosing⟩
        obtain ⟨ms, rfl⟩ := List.head?_eq_some_iff.1 hclosing
        exact hgroup ⟨hx, rfl⟩
      refine ⟨first :: us, token, ws, ?_, ?_, hws, rfl⟩
      · exact ofLexemes_cons_eq_ok_iff.2 ⟨hopening, first, us, hfirst, hus, rfl⟩
      · rwa [dueBehind_cons]

/-- The last token of what is scanned, and whether an operand is due before it. -/
theorem exists_of_ofLexemes_concat (h : ofLexemes due (ls ++ [l]) = .ok ts) :
    ∃ (us : List Token) (token : Token), ofLexemes due ls = .ok us ∧ ts = us ++ [token] ∧
      ofLexeme (dueBehind due us) l = .ok token := by
  obtain ⟨us, token, ws, hus, htoken, hws, rfl⟩ := exists_of_ofLexemes_append h
  cases hws
  exact ⟨us, token, hus, rfl, htoken⟩

theorem length_of_ofLexemes (h : ofLexemes due ls = .ok ts) : ts.length = ls.length := by
  induction ls generalizing due ts with
  | nil =>
      cases h
      rfl
  | cons l rest ih =>
      obtain ⟨-, token, us, -, hus, rfl⟩ := ofLexemes_cons_eq_ok_iff.1 h
      rw [List.length_cons, List.length_cons, ih hus]

/-- What follows is scanned as the last token before it says, unless it closes an empty
group. -/
theorem ofLexemes_append (h : ofLexemes due ls = .ok ts)
    (hgroup : ls.getLast? = some (.symbol '(') → rest.head? ≠ some (.symbol ')')) :
    ofLexemes due (ls ++ rest) = (ofLexemes (dueBehind due ts) rest).map (ts ++ ·) := by
  induction ls generalizing due ts with
  | nil =>
      cases h
      rw [List.nil_append, dueBehind_nil]
      cases ofLexemes due rest <;> rfl
  | cons l ls ih =>
      obtain ⟨hempty, token, us, htoken, hus, rfl⟩ := ofLexemes_cons_eq_ok_iff.1 h
      have htail : ofLexemes token.operandDue (ls ++ rest) =
          (ofLexemes (dueBehind token.operandDue us) rest).map (us ++ ·) := by
        refine ih hus fun hlast => hgroup ?_
        rw [List.getLast?_cons, hlast, Option.getD_some]
      have hopening : ¬OpensEmptyGroup l (ls ++ rest) := by
        by_cases hne : ls = []
        · subst hne
          exact fun hempty => hgroup (congrArg some hempty.1) hempty.2
        · rwa [opensEmptyGroup_append_iff hne]
      rw [List.cons_append, ofLexemes_cons, if_neg hopening, htoken, Except.bind, htail,
        dueBehind_cons]
      cases ofLexemes (dueBehind token.operandDue us) rest <;> rfl

/-- Behind what is scanned, the fault is that of the rest. -/
theorem ofLexemes_append_eq_error_iff (h : ofLexemes due ls = .ok ts)
    (hgroup : ls.getLast? = some (.symbol '(') → rest.head? ≠ some (.symbol ')')) :
    ofLexemes due (ls ++ rest) = .error f ↔ ofLexemes (dueBehind due ts) rest = .error f := by
  rw [ofLexemes_append h hgroup]
  cases ofLexemes (dueBehind due ts) rest <;> simp [Except.map]

theorem ofLexemes_closings (due : Bool) (n : Nat) :
    ofLexemes due (List.replicate n (.symbol ')')) = .ok (List.replicate n .closing) := by
  induction n generalizing due with
  | zero => rfl
  | succ n ih =>
      refine ofLexemes_cons_eq_ok_iff.2 ⟨fun hempty => absurd hempty.1 (by decide), ?_⟩
      exact ⟨.closing, List.replicate n .closing, rfl, ih false, rfl⟩

/-- A closing parenthesis is a token wherever it does not close an empty group, and no
operand is due behind it. -/
theorem ofLexemes_append_closing (h : ofLexemes due ls = .ok ts)
    (hlast : ls.getLast? ≠ some (.symbol '(')) (rest : List Lexeme) :
    ofLexemes due (ls ++ .symbol ')' :: rest) =
      (ofLexemes false rest).map (ts ++ .closing :: ·) := by
  rw [ofLexemes_append h fun hopening => absurd hopening hlast, ofLexemes_cons,
    if_neg fun hempty => absurd hempty.1 (by decide)]
  change ((ofLexemes false rest).map (.closing :: ·)).map (ts ++ ·) = _
  cases ofLexemes false rest <;> rfl

/-- Closing parentheses are tokens wherever they do not close an empty group. -/
theorem ofLexemes_append_closings (h : ofLexemes due ls = .ok ts)
    (hlast : ls.getLast? ≠ some (.symbol '(')) (n : Nat) :
    ofLexemes due (ls ++ List.replicate n (.symbol ')')) =
      .ok (ts ++ List.replicate n .closing) := by
  cases n with
  | zero =>
      rw [List.replicate_zero, List.replicate_zero, List.append_nil, List.append_nil]
      exact h
  | succ n =>
      rw [List.replicate_succ, ofLexemes_append_closing h hlast, ofLexemes_closings]
      rfl

/-- An opening parenthesis at the end makes an empty group with a closing one behind it. -/
theorem ofLexemes_append_empty_group (h : ofLexemes due ls = .ok ts)
    (hlast : ls.getLast? = some (.symbol '(')) (n : Nat) :
    ofLexemes due (ls ++ List.replicate (n + 1) (.symbol ')')) = .error .malformed := by
  induction ls generalizing due ts with
  | nil => cases hlast
  | cons l rest ih =>
      obtain ⟨hgroup, token, us, htoken, hus, rfl⟩ := ofLexemes_cons_eq_ok_iff.1 h
      refine ofLexemes_cons_eq_error_iff.2 ?_
      by_cases hne : rest = []
      · subst hne
        exact Or.inl ⟨⟨Option.some_inj.1 hlast, rfl⟩, rfl⟩
      · rw [List.getLast?_cons_of_ne_nil hne] at hlast
        refine Or.inr ⟨fun hempty => hgroup ((opensEmptyGroup_append_iff hne _).1 hempty), ?_⟩
        exact Or.inr ⟨token, htoken, ih hus hlast⟩

end Token

end Calculator
