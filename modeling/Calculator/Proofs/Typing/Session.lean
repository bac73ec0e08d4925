import Calculator.Proofs.Editor.Coherence
import Calculator.Proofs.Typing.Edit
import Calculator.Proofs.Typing.Word
import Calculator.Session

/-!
# Sessions on the keypad

From a new session on, the keys lead from one beginning of a word to the next,
up to a key that is `Misplaced`: an operator that takes the place of a sign, a
group that is opened behind a point, or an answer that clashes with the text.
Behind such a key the buffer is no beginning of any word, so that a session
stays among the beginnings exactly if no key in it is misplaced
(`isPrefix_typable_along_iff`).
-/

namespace Calculator

open Buffer
open Position (origin run?)

/-- A key that spoils the buffer. The others are refused where they do not fit,
or start anew. -/
def Misplaced (e : Editor) : Key → Prop
  | .glyph (.operator op) =>
      e.status = .editing ∧ op ≠ .minus ∧ endsWithSign e.buffer = true
  | .group =>
      e.executed = false ∧ e.buffer.getLast? = some '.' ∧ hasOpenGroup e.buffer = false
  | .answer => e.executed = false ∧ AnswerClashes e.buffer e.lastAnswer
  | _ => False

theorem stands_zero : Stands Text.zero ⟨.whole, 0⟩ := rfl

/-- A bare number ends with a digit, so that an operator may follow. -/
theorem exists_stands_bare_operator {b : Text} (hb : isBareNumber b = true) (op : Operator) :
    ∃ p : Position, Stands (b ++ [op.glyph]) p := by
  obtain ⟨p, hp⟩ := exists_stands_bare hb
  obtain ⟨rest, c, rfl, hc⟩ := exists_append_of_isBareNumber hb
  exact ⟨_, hp.push (.operator op (isEnd_of_last hp (Or.inl hc)))⟩

section

variable {e : Editor} {p : Position}

theorem stands_editor_append (h : e.Coherent) (hp : Stands e.buffer p) {g : Glyph}
    (hkey : ¬Misplaced e (.glyph g)) : ∃ q : Position, Stands (e.append g).buffer q := by
  have hzero : ∀ g : Glyph, ∃ q : Position, Stands (append Text.zero g) q := fun g =>
    stands_append stands_zero (List.cons_ne_nil _ _) fun op _ => Or.inr rfl
  unfold Editor.append
  split
  · next hstatus =>
      refine stands_append hp h.buffer_ne_nil ?_
      rintro op rfl
      by_cases hop : op = .minus
      · exact Or.inl hop
      · refine Or.inr (Bool.eq_false_iff.2 fun hsign => ?_)
        exact hkey ⟨hstatus, hop, hsign⟩
  · next x op hstatus => exact exists_stands_bare_operator (h.isBareNumber_buffer hstatus) op
  · exact hzero _
  · simp only [Editor.edit]
    split
    · exact hzero _
    · exact ⟨_, stands_zero⟩

theorem stands_editor_toggleGroup (h : e.Coherent) (hp : Stands e.buffer p)
    (hkey : ¬Misplaced e .group) : ∃ q : Position, Stands e.toggleGroup.buffer q := by
  change ∃ q : Position, Stands (if e.executed = true then ['('] else toggleGroup e.buffer) q
  split
  · exact ⟨⟨.start, 1⟩, rfl⟩
  · next hexecuted =>
      refine stands_toggleGroup hp h.buffer_ne_nil fun hlast => ?_
      by_contra hopen
      exact hkey ⟨Bool.eq_false_iff.2 hexecuted, hlast, Bool.eq_false_iff.2 hopen⟩

theorem stands_editor_insertAnswer (h : e.Coherent) (hp : Stands e.buffer p)
    (hkey : ¬Misplaced e .answer) : ∃ q : Position, Stands e.insertAnswer.buffer q := by
  change ∃ q : Position,
    Stands (if e.executed = true then e.lastAnswer else insertAnswer e.buffer e.lastAnswer) q
  split
  · exact exists_stands_bare h.isBareNumber_lastAnswer
  · next hexecuted =>
      refine stands_insertAnswer hp h.buffer_ne_nil h.isBareNumber_lastAnswer fun hclash => ?_
      exact hkey ⟨Bool.eq_false_iff.2 hexecuted, hclash⟩

theorem stands_editor_backspace (hp : Stands e.buffer p) :
    ∃ q : Position, Stands e.backspace.buffer q := by
  change ∃ q : Position, Stands (Text.orZero e.buffer.dropLast) q
  unfold Text.orZero
  split
  · exact ⟨_, stands_zero⟩
  · exact Position.exists_run?_of_isPrefix hp (List.dropLast_prefix e.buffer)

theorem stands_editor_toggleSign (h : e.Coherent) (hp : Stands e.buffer p) :
    ∃ q : Position, Stands e.toggleSign.buffer q := by
  unfold Editor.toggleSign
  split
  · next x hstatus =>
      exact exists_stands_bare (isBareNumber_toggleSign (h.isBareNumber_buffer hstatus))
  · split
    · next hbare => exact exists_stands_bare (isBareNumber_toggleSign hbare)
    · exact ⟨p, hp⟩

theorem stands_editor_commit (hp : Stands e.buffer p) :
    ∃ q : Position, Stands e.commit.1.buffer q := by
  have hcommits := e.commits_commit
  generalize e.commit = outcome at hcommits
  cases hcommits with
  | value _ _ hv => exact exists_stands_bare (isBareNumber_resultText (isFinite_of_evaluate hv))
  | _ => exact ⟨p, hp⟩

/-- A key that is not misplaced. -/
theorem stands_perform (h : e.Coherent) (hp : Stands e.buffer p) {key : Key}
    (hkey : ¬Misplaced e key) : ∃ q : Position, Stands (e.perform key.action).1.buffer q := by
  cases key with
  | glyph g => exact stands_editor_append h hp hkey
  | group => exact stands_editor_toggleGroup h hp hkey
  | sign => exact stands_editor_toggleSign h hp
  | answer => exact stands_editor_insertAnswer h hp hkey
  | backspace => exact stands_editor_backspace hp
  | clear => exact ⟨_, stands_zero⟩
  | equals => exact stands_editor_commit hp

/-- A key that is misplaced. -/
theorem stuck_perform (h : e.Coherent) (hp : Stands e.buffer p) {key : Key}
    (hkey : Misplaced e key) : Stuck (e.perform key.action).1.buffer := by
  cases key with
  | glyph g =>
      cases g with
      | operator op =>
          obtain ⟨hstatus, hop, hsign⟩ := hkey
          have happend : (e.append (.operator op)).buffer = appendOperator e.buffer op := by
            unfold Editor.append
            rw [hstatus]
            rfl
          change Stuck (e.append (.operator op)).buffer
          rw [happend]
          exact stuck_appendOperator hp hop hsign
      | _ => exact absurd hkey id
  | group =>
      obtain ⟨hexecuted, hlast, hopen⟩ := hkey
      change Stuck (if e.executed = true then ['('] else toggleGroup e.buffer)
      rw [if_neg (by simp [hexecuted])]
      exact stuck_toggleGroup hp hlast hopen
  | answer =>
      obtain ⟨hexecuted, hclash⟩ := hkey
      change Stuck (if e.executed = true then e.lastAnswer else insertAnswer e.buffer e.lastAnswer)
      rw [if_neg (by simp [hexecuted])]
      exact stuck_insertAnswer hp h.isBareNumber_lastAnswer hclash
  | _ => exact absurd hkey id

end

/-- The editor of a new session behind a list of keys. -/
def typed (keys : List Key) : Editor :=
  (({} : Session).pressAll keys).editor

theorem typed_append_singleton (keys : List Key) (key : Key) :
    typed (keys ++ [key]) = ((typed keys).perform key.action).1 := by
  rw [typed, Session.pressAll, List.foldl_append]
  rfl

theorem coherent_typed (keys : List Key) : (typed keys).Coherent := by
  rw [typed, Session.editor_pressAll]
  exact Editor.Coherent.new.run _

/-- As long as no key is misplaced the buffer is read to its end. -/
theorem stands_typed {keys : List Key}
    (hkeys : ∀ (ks : List Key) (key : Key), ks ++ [key] <+: keys → ¬Misplaced (typed ks) key) :
    ∃ p : Position, Stands (typed keys).buffer p := by
  induction keys using List.reverseRecOn with
  | nil => exact ⟨_, stands_zero⟩
  | append_singleton keys key ih =>
      obtain ⟨p, hp⟩ := ih fun ks key' hks => hkeys ks key' (hks.trans (List.prefix_append _ _))
      rw [typed_append_singleton]
      exact stands_perform (coherent_typed keys) hp (hkeys keys key (List.prefix_refl _))

theorem not_stuck_of_isPrefix {t : Text} (h : ∃ w : Text, Typable .sum w ∧ t <+: w) :
    ¬Stuck t := by
  intro hstuck
  obtain ⟨p, hp⟩ := isPrefix_typable_iff.1 h
  rw [Stuck, hp] at hstuck
  cases hstuck

/-- Along a list of keys from a new session on the buffer is always the beginning
of a word exactly if no key is misplaced. -/
theorem isPrefix_typable_along_iff (keys : List Key) :
    (∀ ks : List Key, ks <+: keys →
      ∃ w : Text, Typable .sum w ∧ (({} : Session).pressAll ks).editor.buffer <+: w) ↔
    ∀ (ks : List Key) (key : Key), ks ++ [key] <+: keys →
      ¬Misplaced (({} : Session).pressAll ks).editor key := by
  constructor
  · intro hall
    induction keys using List.reverseRecOn with
    | nil =>
        intro ks key hks
        simp at hks
    | append_singleton keys key ih =>
        have hbefore := ih fun ks hks => hall ks (hks.trans (List.prefix_append _ _))
        intro ks key' hks
        rcases List.prefix_concat_iff.1 hks with heq | hks
        · obtain ⟨rfl, hkey⟩ := List.append_inj' heq rfl
          cases hkey
          intro hmisplaced
          obtain ⟨p, hp⟩ := stands_typed hbefore
          have hstuck := stuck_perform (coherent_typed ks) hp hmisplaced
          rw [← typed_append_singleton] at hstuck
          exact not_stuck_of_isPrefix (hall (ks ++ [key]) (List.prefix_refl _)) hstuck
        · exact hbefore ks key' hks
  · intro hkeys ks hks
    obtain ⟨p, hp⟩ := stands_typed fun ks' key hks' => hkeys ks' key (hks'.trans hks)
    exact isPrefix_typable_iff.2 ⟨p, Position.run?_loose hp⟩

/-- The keys `5`, `±`, `←` and `+` lead to the buffer `+`, with which no word
begins. -/
theorem not_forall_isPrefix_typable :
    ¬∀ keys : List Key,
      ∃ w : Text, Typable .sum w ∧ (({} : Session).pressAll keys).editor.buffer <+: w := by
  intro hall
  exact not_stuck_of_isPrefix
    (hall [.glyph (.digit 5), .sign, .backspace, .glyph (.operator .plus)]) rfl

end Calculator
