import Calculator.Interface
import Calculator.Proofs.Editor.Coherence

/-!
# What is drawn

Under its title the screen shows the buffer and three blocks around it: the expression
whose result the buffer is, the preview, and the diagnosis of a failure (`lines_eq`).
Each block is drawn under a condition of its own. That they go together is due to the
status of the editor, which asks for one of them at most, and to its coherence: the
diagnosis is one of the buffer that is shown (`errorBlock_of_coherent`).
-/

namespace Calculator

theorem Fault.message_ne_nil (f : Fault) : f.message ≠ [] := by
  cases f <;> exact List.cons_ne_nil _ _

theorem Report.message_ne_nil (t : Text) (f : Fault) : (Report.on t f).message ≠ [] := by
  rw [Report.on]
  split
  · exact List.cons_ne_nil _ _
  · exact f.message_ne_nil

namespace Screen

/-- The lines that are shown: those with a text. -/
def shown (lines : List Line) : List Line :=
  lines.filter fun line => line.text != []

/-- The block of the expression whose result is shown. -/
def expressionBlock (s : Screen) : List Line :=
  shown (s.lastExpression.map fun t => Line.mk (t ++ [' ', '=']) .plain).toList

/-- The block of the preview. -/
def previewBlock (s : Screen) : List Line :=
  shown (s.preview.map fun t => Line.mk ('=' :: ' ' :: t) .plain).toList

/-- The block of a failure. -/
def errorBlock (s : Screen) : List Line :=
  shown ((s.report.map fun report => diagnosisLines report s.suggestion).getD [])

/-- The lines in which a zone is shown. -/
def zoneBlock (z : Option Zone) : List Line :=
  shown ((z.map zoneLines).getD [])

theorem shown_cons {line : Line} (h : line.text ≠ []) (lines : List Line) :
    shown (line :: lines) = line :: shown lines :=
  List.filter_cons_of_pos (bne_iff_ne.2 h)

theorem shown_append (lines more : List Line) :
    shown (lines ++ more) = shown lines ++ shown more :=
  List.filter_append ..

/-- What is shown has the same text as all of it. -/
theorem flatMap_text_shown (lines : List Line) :
    (shown lines).flatMap Line.text = lines.flatMap Line.text := by
  induction lines with
  | nil => rfl
  | cons line lines ih =>
      by_cases h : line.text = []
      · rw [shown, List.filter_cons_of_neg (by simp [h]), List.flatMap_cons, h, List.nil_append]
        exact ih
      · rw [shown_cons h, List.flatMap_cons, List.flatMap_cons, ih]

/-- The title, the buffer and the three blocks make up the screen. -/
theorem lines_eq {s : Screen} (h : s.buffer ≠ []) :
    s.lines = ⟨screenTitle, .plain⟩ :: s.expressionBlock ++
      ⟨s.buffer, .plain⟩ :: s.previewBlock ++ s.errorBlock := by
  have htitle : screenTitle ≠ [] := List.cons_ne_nil _ _
  change shown _ = _
  rw [shown_append, shown_append, shown_cons htitle, shown_cons h, expressionBlock,
    previewBlock, errorBlock]

/-- The texts of a zone's lines make up the text that it is a cut of. -/
theorem text_zoneBlock (z : Zone) : (zoneBlock (some z)).flatMap Line.text = z.text := by
  rw [zoneBlock, flatMap_text_shown]
  simp [zoneLines, Zone.text]

theorem shown_suggestionLines (suggestion : Option Suggestion) :
    shown (suggestionLines suggestion) = suggestionLines suggestion := by
  have hnone : noSuggestionMessage ≠ [] := List.cons_ne_nil _ _
  have hlabel : applyLabel ≠ [] := List.cons_ne_nil _ _
  cases suggestion with
  | none => exact shown_cons hnone []
  | some s =>
      have hoffer : s.repair.message ++ [' ', '→', ' '] ++ s.fix ≠ [] := by simp
      rw [suggestionLines, shown_cons hoffer, shown_cons hlabel]
      rfl

/-- The block of a report shows its zone, its wording, and the suggestion. -/
theorem shown_diagnosisLines {report : Report} (h : report.message ≠ [])
    (suggestion : Option Suggestion) :
    shown (diagnosisLines report suggestion) =
      zoneBlock report.zone ++ ⟨report.message, .plain⟩ :: suggestionLines suggestion := by
  rw [diagnosisLines, shown_append, shown_cons h, shown_suggestionLines, zoneBlock]

theorem button_not_mem_zoneBlock (z : Option Zone) : ⟨applyLabel, .button⟩ ∉ zoneBlock z := by
  intro hmem
  cases z with
  | none => cases hmem
  | some z => simp [zoneBlock, shown, zoneLines] at hmem

theorem button_mem_suggestionLines_iff {suggestion : Option Suggestion} :
    ⟨applyLabel, .button⟩ ∈ suggestionLines suggestion ↔
      ∃ s : Suggestion, suggestion = some s := by
  cases suggestion with
  | none => simp [suggestionLines]
  | some s => simp [suggestionLines]

section

variable {e : Editor}

theorem expressionBlock_eq_nil (h : e.lastExpression? = none) :
    (ofEditor e).expressionBlock = [] := by
  rw [expressionBlock, ofEditor, h]
  rfl

theorem previewBlock_eq_nil (h : e.status ≠ .editing) : (ofEditor e).previewBlock = [] := by
  have hpreview : e.preview = none := by
    unfold Editor.preview
    split
    · next hstatus => exact absurd hstatus h
    · rfl
  rw [previewBlock, ofEditor, hpreview]
  rfl

theorem errorBlock_eq_nil (h : e.report? = none) : (ofEditor e).errorBlock = [] := by
  rw [errorBlock, ofEditor, h]
  rfl

/-- The status of the editor asks for one block at most. -/
theorem blocks_eq_nil (e : Editor) :
    (ofEditor e).expressionBlock = [] ∧ (ofEditor e).errorBlock = [] ∨
      (ofEditor e).previewBlock = [] ∧ (ofEditor e).errorBlock = [] ∨
      (ofEditor e).expressionBlock = [] ∧ (ofEditor e).previewBlock = [] := by
  cases hstatus : e.status with
  | editing =>
      refine Or.inl ⟨expressionBlock_eq_nil ?_, errorBlock_eq_nil ?_⟩
      · rw [Editor.lastExpression?, hstatus]
      · rw [Editor.report?, hstatus]
  | executed x =>
      refine Or.inr (Or.inl ⟨previewBlock_eq_nil (by simp [hstatus]), errorBlock_eq_nil ?_⟩)
      rw [Editor.report?, hstatus]
  | failed r s =>
      refine Or.inr (Or.inr ⟨expressionBlock_eq_nil ?_, previewBlock_eq_nil (by simp [hstatus])⟩)
      rw [Editor.lastExpression?, hstatus]

/-- The error block is about the buffer, its fault and its suggestion. -/
theorem errorBlock_of_coherent (h : e.Coherent) (hblock : (ofEditor e).errorBlock ≠ []) :
    ∃ f : Fault, evaluate e.buffer = .error f ∧
      (ofEditor e).errorBlock =
        zoneBlock (Report.on e.buffer f).zone ++
          ⟨(Report.on e.buffer f).message, .plain⟩ :: suggestionLines (suggest e.buffer) := by
  cases hreport : e.report? with
  | none => exact absurd (errorBlock_eq_nil hreport) hblock
  | some r =>
      obtain ⟨-, hfault, hon, hsuggestion⟩ := h.of_report? hreport
      refine ⟨r.fault, hfault, ?_⟩
      rw [errorBlock, ofEditor, hreport, hsuggestion, ← hon]
      refine shown_diagnosisLines ?_ _
      rw [hon]
      exact Report.message_ne_nil _ _

/-- The button of a suggestion is drawn in the error block. -/
theorem button_mem_lines_iff (h : e.Coherent) :
    ⟨applyLabel, .button⟩ ∈ (ofEditor e).lines ↔
      (ofEditor e).errorBlock ≠ [] ∧ ∃ s : Suggestion, suggest e.buffer = some s := by
  have hplain : ⟨applyLabel, .button⟩ ∈ (ofEditor e).lines ↔
      ⟨applyLabel, .button⟩ ∈ (ofEditor e).errorBlock := by
    rw [lines_eq h.buffer_ne_nil]
    simp [expressionBlock, previewBlock, shown]
  rw [hplain]
  by_cases hblock : (ofEditor e).errorBlock = []
  · simp [hblock]
  · obtain ⟨f, -, heq⟩ := errorBlock_of_coherent h hblock
    rw [and_iff_right hblock, heq, List.mem_append, or_iff_right (button_not_mem_zoneBlock _),
      List.mem_cons, or_iff_right (by simp), button_mem_suggestionLines_iff]

end

end Screen

namespace Session

variable {s : Session}

/-- A gesture is a list of actions, or nothing. -/
theorem coherent_handle (h : s.editor.Coherent) (g : Gesture) : (s.handle g).editor.Coherent := by
  cases g with
  | keyboard events =>
      change (s.pressAll _).editor.Coherent
      rw [editor_pressAll]
      exact h.run _
  | click label =>
      change (s.click label).editor.Coherent
      unfold click
      split
      · next key _ => exact h.perform key.action
      · split
        · exact h.perform .applyFix
        · exact h
  | load expression => exact h.perform (.load expression)

theorem coherent_run_gestures (h : s.editor.Coherent) (gestures : List Gesture) :
    (s.run gestures).editor.Coherent := by
  induction gestures generalizing s with
  | nil => exact h
  | cons g gestures ih => exact ih (coherent_handle h g)

end Session

/-- Whatever is done in front of the screen, what is drawn goes together: one block at
most besides the buffer; if it is that of a failure, the buffer has the fault that is
worded, the parts of the zone make up the buffer, and the button is there exactly if
there is a suggestion for the buffer, right behind the text of the suggestion. -/
theorem picture_run (gestures : List Gesture) :
    let s := Screen.ofEditor (({} : Session).run gestures).editor
    s.lines = ⟨screenTitle, .plain⟩ :: s.expressionBlock ++
        ⟨s.buffer, .plain⟩ :: s.previewBlock ++ s.errorBlock ∧
      (s.expressionBlock = [] ∧ s.errorBlock = [] ∨ s.previewBlock = [] ∧ s.errorBlock = [] ∨
        s.expressionBlock = [] ∧ s.previewBlock = []) ∧
      (s.errorBlock ≠ [] → ∃ f : Fault, evaluate s.buffer = .error f ∧
        s.errorBlock = Screen.zoneBlock (Report.on s.buffer f).zone ++
          ⟨(Report.on s.buffer f).message, .plain⟩ ::
            Screen.suggestionLines (suggest s.buffer) ∧
        ∀ z : Zone, (Report.on s.buffer f).zone = some z →
          (Screen.zoneBlock (some z)).flatMap Line.text = s.buffer) ∧
      (⟨applyLabel, .button⟩ ∈ s.lines ↔
        s.errorBlock ≠ [] ∧ ∃ g : Suggestion, suggest s.buffer = some g) ∧
      ∀ g : Suggestion, s.errorBlock ≠ [] → suggest s.buffer = some g →
        [⟨g.repair.message ++ [' ', '→', ' '] ++ g.fix, .plain⟩, ⟨applyLabel, .button⟩] <:+
          s.lines := by
  intro s
  have h : (({} : Session).run gestures).editor.Coherent :=
    Session.coherent_run_gestures Editor.Coherent.new gestures
  have hlines := Screen.lines_eq (s := s) h.buffer_ne_nil
  refine ⟨hlines, Screen.blocks_eq_nil _, fun hblock => ?_,
    Screen.button_mem_lines_iff h, fun g hblock hg => ?_⟩
  · obtain ⟨f, hf, heq⟩ := Screen.errorBlock_of_coherent h hblock
    refine ⟨f, hf, heq, fun z hz => ?_⟩
    rw [Screen.text_zoneBlock]
    exact text_of_locate hz
  · obtain ⟨f, -, heq⟩ := Screen.errorBlock_of_coherent h hblock
    have hoffer : Screen.suggestionLines (suggest s.buffer) <:+ s.errorBlock :=
      heq ▸ (List.suffix_cons ..).trans (List.suffix_append ..)
    rw [hg] at hoffer
    exact hoffer.trans (hlines ▸ List.suffix_append ..)

/-- `(9-2` fails behind a click on `=`: its zone is drawn whole, and the button comes
behind the text that offers `(9-2)`. -/
theorem picture_of_open_group :
    (Screen.zoneBlock (some ⟨[], ['('], ['9', '-', '2']⟩)).flatMap Line.text =
        ['(', '9', '-', '2'] ∧
      [⟨Repair.closeGroups.message ++ [' ', '→', ' '] ++ ['(', '9', '-', '2', ')'], .plain⟩,
          ⟨applyLabel, .button⟩] <:+
        (Screen.ofEditor (({} : Session).run
          [.load ['(', '9', '-', '2'], .click ['=']]).editor).lines := by
  have hbuffer : (Screen.ofEditor (({} : Session).run
      [.load ['(', '9', '-', '2'], .click ['=']]).editor).buffer = ['(', '9', '-', '2'] := by
    decide +kernel
  have hblock : (Screen.ofEditor (({} : Session).run
      [.load ['(', '9', '-', '2'], .click ['=']]).editor).errorBlock ≠ [] := by decide +kernel
  obtain ⟨-, -, herror, -, hoffer⟩ :=
    picture_run [.load ['(', '9', '-', '2'], .click ['=']]
  obtain ⟨f, hf, -, hzone⟩ := herror hblock
  have hvalue : evaluate ['(', '9', '-', '2'] = .error .unbalanced := by decide +kernel
  rw [hbuffer] at hf hzone hoffer
  obtain rfl : .unbalanced = f := Except.error.inj (hvalue.symm.trans hf)
  exact ⟨hzone _ (by decide +kernel), hoffer ⟨.closeGroups, _⟩ hblock (by decide +kernel)⟩

end Calculator
