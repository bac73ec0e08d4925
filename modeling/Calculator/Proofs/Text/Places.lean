import Calculator.Proofs.Text.Runs

/-!
# Places of lexemes

A lexeme stands in a text between two others (`Lexeme.StandsIn`): a symbol anywhere, a run where
no digit or point is next to it. The place of a lexeme is told by the text alone, and the lexemes
of the text are those before the place, the one that stands there and those behind it
(`StandsIn.lexemes_eq`).

A text is read lexeme by lexeme (`lexeme_induction`): the first one has nothing before it, and
every other place is a place of what stands behind the first one (`StandsIn.standsIn_iff`).
-/

namespace Calculator

namespace Lexeme

/-- The lexeme stands in the text `t` with `u` before it and `v` behind it. A run goes on neither
before nor behind. -/
structure StandsIn (l : Lexeme) (t u v : Text) : Prop where
  text_eq : t = u ++ (l.text ++ v)
  wellFormed : l.WellFormed
  maximal : ∀ r : Text, l = .run r →
    (∀ c ∈ u.getLast?, isNumeric c = false) ∧ ∀ c ∈ v.head?, isNumeric c = false

variable {l m : Lexeme} {t u v w : Text} {c : Char}

theorem standsIn_symbol (hc : isNumeric c = false) (u v : Text) :
    (symbol c).StandsIn (u ++ c :: v) u v where
  text_eq := rfl
  wellFormed := hc
  maximal := fun _ h => nomatch h

theorem text_ne_nil (h : l.WellFormed) : l.text ≠ [] := by
  cases l with
  | run r => exact h.1
  | symbol c => exact List.cons_ne_nil c []

namespace StandsIn

/-- The lexemes before the place, the one that stands there and the ones behind it. -/
theorem lexemes_eq (h : l.StandsIn t u v) : lexemes t = lexemes u ++ l :: lexemes v := by
  obtain ⟨rfl, hl, hmaximal⟩ := h
  cases l with
  | run r =>
      obtain ⟨hu, hv⟩ := hmaximal r rfl
      rw [text, lexemes_append_of_getLast hu, lexemes_append_of_head hv,
        lexemes_of_numeric hl.1 hl.2, List.singleton_append]
  | symbol c => exact lexemes_append_symbol hl u v

theorem lexemes_eq_cons (h : l.StandsIn t [] v) : lexemes t = l :: lexemes v :=
  h.lexemes_eq

/-- What stands before a text does not matter for the places in it. -/
theorem of_append (h : l.StandsIn (w ++ t) (w ++ u) v) : l.StandsIn t u v where
  text_eq := by
    have htext := h.text_eq
    rwa [List.append_assoc, List.append_cancel_left_eq] at htext
  wellFormed := h.wellFormed
  maximal := by
    intro r hr
    obtain ⟨hu, hv⟩ := h.maximal r hr
    refine ⟨fun c hc => hu c ?_, hv⟩
    have hne : u ≠ [] := by
      rintro rfl
      cases hc
    rwa [List.getLast?_append_of_ne_nil w hne]

/-- A place behind the first lexeme is a place of the text. -/
theorem append (hfirst : l.StandsIn t [] v) (h : m.StandsIn v u w) :
    m.StandsIn t (l.text ++ u) w where
  text_eq := by rw [hfirst.text_eq, h.text_eq, List.nil_append, List.append_assoc]
  wellFormed := h.wellFormed
  maximal := by
    rintro r rfl
    obtain ⟨hu, hw⟩ := h.maximal r rfl
    refine ⟨?_, hw⟩
    by_cases hne : u = []
    · subst hne
      cases l with
      | symbol c =>
          rintro d ⟨⟩
          exact hfirst.wellFormed
      | run q =>
          -- a run directly behind the first one would be a part of it
          obtain ⟨c, r, rfl⟩ := List.exists_cons_of_ne_nil h.wellFormed.1
          have hsymbol : isNumeric c = false := by
            refine (hfirst.maximal q rfl).2 c ?_
            rw [h.text_eq]
            rfl
          have hnumeric : isNumeric c = true := h.wellFormed.2 c (List.mem_cons_self ..)
          rw [hsymbol] at hnumeric
          cases hnumeric
    · rwa [List.getLast?_append_of_ne_nil _ hne]

/-- The places of a text are that of its first lexeme and those of what stands behind it. -/
theorem standsIn_iff (hfirst : l.StandsIn t [] v) :
    m.StandsIn t u w ↔
      (u = [] ∧ m = l ∧ w = v) ∨ ∃ s : Text, u = l.text ++ s ∧ m.StandsIn v s w := by
  constructor
  · intro h
    have hlexemes := h.lexemes_eq
    rw [hfirst.lexemes_eq_cons] at hlexemes
    have hu := text_lexemes u
    cases hbefore : lexemes u with
    | nil =>
        rw [hbefore, List.nil_append] at hlexemes
        obtain ⟨hm, hrest⟩ := List.cons.inj hlexemes
        rw [hbefore, List.flatMap_nil] at hu
        exact Or.inl ⟨hu.symm, hm.symm, by rw [← text_lexemes w, ← hrest, text_lexemes]⟩
    | cons k ls =>
        rw [hbefore, List.cons_append] at hlexemes
        obtain ⟨rfl, -⟩ := List.cons.inj hlexemes
        rw [hbefore, List.flatMap_cons] at hu
        refine Or.inr ⟨ls.flatMap text, hu.symm, StandsIn.of_append (w := l.text) ?_⟩
        have htext := hfirst.text_eq
        rw [List.nil_append] at htext
        rwa [← htext, hu]
  · rintro (⟨rfl, rfl, rfl⟩ | ⟨s, rfl, h⟩)
    · exact hfirst
    · exact hfirst.append h

end StandsIn

theorem not_standsIn_nil : ¬l.StandsIn [] u v := by
  intro h
  have htext := h.text_eq.symm
  rw [List.append_eq_nil_iff, List.append_eq_nil_iff] at htext
  exact text_ne_nil h.wellFormed htext.2.1

/-- A text begins with a lexeme. -/
theorem exists_standsIn_of_ne_nil (ht : t ≠ []) :
    ∃ (l : Lexeme) (v : Text), l.StandsIn t [] v := by
  obtain ⟨r, v, rfl, hr, hv⟩ := exists_cut_head t
  by_cases hne : r = []
  · subst hne
    rw [List.nil_append] at ht ⊢
    obtain ⟨c, v, rfl⟩ := List.exists_cons_of_ne_nil ht
    exact ⟨.symbol c, v, standsIn_symbol (hv c rfl) [] v⟩
  · exact ⟨.run r, v, rfl, ⟨hne, hr⟩, fun _ _ => ⟨by simp, hv⟩⟩

end Lexeme

/-- A text is read lexeme by lexeme. -/
theorem lexeme_induction {P : Text → Prop} (hnil : P [])
    (hnext : ∀ (l : Lexeme) (t v : Text), l.StandsIn t [] v → P v → P t) (t : Text) : P t := by
  generalize hls : lexemes t = ls
  induction ls generalizing t with
  | nil =>
      rwa [← text_lexemes t, hls]
  | cons l ls ih =>
      have ht : t ≠ [] := by
        rintro rfl
        cases hls
      obtain ⟨m, v, hm⟩ := Lexeme.exists_standsIn_of_ne_nil ht
      rw [hm.lexemes_eq_cons] at hls
      exact hnext m t v hm (ih v (List.cons.inj hls).2)

/-- Every lexeme of a text stands somewhere in it. -/
theorem exists_standsIn_of_mem {l : Lexeme} {t : Text} (h : l ∈ lexemes t) :
    ∃ u v : Text, l.StandsIn t u v := by
  induction t using lexeme_induction with
  | hnil => cases h
  | hnext m t v hm ih =>
      rw [hm.lexemes_eq_cons, List.mem_cons] at h
      rcases h with rfl | h
      · exact ⟨[], v, hm⟩
      · obtain ⟨u, w, hl⟩ := ih h
        exact ⟨m.text ++ u, w, hm.append hl⟩

theorem mem_runs_iff_exists_standsIn {r t : Text} :
    r ∈ runs t ↔ ∃ u v : Text, (Lexeme.run r).StandsIn t u v := by
  rw [mem_runs_iff]
  constructor
  · exact exists_standsIn_of_mem
  · rintro ⟨u, v, h⟩
    rw [h.lexemes_eq]
    exact List.mem_append_right _ (List.mem_cons_self ..)

end Calculator
