import Calculator.Editor.Action
import Calculator.Proofs.Decimal.Tidy
import Calculator.Proofs.Editor.Segment

/-!
# Numerals as they are typed

Digits, zeros and the point are typed one key after the other, and each key looks at the numeral
so far. Where the whole sequence leads to is told at once, from what its keys write: that is the
`canonicalNumeral`. One more key at the end of a canonical numeral leads to the canonical numeral
of what is written then (`append_canonicalNumeral`), so that a sequence of keys writes one numeral
into the buffer (`run_append_numeral`), with a product sign before it behind a complete operand
(`StartsNumeral`).
-/

namespace Calculator

open Buffer

/-- The numeral that a sequence of digits and points leads to: its digits before the first point
without the zeros in front, or `0` if none is left, and behind a point all its other digits. -/
def canonicalNumeral (w : Text) : Text :=
  Text.orZero ((w.takeWhile (· != '.')).dropWhile (· == '0')) ++
    match w.dropWhile (· != '.') with
    | [] => []
    | _ :: rest => '.' :: rest.filter Char.isDigit

/-- What stands before a numeral that is typed behind the text: nothing of a lone `0`, the text
itself where an operand is due, and a product sign more behind a group or a percent sign. -/
inductive StartsNumeral : Text → Text → Prop
  | zero : StartsNumeral Text.zero []
  | operand {t : Text} {c : Char} :
      isOperator c = true ∨ c = '(' → StartsNumeral (t ++ [c]) (t ++ [c])
  | factor {t : Text} {c : Char} :
      c = ')' ∨ c = '%' → StartsNumeral (t ++ [c]) (t ++ [c] ++ ['×'])

section Canonical

variable {w v : Text}

/-- Digits and points are digits only, or digits up to a first point. -/
theorem digits_or_point (hw : ∀ c ∈ w, isNumeric c = true) :
    (∀ c ∈ w, c.isDigit = true) ∨
      ∃ d f : Text, w = d ++ '.' :: f ∧ ∀ c ∈ d, c.isDigit = true := by
  have hdigit : ∀ {d : Text}, (∀ c ∈ d, isNumeric c = true) → '.' ∉ d →
      ∀ c ∈ d, c.isDigit = true := by
    intro d hd hpoint c hc
    have hnumeric := hd c hc
    have hne : c ≠ '.' := by
      rintro rfl
      exact hpoint hc
    rw [isNumeric, beq_false_of_ne hne, Bool.or_false] at hnumeric
    exact hnumeric
  by_cases hpoint : '.' ∈ w
  · obtain ⟨d, f, rfl, hd⟩ := List.eq_append_cons_of_mem hpoint
    exact Or.inr ⟨d, f, rfl, hdigit (List.forall_mem_append.1 hw).1 hd⟩
  · exact Or.inl (hdigit hw hpoint)

theorem canonicalNumeral_digits (hw : ∀ c ∈ w, c.isDigit = true) :
    canonicalNumeral w = Text.orZero (w.dropWhile (· == '0')) := by
  obtain ⟨htake, hdrop⟩ := cut_digits hw
  rw [canonicalNumeral, htake, hdrop, List.append_nil]

theorem canonicalNumeral_point (hw : ∀ c ∈ w, c.isDigit = true) (f : Text) :
    canonicalNumeral (w ++ '.' :: f) =
      canonicalNumeral w ++ '.' :: f.filter Char.isDigit := by
  obtain ⟨htake, hdrop⟩ := cut_point hw f
  rw [canonicalNumeral, htake, hdrop, canonicalNumeral_digits hw]

/-- Digits without the zeros in front are the whole part of a tidy numeral. -/
theorem isWhole_canonicalNumeral (hw : ∀ c ∈ w, c.isDigit = true) :
    IsWhole (canonicalNumeral w) := by
  rw [canonicalNumeral_digits hw, Text.orZero]
  split
  · exact .zero
  · next hne =>
      obtain ⟨c, rest, hcons⟩ := List.exists_cons_of_ne_nil hne
      have hdigits : ∀ x ∈ w.dropWhile (· == '0'), x.isDigit = true := fun x hx =>
        hw x ((List.dropWhile_sublist _).subset hx)
      have hc : c ≠ '0' := by
        have hhead := List.head?_dropWhile_not (· == '0') w
        rw [hcons] at hhead
        simpa using hhead
      rw [hcons, List.forall_mem_cons] at hdigits
      rw [hcons]
      exact .digits hdigits.1 hc hdigits.2

theorem isTidy_canonicalNumeral (hw : ∀ c ∈ w, isNumeric c = true) :
    IsTidy (canonicalNumeral w) := by
  rcases digits_or_point hw with hdigits | ⟨d, f, rfl, hd⟩
  · exact .whole (isWhole_canonicalNumeral hdigits)
  · rw [canonicalNumeral_point hd]
    exact .point (isWhole_canonicalNumeral hd) fun c hc => (List.mem_filter.1 hc).2

theorem point_notMem_canonicalNumeral (hw : ∀ c ∈ w, c.isDigit = true) :
    '.' ∉ canonicalNumeral w := fun hmem =>
  ne_point_of_isDigit ((isWhole_canonicalNumeral hw).isDigit '.' hmem) rfl

/-- A zero in front does not count. -/
theorem canonicalNumeral_zero_cons (v : Text) :
    canonicalNumeral ('0' :: v) = canonicalNumeral v := by
  simp [canonicalNumeral]

/-- A first point is written, and a second one is not. -/
theorem canonicalNumeral_append_point (hw : ∀ c ∈ w, isNumeric c = true) :
    canonicalNumeral (w ++ ['.']) =
      if '.' ∈ canonicalNumeral w then canonicalNumeral w else canonicalNumeral w ++ ['.'] := by
  rcases digits_or_point hw with hdigits | ⟨d, f, rfl, hd⟩
  · rw [if_neg (point_notMem_canonicalNumeral hdigits), canonicalNumeral_point hdigits,
      List.filter_nil]
  · have hpoint : '.' ∈ canonicalNumeral (d ++ '.' :: f) := by
      rw [canonicalNumeral_point hd]
      simp
    have hnone : ['.'].filter Char.isDigit = [] := rfl
    rw [if_pos hpoint, List.append_assoc, List.cons_append, canonicalNumeral_point hd,
      canonicalNumeral_point hd, List.filter_append, hnone, List.append_nil]

/-- Digits are written behind a numeral other than `0`. -/
theorem canonicalNumeral_append_digits (hw : ∀ c ∈ w, isNumeric c = true)
    (hv : ∀ c ∈ v, c.isDigit = true) (hne : canonicalNumeral w ≠ Text.zero) :
    canonicalNumeral (w ++ v) = canonicalNumeral w ++ v := by
  rcases digits_or_point hw with hdigits | ⟨d, f, rfl, hd⟩
  · rw [canonicalNumeral_digits hdigits] at hne ⊢
    have hfirst : w.dropWhile (· == '0') ≠ [] := by
      intro hnil
      rw [hnil] at hne
      exact hne rfl
    rw [canonicalNumeral_digits (List.forall_mem_append.2 ⟨hdigits, hv⟩), List.dropWhile_append,
      if_neg (by rwa [List.isEmpty_iff]), Text.orZero_of_ne_nil hfirst,
      Text.orZero_of_ne_nil (List.append_ne_nil_of_left_ne_nil hfirst v)]
  · rw [List.append_assoc, List.cons_append, canonicalNumeral_point hd, canonicalNumeral_point hd,
      List.filter_append, List.filter_eq_self.2 hv, List.append_assoc, List.cons_append]

/-- Digits take the place of `0`. -/
theorem canonicalNumeral_append_of_zero (hw : ∀ c ∈ w, isNumeric c = true)
    (hv : ∀ c ∈ v, c.isDigit = true) (hzero : canonicalNumeral w = Text.zero) :
    canonicalNumeral (w ++ v) = canonicalNumeral v := by
  have hpoint : '.' ∉ canonicalNumeral w := by
    rw [hzero]
    decide
  rcases digits_or_point hw with hdigits | ⟨d, f, rfl, hd⟩
  · have hnone : w.dropWhile (· == '0') = [] := by
      by_contra hne
      obtain ⟨c, rest, hcons⟩ := List.exists_cons_of_ne_nil hne
      have hhead := List.head?_dropWhile_not (· == '0') w
      rw [canonicalNumeral_digits hdigits, Text.orZero_of_ne_nil hne] at hzero
      rw [hzero] at hhead
      cases hhead
    rw [canonicalNumeral_digits (List.forall_mem_append.2 ⟨hdigits, hv⟩), List.dropWhile_append,
      hnone, canonicalNumeral_digits hv]
    rfl
  · rw [canonicalNumeral_point hd] at hpoint
    exact absurd (by simp) hpoint

end Canonical

section Keys

variable {p w : Text} {g : Glyph} {gs : List Glyph}

theorem Glyph.isNumeric_of_mem_text (hg : g.canStart = true) :
    ∀ c ∈ g.text, isNumeric c = true := by
  by_cases hpoint : g = .point
  · rw [hpoint]
    exact List.forall_mem_singleton.2 rfl
  · exact fun c hc => isNumeric_of_isDigit ((isDigits_iff.1 (g.isDigits_text hg hpoint)).2 c hc)

theorem Buffer.append_of_canStart (hg : g.canStart = true) (t : Text) :
    append t g = (appendNumeric? (closeOperand t) g).getD t := by
  cases g with
  | operator op => cases hg
  | percent => cases hg
  | _ => rfl

/-- What the keys that write zeros only, or another digit, write first. -/
theorem Glyph.canonicalNumeral_text (hg : g.canStart = true) (hpoint : g ≠ .point) :
    canonicalNumeral g.text = if g.isZeros then Text.zero else g.text := by
  have hdigits := (isDigits_iff.1 (g.isDigits_text hg hpoint)).2
  cases g with
  | digit n =>
      have hdigit : ∀ k ≤ 9, k ≠ 0 → Char.ofNat (48 + k) ≠ '0' := by decide
      by_cases hn : n = 0
      · subst hn
        rfl
      · have hfirst := hdigit (min n 9) (Nat.min_le_right n 9) (by omega)
        rw [canonicalNumeral_digits hdigits, if_neg (by simpa [isZeros] using hn), text,
          List.dropWhile_cons_of_neg (by simpa using hfirst)]
        rfl
  | doubleZero => rfl
  | tripleZero => rfl
  | point => exact absurd rfl hpoint
  | operator op => cases hg
  | percent => cases hg

/-- The first key of a numeral. -/
theorem Buffer.appendNumeric?_of_boundary (hp : ∀ c ∈ p.getLast?, isBoundary c = true)
    (hg : g.canStart = true) : appendNumeric? p g = some (p ++ canonicalNumeral g.text) := by
  have hsegment : activeSegment p = [] := by
    have hnone := activeSegment_append hp (List.forall_mem_nil _)
    rwa [List.append_nil] at hnone
  have hzero : ([] : Text) ≠ Text.zero := (List.cons_ne_nil _ _).symm
  simp only [appendNumeric?, hsegment]
  by_cases hpoint : g = .point
  · rw [hpoint]
    rfl
  · rw [if_neg hpoint, Glyph.canonicalNumeral_text hg hpoint]
    by_cases hzeros : g.isZeros = true
    · rw [if_pos hzeros, if_pos hzeros, if_neg hzero, if_pos trivial]
      rfl
    · rw [if_neg hzeros, if_neg hzeros, if_neg hzero]

/-- One more key of a numeral. -/
theorem Buffer.appendNumeric?_canonicalNumeral (hp : ∀ c ∈ p.getLast?, isBoundary c = true)
    (hw : ∀ c ∈ w, isNumeric c = true) (hg : g.canStart = true) :
    (appendNumeric? (p ++ canonicalNumeral w) g).getD (p ++ canonicalNumeral w) =
      p ++ canonicalNumeral (w ++ g.text) := by
  have htidy := isTidy_canonicalNumeral hw
  simp only [appendNumeric?, activeSegment_append hp htidy.isNumeric]
  by_cases hpoint : g = .point
  · rw [hpoint, if_pos rfl, Glyph.text, canonicalNumeral_append_point hw]
    split
    · rfl
    · rw [if_neg htidy.ne_nil, List.append_assoc]
      rfl
  · have hdigits := (isDigits_iff.1 (Glyph.isDigits_text hg hpoint)).2
    rw [if_neg hpoint]
    by_cases hzero : canonicalNumeral w = Text.zero
    · rw [canonicalNumeral_append_of_zero hw hdigits hzero, Glyph.canonicalNumeral_text hg hpoint,
        hzero]
      split
      · rfl
      · rw [if_pos rfl, Text.zero, List.dropLast_concat]
        rfl
    · have happend : p ++ canonicalNumeral (w ++ g.text) = p ++ canonicalNumeral w ++ g.text := by
        rw [canonicalNumeral_append_digits hw hdigits hzero, List.append_assoc]
      rw [if_neg hzero, if_neg hzero, if_neg htidy.ne_nil, happend, ite_self]
      rfl

theorem Buffer.closeOperand_append_numeral {s : Text} (hne : s ≠ [])
    (hs : ∀ c ∈ s, isNumeric c = true) : closeOperand (p ++ s) = p ++ s := by
  have hlast : ∀ {c : Char}, isNumeric c = false → (p ++ s).getLast? ≠ some c := by
    intro c hc hlast
    rw [List.getLast?_append_of_ne_nil p hne] at hlast
    rw [hs c (List.mem_of_getLast? hlast)] at hc
    cases hc
  rw [closeOperand, if_neg (not_or.2 ⟨hlast rfl, hlast rfl⟩)]

/-- One more key behind a canonical numeral writes the canonical numeral of all its keys. -/
theorem Buffer.append_canonicalNumeral (hp : ∀ c ∈ p.getLast?, isBoundary c = true)
    (hw : ∀ c ∈ w, isNumeric c = true) (hg : g.canStart = true) :
    append (p ++ canonicalNumeral w) g = p ++ canonicalNumeral (w ++ g.text) := by
  have htidy := isTidy_canonicalNumeral hw
  rw [append_of_canStart hg, closeOperand_append_numeral htidy.ne_nil htidy.isNumeric,
    appendNumeric?_canonicalNumeral hp hw hg]

theorem Buffer.foldl_append_canonicalNumeral (hp : ∀ c ∈ p.getLast?, isBoundary c = true)
    (hw : ∀ c ∈ w, isNumeric c = true) (hgs : ∀ g ∈ gs, g.canStart = true) :
    gs.foldl append (p ++ canonicalNumeral w) =
      p ++ canonicalNumeral (w ++ gs.flatMap Glyph.text) := by
  induction gs generalizing w with
  | nil => rw [List.foldl_nil, List.flatMap_nil, List.append_nil]
  | cons g gs ih =>
      obtain ⟨hg, hgs⟩ := List.forall_mem_cons.1 hgs
      have hnext : ∀ c ∈ w ++ g.text, isNumeric c = true :=
        List.forall_mem_append.2 ⟨hw, Glyph.isNumeric_of_mem_text hg⟩
      rw [List.foldl_cons, append_canonicalNumeral hp hw hg, ih hnext hgs, List.flatMap_cons,
        List.append_assoc]

namespace StartsNumeral

variable {t : Text}

/-- What stands before a numeral ends with no numeral. -/
theorem isBoundary (h : StartsNumeral t p) : ∀ c ∈ p.getLast?, isBoundary c = true := by
  cases h with
  | zero => exact fun c hc => nomatch hc
  | operand hc =>
      rw [List.getLast?_concat]
      rintro c ⟨⟩
      rcases hc with hc | rfl
      · exact isBoundary_of_isOperator hc
      · rfl
  | factor hc =>
      rw [List.getLast?_concat]
      rintro c ⟨⟩
      rfl

/-- The first key writes its canonical numeral behind what stands before it. -/
theorem append (h : StartsNumeral t p) {g : Glyph} (hg : g.canStart = true) :
    Buffer.append t g = p ++ canonicalNumeral g.text := by
  have hp := h.isBoundary
  cases h with
  | zero =>
      have hfirst := append_canonicalNumeral hp (w := ['0']) (List.forall_mem_singleton.2 rfl) hg
      rwa [List.singleton_append, canonicalNumeral_zero_cons] at hfirst
  | @operand t c hc =>
      have hclose : closeOperand (t ++ [c]) = t ++ [c] := by
        rw [closeOperand, List.getLast?_concat, if_neg]
        rintro (hlast | hlast) <;> cases hlast <;> rcases hc with hc | hc <;> cases hc
      rw [append_of_canStart hg, hclose, appendNumeric?_of_boundary hp hg, Option.getD_some]
  | @factor t c hc =>
      have hclose : closeOperand (t ++ [c]) = t ++ [c] ++ ['×'] := by
        rw [closeOperand, List.getLast?_concat, if_pos (by simpa using hc)]
      rw [append_of_canStart hg, hclose, appendNumeric?_of_boundary hp hg, Option.getD_some]

end StartsNumeral

theorem Editor.run_append_of_editing {e : Editor} (he : e.status = .editing) (gs : List Glyph) :
    e.run (gs.map .append) = e.edit (gs.foldl Buffer.append e.buffer) := by
  induction gs generalizing e with
  | nil =>
      cases e
      cases he
      rfl
  | cons g gs ih =>
      have happend : e.append g = e.edit (Buffer.append e.buffer g) := by
        rw [Editor.append]
        exact he
      rw [List.map_cons, Editor.run_cons, Editor.perform, happend, ih rfl, List.foldl_cons]
      rfl

/-- Keys of digits, zeros and points that are typed where a numeral starts write one numeral: the
canonical text of all that they write, one behind the other. -/
theorem run_append_numeral {e : Editor} (he : e.status = .editing) (hp : StartsNumeral e.buffer p)
    (hne : gs ≠ []) (hgs : ∀ g ∈ gs, g.canStart = true) :
    e.run (gs.map .append) = e.edit (p ++ canonicalNumeral (gs.flatMap Glyph.text)) := by
  obtain ⟨g, gs, rfl⟩ := List.exists_cons_of_ne_nil hne
  obtain ⟨hg, hgs⟩ := List.forall_mem_cons.1 hgs
  rw [Editor.run_append_of_editing he, List.foldl_cons, hp.append hg,
    foldl_append_canonicalNumeral hp.isBoundary (Glyph.isNumeric_of_mem_text hg) hgs,
    List.flatMap_cons]

/-- Behind `(2)%` the keys `00`, `0`, `5`, point, `0`, point and `7` write `×5.07`. -/
theorem run_append_numeral_behind_percent :
    Editor.run { buffer := ['(', '2', ')', '%'] } ([.doubleZero, .digit 0, .digit 5, .point,
        .digit 0, .point, .digit 7].map .append) =
      { buffer := ['(', '2', ')', '%', '×', '5', '.', '0', '7'] } :=
  run_append_numeral (p := ['(', '2', ')', '%', '×']) rfl
    (.factor (t := ['(', '2', ')']) (Or.inr rfl)) (List.cons_ne_nil _ _) (List.all_eq_true.1 rfl)

end Keys

end Calculator
