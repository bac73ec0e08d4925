import Mathlib.Data.List.Infix
import Calculator.Text

/-!
# Open groups

`openGroups? d t` counts the groups that are open behind the text `t` where `d` are
open before it, and has no answer where a group is closed that is not open. It goes
over a text piece by piece (`openGroups?_append`) and sees nothing but parentheses.
It has an answer exactly if no beginning of the text closes more groups than there
are to close (`isSome_openGroups?_iff`), and the answer is the difference of the two
counts (`count_of_openGroups?`). So the parentheses of a text match exactly if no group
is open behind it (`balanced_iff`).

A row of characters that occurs across a gap of other characters occurs on one side of
it (`isInfix_of_isInfix_append_gap`).
-/

namespace Calculator

/-- The open groups behind a text with `d` of them before it; `none` if a closing
parenthesis has no group to close. -/
def openGroups? (d : Nat) : Text → Option Nat
  | [] => some d
  | c :: t =>
      if c = '(' then openGroups? (d + 1) t
      else if c = ')' then
        match d with
        | 0 => none
        | d + 1 => openGroups? d t
      else openGroups? d t

@[simp] theorem openGroups?_opening (d : Nat) (t : Text) :
    openGroups? d ('(' :: t) = openGroups? (d + 1) t := rfl

@[simp] theorem openGroups?_zero_closing (t : Text) : openGroups? 0 (')' :: t) = none := rfl

@[simp] theorem openGroups?_succ_closing (d : Nat) (t : Text) :
    openGroups? (d + 1) (')' :: t) = openGroups? d t := rfl

theorem openGroups?_cons_of_ne {c : Char} (hopening : c ≠ '(') (hclosing : c ≠ ')') (d : Nat)
    (t : Text) : openGroups? d (c :: t) = openGroups? d t := by
  rw [openGroups?.eq_def]
  exact (if_neg hopening).trans (if_neg hclosing)

theorem openGroups?_append (d : Nat) (u v : Text) :
    openGroups? d (u ++ v) = (openGroups? d u).bind fun k => openGroups? k v := by
  induction u generalizing d with
  | nil => rfl
  | cons c u ih =>
      rw [List.cons_append]
      by_cases hopening : c = '('
      · rw [hopening, openGroups?_opening, openGroups?_opening, ih]
      · by_cases hclosing : c = ')'
        · cases d with
          | zero => rw [hclosing]; rfl
          | succ d => rw [hclosing, openGroups?_succ_closing, openGroups?_succ_closing, ih]
        · rw [openGroups?_cons_of_ne hopening hclosing,
            openGroups?_cons_of_ne hopening hclosing, ih]

theorem openGroups?_append_congr {v w : Text} (h : ∀ k : Nat, openGroups? k v = openGroups? k w)
    (u : Text) (d : Nat) : openGroups? d (u ++ v) = openGroups? d (u ++ w) := by
  rw [openGroups?_append, openGroups?_append, funext h]

/-- A text without parentheses opens and closes nothing. -/
theorem openGroups?_of_not_mem {u : Text} (h : ∀ c ∈ u, c ≠ '(' ∧ c ≠ ')') (d : Nat) :
    openGroups? d u = some d := by
  induction u with
  | nil => rfl
  | cons c u ih =>
      obtain ⟨hopening, hclosing⟩ := h c (List.mem_cons_self ..)
      rw [openGroups?_cons_of_ne hopening hclosing, ih fun x hx => h x (List.mem_cons_of_mem c hx)]

theorem openGroups?_append_of_not_mem {u : Text} (h : ∀ c ∈ u, c ≠ '(' ∧ c ≠ ')') (d : Nat)
    (v : Text) : openGroups? d (u ++ v) = openGroups? d v := by
  rw [openGroups?_append, openGroups?_of_not_mem h, Option.bind_some]

theorem count_of_openGroups? {d k : Nat} {t : Text} (h : openGroups? d t = some k) :
    d + t.count '(' = k + t.count ')' := by
  induction t generalizing d with
  | nil => cases h; rfl
  | cons c t ih =>
      by_cases hopening : c = '('
      · subst hopening
        have := ih h
        simp only [List.count_cons_self, List.count_cons_of_ne (show '(' ≠ ')' by decide)]
        omega
      · by_cases hclosing : c = ')'
        · subst hclosing
          cases d with
          | zero => cases h
          | succ d =>
              have := ih h
              simp only [List.count_cons_self, List.count_cons_of_ne (show ')' ≠ '(' by decide)]
              omega
        · rw [openGroups?_cons_of_ne hopening hclosing] at h
          rw [List.count_cons_of_ne hopening, List.count_cons_of_ne hclosing]
          exact ih h

/-- No beginning of the text closes more groups than are open in it. -/
theorem isSome_openGroups?_iff {d : Nat} {t : Text} :
    (openGroups? d t).isSome = true ↔
      ∀ p : Text, p <+: t → p.count ')' ≤ d + p.count '(' := by
  constructor
  · rintro h p ⟨q, rfl⟩
    rw [openGroups?_append] at h
    cases hp : openGroups? d p with
    | none => rw [hp] at h; cases h
    | some k =>
        have := count_of_openGroups? hp
        omega
  · intro h
    induction t generalizing d with
    | nil => rfl
    | cons c t ih =>
        have hcons : ∀ p : Text, p <+: t → (c :: p).count ')' ≤ d + (c :: p).count '(' :=
          fun p hp => h (c :: p) (List.cons_prefix_cons.2 ⟨rfl, hp⟩)
        by_cases hopening : c = '('
        · subst hopening
          refine ih fun p hp => ?_
          have := hcons p hp
          rw [List.count_cons_self, List.count_cons_of_ne (by decide)] at this
          omega
        · by_cases hclosing : c = ')'
          · subst hclosing
            cases d with
            | zero => exact absurd (hcons [] List.nil_prefix) (by decide)
            | succ d =>
                refine ih fun p hp => ?_
                have := hcons p hp
                rw [List.count_cons_self, List.count_cons_of_ne (by decide)] at this
                omega
          · rw [openGroups?_cons_of_ne hopening hclosing]
            refine ih fun p hp => ?_
            have := hcons p hp
            rwa [List.count_cons_of_ne hclosing, List.count_cons_of_ne hopening] at this

theorem isSome_openGroups?_of_isPrefix {d : Nat} {u t : Text} (hu : u <+: t)
    (h : (openGroups? d t).isSome = true) : (openGroups? d u).isSome = true :=
  isSome_openGroups?_iff.2 fun p hp => isSome_openGroups?_iff.1 h p (hp.trans hu)

/-- An open group can be closed. -/
theorem isSome_openGroups?_push_closing {t : Text} (h : (openGroups? 0 t).isSome = true)
    (hlt : t.count ')' < t.count '(') : (openGroups? 0 (t ++ [')'])).isSome = true := by
  obtain ⟨k, hk⟩ := Option.isSome_iff_exists.1 h
  have hcount := count_of_openGroups? hk
  rw [openGroups?_append, hk, Option.bind_some]
  cases k with
  | zero => omega
  | succ k => rfl

/-- A text that closes no group in vain closes every group exactly if it has no more
opening parentheses than closing ones. -/
theorem openGroups?_eq_zero_iff {t : Text} (h : (openGroups? 0 t).isSome = true) :
    openGroups? 0 t = some 0 ↔ t.count '(' ≤ t.count ')' := by
  obtain ⟨k, hk⟩ := Option.isSome_iff_exists.1 h
  have hcount := count_of_openGroups? hk
  rw [hk, Option.some.injEq]
  omega

theorem openGroups?_replicate (d n : Nat) :
    openGroups? (d + n) (List.replicate n ')') = some d := by
  induction n with
  | zero => rfl
  | succ n ih =>
      rw [List.replicate_succ, ← Nat.add_assoc, openGroups?_succ_closing]
      exact ih

/-- As many closing parentheses as are missing close every group, if none was closed in
vain before. -/
theorem openGroups?_append_missing {t : Text} :
    openGroups? 0 (t ++ List.replicate (t.count '(' - t.count ')') ')') = some 0 ↔
      (openGroups? 0 t).isSome = true := by
  rw [openGroups?_append]
  cases h : openGroups? 0 t with
  | none => simp
  | some k =>
      have hcount := count_of_openGroups? h
      obtain rfl : k = t.count '(' - t.count ')' := by omega
      have hclosed := openGroups?_replicate 0 (t.count '(' - t.count ')')
      rw [Nat.zero_add] at hclosed
      rw [Option.bind_some, hclosed]
      simp

/-- What occurs across a cut is found on one side of it, if the character behind the
cut can only be the first of what is looked for. -/
theorem isInfix_of_isInfix_append {p u v : Text} (h : p <:+: u ++ v)
    (hv : ∀ c ∈ v.head?, c ∉ p.tail) : p <:+: u ∨ p <:+: v := by
  rcases List.infix_append_iff.1 h with hu | hv' | ⟨p₁, p₂, rfl, hsuffix, hprefix⟩
  · exact Or.inl hu
  · exact Or.inr hv'
  · cases p₁ with
    | nil => exact Or.inr hprefix.isInfix
    | cons x p₁ =>
        cases p₂ with
        | nil =>
            rw [List.append_nil]
            exact Or.inl hsuffix.isInfix
        | cons y p₂ =>
            obtain ⟨w, rfl⟩ := hprefix
            exact absurd (by simp) (hv y rfl)

/-- What has none of its characters in the beginning of a text is found behind it. -/
theorem isInfix_of_isInfix_gap {p w v : Text} (hp : p ≠ []) (hw : ∀ c ∈ w, c ∉ p)
    (h : p <:+: w ++ v) : p <:+: v := by
  induction w with
  | nil => exact h
  | cons c w ih =>
      obtain ⟨hc, hw⟩ := List.forall_mem_cons.1 hw
      rw [List.cons_append] at h
      rcases List.infix_cons_iff.1 h with hprefix | hinfix
      · cases p with
        | nil => exact absurd rfl hp
        | cons x p =>
            obtain ⟨rfl, -⟩ := List.cons_prefix_cons.1 hprefix
            exact absurd (List.mem_cons_self ..) hc
      · exact ih hw hinfix

/-- What has none of its characters in a gap of the text is found on one side of the gap. -/
theorem isInfix_of_isInfix_append_gap {p u w v : Text} (hp : p ≠ []) (hne : w ≠ [])
    (hw : ∀ c ∈ w, c ∉ p) (h : p <:+: u ++ (w ++ v)) : p <:+: u ∨ p <:+: v := by
  have hhead : ∀ c ∈ (w ++ v).head?, c ∉ p.tail := by
    intro c hc hmem
    rw [List.head?_append_of_ne_nil w hne] at hc
    exact hw c (List.mem_of_mem_head? hc) (List.mem_of_mem_tail hmem)
  exact (isInfix_of_isInfix_append h hhead).imp_right (isInfix_of_isInfix_gap hp hw)

/-- The parentheses of the text match: no beginning of it closes more groups than it opens, and
all of it closes as many. -/
structure Balanced (t : Text) : Prop where
  prefixes : ∀ p : Text, p <+: t → p.count ')' ≤ p.count '('
  count_eq : t.count '(' = t.count ')'

theorem balanced_iff {t : Text} : Balanced t ↔ openGroups? 0 t = some 0 := by
  constructor
  · rintro ⟨hprefixes, hcount⟩
    have hsome : (openGroups? 0 t).isSome = true :=
      isSome_openGroups?_iff.2 (by simpa using hprefixes)
    exact (openGroups?_eq_zero_iff hsome).2 hcount.le
  · intro h
    have hcount := count_of_openGroups? h
    have hsome : (openGroups? 0 t).isSome = true := by rw [h]; rfl
    exact ⟨by simpa using isSome_openGroups?_iff.1 hsome, by simpa using hcount⟩

end Calculator
