import Calculator.Grammar

/-!
# Left contexts of phrases

A list that is read from left to right is, at each moment, the beginning of a
phrase. `Slot` and `Ended` say which: behind a slot a phrase of the level is
due, and behind what has ended an operator or a closing parenthesis may come.
`Within` adds the groups that are still open, each of which was opened where a
primary was due.

The rules are the same for every grammar with the four levels, be it one of
tokens or one of characters. `IsInfix` is what they rest on.
-/

namespace Calculator

/-- A family of phrases that has the rules of the four levels. -/
structure IsInfix {α : Type} (phrase : Level → List α → Prop)
    (joins : Level → α → Prop) (opening closing : α) : Prop where
  factor {s : List α} : phrase .primary s → phrase .factor s
  product {s : List α} : phrase .factor s → phrase .product s
  sum {s : List α} : phrase .product s → phrase .sum s
  multiply {r s : List α} {x : α} :
    joins .product x → phrase .product r → phrase .factor s → phrase .product (r ++ x :: s)
  add {r s : List α} {x : α} :
    joins .sum x → phrase .sum r → phrase .product s → phrase .sum (r ++ x :: s)
  group {s : List α} : phrase .sum s → phrase .primary (opening :: s ++ [closing])

section

variable {α : Type} {phrase : Level → List α → Prop} {joins : Level → α → Prop}
  {opening closing : α}

/-- Behind `h` a phrase of the level `l` completes one of the level `m`. -/
def Opens (phrase : Level → List α → Prop) (l m : Level) (h : List α) : Prop :=
  ∀ s : List α, phrase l s → phrase m (h ++ s)

/-- Behind `h` a phrase of the level is due: it completes a product, and that
product completes a sum. -/
def Slot (phrase : Level → List α → Prop) (l : Level) (h : List α) : Prop :=
  ∃ a b : List α, h = a ++ b ∧ Opens phrase .product .sum a ∧ Opens phrase l .product b

/-- A primary has just ended where one was due. -/
def Ended (phrase : Level → List α → Prop) (h : List α) : Prop :=
  ∃ k p : List α, h = k ++ p ∧ Slot phrase .primary k ∧ phrase .primary p

/-- Inside of `d` open groups the list reads as `inner` says. -/
def Within (phrase : Level → List α → Prop) (opening : α) (inner : List α → Prop) :
    Nat → List α → Prop
  | 0, h => inner h
  | d + 1, h => ∃ outer tail : List α, h = outer ++ opening :: tail ∧
      Within phrase opening (Slot phrase .primary) d outer ∧ inner tail

namespace IsInfix

theorem slot_nil (hg : IsInfix phrase joins opening closing) : Slot phrase .factor [] :=
  ⟨[], [], rfl, fun _ hs => hg.sum hs, fun _ hs => hg.product hs⟩

theorem slot_primary (hg : IsInfix phrase joins opening closing) {h : List α}
    (hslot : Slot phrase .factor h) : Slot phrase .primary h := by
  obtain ⟨a, b, rfl, ha, hb⟩ := hslot
  exact ⟨a, b, rfl, ha, fun s hs => hb s (hg.factor hs)⟩

theorem sum_of_ended {h : List α} (hended : Ended phrase h) : phrase .sum h := by
  obtain ⟨_, p, rfl, ⟨a, b, rfl, ha, hb⟩, hp⟩ := hended
  rw [List.append_assoc]
  exact ha _ (hb p hp)

/-- Behind a complete operand an operator makes room for the next factor. -/
theorem slot_of_ended (hg : IsInfix phrase joins opening closing) {h : List α} {x : α}
    (hended : Ended phrase h) (hx : joins .product x ∨ joins .sum x) :
    Slot phrase .factor (h ++ [x]) := by
  have hsum := sum_of_ended hended
  obtain ⟨_, p, rfl, ⟨a, b, rfl, ha, hb⟩, hp⟩ := hended
  rcases hx with hx | hx
  · refine ⟨a, b ++ p ++ [x], by simp, ha, ?_⟩
    intro s hs
    simpa using hg.multiply hx (hb p hp) hs
  · refine ⟨a ++ b ++ p ++ [x], [], by simp, ?_, ?_⟩
    · intro s hs
      simpa using hg.add hx hsum hs
    · intro s hs
      exact hg.product hs

end IsInfix

namespace Within

variable {inner inner' : List α → Prop}

/-- What the innermost group reads on does not concern the groups around it. -/
theorem append {d : Nat} {h s : List α} (hinner : ∀ t : List α, inner t → inner' (t ++ s))
    (hwithin : Within phrase opening inner d h) :
    Within phrase opening inner' d (h ++ s) := by
  cases d with
  | zero => exact hinner h hwithin
  | succ d =>
      obtain ⟨outer, tail, rfl, houter, htail⟩ := hwithin
      exact ⟨outer, tail ++ s, by simp, houter, hinner tail htail⟩

theorem mono {d : Nat} {h : List α} (hinner : ∀ t : List α, inner t → inner' t)
    (hwithin : Within phrase opening inner d h) : Within phrase opening inner' d h := by
  have hnil : ∀ t : List α, inner t → inner' (t ++ []) := by simpa using hinner
  have happend := append hnil hwithin
  rwa [List.append_nil] at happend

/-- A primary that is due may be a group. -/
theorem open_group (hg : IsInfix phrase joins opening closing) {d : Nat} {h : List α}
    (hwithin : Within phrase opening (Slot phrase .primary) d h) :
    Within phrase opening (Slot phrase .factor) (d + 1) (h ++ [opening]) :=
  ⟨h, [], rfl, hwithin, hg.slot_nil⟩

/-- A group that is closed is a primary of the list around it. -/
theorem close_group (hg : IsInfix phrase joins opening closing) {d : Nat} {h : List α}
    (hwithin : Within phrase opening (Ended phrase) (d + 1) h) :
    Within phrase opening (Ended phrase) d (h ++ [closing]) := by
  obtain ⟨outer, tail, rfl, houter, htail⟩ := hwithin
  have hgroup : phrase .primary (opening :: tail ++ [closing]) :=
    hg.group (IsInfix.sum_of_ended htail)
  have hended : ∀ t : List α, Slot phrase .primary t →
      Ended phrase (t ++ (opening :: tail ++ [closing])) :=
    fun t ht => ⟨t, _, rfl, ht, hgroup⟩
  simpa using houter.append hended

end Within

end

end Calculator
