import Calculator.Proofs.Grammar.Slot

/-!
# The token lists that spell a tree

`Spells` says how a tree is built up, and so says nothing about a list that
spells none. Here the lists are told from one another while they are read from
left to right: operands and operators take turns (`Alternates`), and groups are
closed as often as they are opened, never before (`Closes`). A list has both
exactly if it spells a tree (`spellsSome_iff`).
-/

namespace Calculator

namespace Token

/-- An operand begins with the token. -/
def startsOperand : Token → Bool
  | .number _ => true
  | .negate => true
  | .opening => true
  | .operator _ => false
  | .closing => false

end Token

/-- From here on every operand begins where one is due, and nowhere else; at the
end none is due. -/
def Alternates : Bool → List Token → Prop
  | due, [] => due = false
  | due, x :: rest => x.startsOperand = due ∧ Alternates x.operandDue rest

/-- The tokens close the `d` open groups and every group that they open. -/
def Closes : Nat → List Token → Prop
  | d, [] => d = 0
  | d, .opening :: rest => Closes (d + 1) rest
  | 0, .closing :: _ => False
  | d + 1, .closing :: rest => Closes d rest
  | d, _ :: rest => Closes d rest

/-- The tokens spell some tree at the level. -/
def SpellsSome (l : Level) (ts : List Token) : Prop :=
  ∃ t : Tree, Spells l ts t

/-- The operators of a level, as tokens. -/
def Token.joins (l : Level) (x : Token) : Prop :=
  ∃ op : Operator, x = .operator op ∧ op.level = l

theorem isInfix_spellsSome : IsInfix SpellsSome Token.joins .opening .closing where
  factor := fun ⟨t, h⟩ => ⟨t, h.primary⟩
  product := fun ⟨t, h⟩ => ⟨t, h.factor⟩
  sum := fun ⟨t, h⟩ => ⟨t, h.product⟩
  multiply := fun ⟨op, hx, hop⟩ ⟨t, ht⟩ ⟨u, hu⟩ => ⟨.binary op t u, hx ▸ .multiply hop ht hu⟩
  add := fun ⟨op, hx, hop⟩ ⟨t, ht⟩ ⟨u, hu⟩ => ⟨.binary op t u, hx ▸ .add hop ht hu⟩
  group := fun ⟨t, h⟩ => ⟨t, h.group⟩

/-- A factor that is due may have a sign. -/
theorem slot_negate {h : List Token} (hslot : Slot SpellsSome .factor h) :
    Slot SpellsSome .factor (h ++ [.negate]) := by
  obtain ⟨a, b, rfl, ha, hb⟩ := hslot
  refine ⟨a, b ++ [.negate], by simp, ha, ?_⟩
  rintro s ⟨t, ht⟩
  simpa using hb (.negate :: s) ⟨t.negate, ht.negate⟩

theorem Operator.joins_operator (op : Operator) :
    Token.joins .product (.operator op) ∨ Token.joins .sum (.operator op) := by
  exact op.level_cases.imp (fun h => ⟨op, rfl, h⟩) fun h => ⟨op, rfl, h⟩

/-- What has been read up to here, inside of `d` open groups, if an operand is
due and if none is. -/
def ReadUpTo (due : Bool) (d : Nat) (h : List Token) : Prop :=
  Within SpellsSome .opening (if due then Slot SpellsSome .factor else Ended SpellsSome) d h

/-- One more token that comes at its turn. -/
theorem spellsSome_of_readUpTo {due : Bool} {d : Nat} {h ts : List Token}
    (hread : ReadUpTo due d h) (halt : Alternates due ts) (hcloses : Closes d ts) :
    SpellsSome .sum (h ++ ts) := by
  induction ts generalizing due d h with
  | nil =>
      obtain rfl : due = false := halt
      obtain rfl : d = 0 := hcloses
      rw [List.append_nil]
      exact IsInfix.sum_of_ended hread
  | cons x ts ih =>
      obtain ⟨rfl, halt⟩ := halt
      rw [List.append_cons]
      cases x with
      | number v =>
          have hnext : ReadUpTo false d (h ++ [.number v]) := by
            refine Within.append (fun k hk => ?_) hread
            exact ⟨k, [.number v], rfl, isInfix_spellsSome.slot_primary hk, .leaf v, .number v⟩
          exact ih hnext halt hcloses
      | negate =>
          have hnext : ReadUpTo true d (h ++ [.negate]) :=
            Within.append (fun k hk => slot_negate hk) hread
          exact ih hnext halt hcloses
      | opening =>
          have hprimary := Within.mono (fun k hk => isInfix_spellsSome.slot_primary hk) hread
          have hnext : ReadUpTo true (d + 1) (h ++ [.opening]) :=
            Within.open_group isInfix_spellsSome hprimary
          exact ih hnext halt hcloses
      | operator op =>
          have hnext : ReadUpTo true d (h ++ [.operator op]) :=
            Within.append
              (fun k hk => isInfix_spellsSome.slot_of_ended hk op.joins_operator) hread
          exact ih hnext halt hcloses
      | closing =>
          cases d with
          | zero => exact absurd hcloses id
          | succ d =>
              have hnext : ReadUpTo false d (h ++ [.closing]) :=
                Within.close_group isInfix_spellsSome hread
              exact ih hnext halt hcloses

/-- Behind an operator the right operand is due. -/
theorem alternates_operator (op : Operator) {us rest : List Token}
    (h : Alternates true (us ++ rest) ↔ Alternates false rest) :
    Alternates false (.operator op :: us ++ rest) ↔ Alternates false rest :=
  ⟨fun halt => h.1 halt.2, fun halt => ⟨rfl, h.2 halt⟩⟩

/-- A phrase is an operand to what stands around it, and leaves no group open. -/
theorem alternates_append_of_spells {l : Level} {ts : List Token} {t : Tree}
    (h : Spells l ts t) (rest : List Token) :
    (Alternates true (ts ++ rest) ↔ Alternates false rest) ∧
      ∀ d : Nat, Closes d (ts ++ rest) ↔ Closes d rest := by
  induction h generalizing rest with
  | number v => exact ⟨by simp [Alternates, Token.startsOperand, Token.operandDue], fun d => .rfl⟩
  | group hsum ih =>
      obtain ⟨halt, hcloses⟩ := ih (.closing :: rest)
      refine ⟨?_, fun d => ?_⟩
      · simp [Alternates, Token.startsOperand, Token.operandDue, halt]
      · simp [Closes, hcloses]
  | primary _ ih => exact ih rest
  | negate _ ih =>
      obtain ⟨halt, hcloses⟩ := ih rest
      refine ⟨?_, hcloses⟩
      simpa [Alternates, Token.startsOperand, Token.operandDue] using halt
  | factor _ ih => exact ih rest
  | product _ ih => exact ih rest
  | @multiply _ us _ _ op _ _ _ ih ih' =>
      obtain ⟨halt, hcloses⟩ := ih (.operator op :: us ++ rest)
      obtain ⟨halt', hcloses'⟩ := ih' rest
      rw [List.append_assoc]
      exact ⟨halt.trans (alternates_operator op halt'),
        fun d => (hcloses d).trans (hcloses' d)⟩
  | @add _ us _ _ op _ _ _ ih ih' =>
      obtain ⟨halt, hcloses⟩ := ih (.operator op :: us ++ rest)
      obtain ⟨halt', hcloses'⟩ := ih' rest
      rw [List.append_assoc]
      exact ⟨halt.trans (alternates_operator op halt'),
        fun d => (hcloses d).trans (hcloses' d)⟩

/-- The token lists that spell a tree. -/
theorem spellsSome_iff {ts : List Token} :
    SpellsSome .sum ts ↔ Alternates true ts ∧ Closes 0 ts := by
  constructor
  · rintro ⟨t, ht⟩
    obtain ⟨halt, hcloses⟩ := alternates_append_of_spells ht []
    rw [List.append_nil] at halt hcloses
    exact ⟨halt.2 rfl, (hcloses 0).2 rfl⟩
  · rintro ⟨halt, hcloses⟩
    have hstart : ReadUpTo true 0 [] := isInfix_spellsSome.slot_nil
    exact spellsSome_of_readUpTo hstart halt hcloses

end Calculator
