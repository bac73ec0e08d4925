import Calculator.Proofs.Postfix.Group

/-!
# The tree of a postorder

Tokens in postfix order are put together to trees in the way in which they are reduced to
values: an operator takes its operands from the top of a stack, here of trees. `postorders`
reads the tokens back from such a stack, and no token is lost on the way
(`postorders_of_foldlM_rebuildStep?`). So `ofPostorder?` and `postorder` are inverse to each
other (`ofPostorder?_eq_some_iff`), and no two trees have the same postorder.

Whether a token finds its operands depends on how many entries the stack has and not on what
they are, so that a list that can be reduced can be put together
(`exists_postorder_of_reduce`). Hence the lists that have a value are the postorders of the
trees without a zero divisor, and the value is that of the tree (`reduce_evaluates_trees`).
-/

namespace Calculator

namespace Tree

/-- Applies one token in postfix order to a stack of trees; `none` if an operand is missing,
and for a parenthesis. -/
def rebuildStep? : List Tree → Token → Option (List Tree)
  | trees, .number v => some (.leaf v :: trees)
  | t :: trees, .negate => some (.negate t :: trees)
  | u :: t :: trees, .operator op => some (.binary op t u :: trees)
  | _, _ => none

/-- The tree of which the tokens are the postorder, if there is one. -/
def ofPostorder? (ts : List Token) : Option Tree :=
  match ts.foldlM rebuildStep? [] with
  | some [t] => some t
  | _ => none

/-- The tokens of the trees on a stack. The tree at the bottom comes first. -/
def postorders : List Tree → List Token
  | [] => []
  | t :: trees => postorders trees ++ t.postorder

/-- The postorder of a tree puts the tree on the stack. -/
theorem foldlM_rebuildStep?_postorder (t : Tree) (trees : List Tree) :
    t.postorder.foldlM rebuildStep? trees = some (t :: trees) := by
  induction t generalizing trees with
  | leaf v => rfl
  | negate t ih =>
      rw [postorder, List.foldlM_append, ih]
      rfl
  | binary op t u iht ihu =>
      rw [postorder, List.foldlM_append, List.foldlM_append, iht]
      change (u.postorder.foldlM rebuildStep? (t :: trees) >>= fun after =>
        [Token.operator op].foldlM rebuildStep? after) = _
      rw [ihu]
      rfl

/-- A token that is applied becomes the last one of the trees on the stack. -/
theorem postorders_of_rebuildStep? {trees after : List Tree} {token : Token}
    (h : rebuildStep? trees token = some after) :
    postorders after = postorders trees ++ [token] := by
  cases token with
  | number v => cases h; rfl
  | negate =>
      cases trees with
      | nil => cases h
      | cons t trees =>
          cases h
          simp [postorders, postorder]
  | operator op =>
      rcases trees with _ | ⟨u, _ | ⟨t, trees⟩⟩
      · cases h
      · cases h
      · cases h
        simp [postorders, postorder]
  | opening => cases trees <;> cases h
  | closing => cases trees <;> cases h

/-- The trees on the stack hold the tokens that have been read, in their order. -/
theorem postorders_of_foldlM_rebuildStep? {ts : List Token} {trees after : List Tree}
    (h : ts.foldlM rebuildStep? trees = some after) :
    postorders after = postorders trees ++ ts := by
  induction ts generalizing trees with
  | nil =>
      cases h
      rw [List.append_nil]
  | cons token ts ih =>
      rw [List.foldlM_cons] at h
      obtain ⟨next, hstep, hrest⟩ := Option.bind_eq_some_iff.1 h
      rw [ih hrest, postorders_of_rebuildStep? hstep, List.append_assoc, List.singleton_append]

/-- A tree is put together from its postorder and from no other list. -/
theorem ofPostorder?_eq_some_iff {ts : List Token} {t : Tree} :
    ofPostorder? ts = some t ↔ t.postorder = ts := by
  constructor
  · intro h
    unfold ofPostorder? at h
    split at h
    · next u hfold =>
        cases h
        exact postorders_of_foldlM_rebuildStep? hfold
    · cases h
  · rintro rfl
    rw [ofPostorder?, foldlM_rebuildStep?_postorder]

theorem postorder_injective : Function.Injective postorder := by
  intro t u h
  have ht : ofPostorder? t.postorder = some t := ofPostorder?_eq_some_iff.2 rfl
  have hu : ofPostorder? t.postorder = some u := ofPostorder?_eq_some_iff.2 h.symm
  exact Option.some_inj.1 (ht.symm.trans hu)

/-- What can be applied to values can be applied to as many trees. -/
theorem exists_rebuildStep?_of_reduceStep {values after : List Float} {trees : List Tree}
    {token : Token} (hlength : trees.length = values.length)
    (h : reduceStep values token = .ok after) :
    ∃ grown : List Tree, rebuildStep? trees token = some grown ∧
      grown.length = after.length := by
  cases token with
  | number v =>
      cases h
      exact ⟨_, rfl, congrArg Nat.succ hlength⟩
  | negate =>
      rcases values with _ | ⟨x, values⟩
      · cases h
      · obtain ⟨t, trees, rfl⟩ := List.exists_cons_of_length_eq_add_one hlength
        cases h
        exact ⟨_, rfl, hlength⟩
  | operator op =>
      rcases values with _ | ⟨y, _ | ⟨x, values⟩⟩
      · cases h
      · cases h
      · obtain ⟨u, trees, rfl⟩ := List.exists_cons_of_length_eq_add_one hlength
        obtain ⟨t, trees, rfl⟩ :=
          List.exists_cons_of_length_eq_add_one (Nat.succ.inj hlength)
        obtain ⟨v, -, hafter⟩ := exists_of_bind_eq_ok h
        cases hafter
        exact ⟨_, rfl, Nat.succ.inj hlength⟩
  | opening => cases values <;> cases h
  | closing => cases values <;> cases h

theorem exists_foldlM_rebuildStep?_of_reduceStep {ts : List Token} {values after : List Float}
    {trees : List Tree} (hlength : trees.length = values.length)
    (h : ts.foldlM reduceStep values = .ok after) :
    ∃ grown : List Tree, ts.foldlM rebuildStep? trees = some grown ∧
      grown.length = after.length := by
  induction ts generalizing values trees with
  | nil =>
      cases h
      exact ⟨trees, rfl, hlength⟩
  | cons token ts ih =>
      rw [List.foldlM_cons] at h
      obtain ⟨next, hstep, hrest⟩ := exists_of_bind_eq_ok h
      obtain ⟨middle, hmiddle, hnext⟩ := exists_rebuildStep?_of_reduceStep hlength hstep
      obtain ⟨grown, hgrown, hafter⟩ := ih hnext hrest
      refine ⟨grown, ?_, hafter⟩
      rw [List.foldlM_cons, hmiddle]
      exact hgrown

/-- What is reduced to one value is the postorder of a tree. -/
theorem exists_postorder_of_reduce {ts : List Token} {v : Float} (h : reduce ts = .ok v) :
    ∃ t : Tree, t.postorder = ts := by
  have hempty : ([] : List Tree).length = ([] : List Float).length := rfl
  obtain ⟨trees, htrees, hlength⟩ :=
    exists_foldlM_rebuildStep?_of_reduceStep hempty (reduce_eq_ok_iff.1 h)
  obtain ⟨t, rfl⟩ := List.length_eq_one_iff.1 hlength
  exact ⟨t, postorders_of_foldlM_rebuildStep? htrees⟩

end Tree

/-- To reduce tokens is to evaluate the tree of which they are the postorder. The lists with a
value are the postorders of exactly one tree each, which has that value. -/
theorem reduce_evaluates_trees :
    (∀ t : Tree, reduce t.postorder =
        if t.hasZeroDivisor then .error .divisionByZero else .ok t.value) ∧
      ∀ (ts : List Token) (v : Float), reduce ts = .ok v ↔
        (∃! t : Tree, t.postorder = ts) ∧
          ∀ t : Tree, t.postorder = ts → t.hasZeroDivisor = false ∧ t.value = v := by
  refine ⟨Tree.reduce_postorder, fun ts v => ⟨fun h => ?_, ?_⟩⟩
  · obtain ⟨t, rfl⟩ := Tree.exists_postorder_of_reduce h
    refine ⟨⟨t, rfl, fun u hu => Tree.postorder_injective hu⟩, fun u hu => ?_⟩
    rw [← hu, Tree.reduce_postorder, Tree.outcome] at h
    split at h
    · cases h
    · next hnone =>
        cases h
        exact ⟨Bool.eq_false_iff.2 hnone, rfl⟩
  · rintro ⟨⟨t, rfl, -⟩, hvalue⟩
    obtain ⟨hnone, rfl⟩ := hvalue t rfl
    rw [Tree.reduce_postorder, Tree.outcome, hnone]
    rfl

/-- `8 3 - neg` is the postorder of one tree only, and it has the value of that tree. -/
theorem existsUnique_tree_of_negated_difference :
    let eight := Decimal.toFloat ⟨8, 0⟩
    let three := Decimal.toFloat ⟨3, 0⟩
    let ts : List Token := [.number eight, .number three, .operator .minus, .negate]
    reduce ts = .ok (-(eight - three)) ∧ (∃! t : Tree, t.postorder = ts) ∧
      ∀ t : Tree, t.postorder = ts → t.hasZeroDivisor = false ∧ t.value = -(eight - three) := by
  intro eight three ts
  have hvalue : reduce ts = .ok (-(eight - three)) := rfl
  exact ⟨hvalue, (reduce_evaluates_trees.2 ts _).1 hvalue⟩

end Calculator
