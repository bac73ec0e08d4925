import Mathlib.Data.List.Induction
import Calculator.Proofs.Zone.First

/-!
# Zones by byte offsets

A string is cut at byte offsets, and a cut inside of a character is refused. Here the zone of
a fault is looked for in that way: the places of the characters are counted in bytes
(`charIndices`), each of the four searches answers with an offset and a number of bytes, and the
zone is cut out of the text there (`Zone.around?`).

The main statement, `locateBytes?_eq`, says that every cut is between two characters and that
the zone is the one of `locate`. Behind it stands one lemma for each search. That of an open
group takes the last opening parenthesis and counts what is behind it, which is how
`lastOpeningWidth` comes to accept that place and no other (`first?_lastOpeningWidth`).
-/

namespace Calculator

/-- How many bytes the characters of a text take. -/
def byteLength : Text → Nat
  | [] => 0
  | c :: t => c.utf8Size + byteLength t

/-- The text before a byte offset and the text behind it; `none` if the offset is not between
two characters. -/
def cutAt? (n : Nat) : Text → Option (Text × Text)
  | [] => if n = 0 then some ([], []) else none
  | c :: t =>
      if n = 0 then some ([], c :: t)
      else if c.utf8Size ≤ n then (cutAt? (n - c.utf8Size) t).map (Prod.map (c :: ·) id)
      else none

/-- The zone of `n` bytes from the offset `i` on. -/
def Zone.around? (t : Text) (i n : Nat) : Option Zone := do
  let (before, behind) ← cutAt? i t
  let (marked, _) ← cutAt? n behind
  let (_, after) ← cutAt? (i + n) t
  return ⟨before, marked, after⟩

/-- The characters of a text that begins at the byte offset `i`, each with its own. -/
def charIndices (i : Nat) : Text → List (Nat × Char)
  | [] => []
  | c :: t => (i, c) :: charIndices (i + c.utf8Size) t

/-- The opening parentheses less the closing ones. -/
def balance (t : Text) : Int :=
  t.foldl (fun sum c => if c = '(' then sum + 1 else if c = ')' then sum - 1 else sum) 0

section Searches

/-- The first percent sign that follows neither a digit nor a point. -/
def strayPercentAt? (previous : Option Char) : List (Nat × Char) → Option (Nat × Nat)
  | [] => none
  | (i, c) :: rest =>
      if c = '%' ∧ previous.all (fun p => !isNumeric p) then some (i, c.utf8Size)
      else strayPercentAt? (some c) rest

/-- The last opening parenthesis, if more groups are opened than closed in the whole text and
from there on. -/
def openGroupAt? (t : Text) : Option (Option (Nat × Nat)) :=
  if balance t ≤ 0 then some none
  else
    match ((charIndices 0 t).filter fun place => place.2 == '(').getLast? with
    | none => some none
    | some (i, _) => do
        let (_, rest) ← cutAt? i t
        return if 0 < balance rest then some (i, 1) else none

/-- The text begins with a zero that no point follows. -/
def startsBareZero? (t : Text) : Option Bool :=
  if t.head? = some '0' then (cutAt? 1 t).map fun (_, rest) => rest.head? != some '.'
  else some false

/-- The first division sign with such a zero behind it. -/
def zeroDivisorAt? (t : Text) : List (Nat × Char) → Option (Option (Nat × Nat))
  | [] => some none
  | (i, c) :: places =>
      if c = '÷' ∨ c = '/' then do
        let (_, rest) ← cutAt? (i + c.utf8Size) t
        if ← startsBareZero? rest then return some (i, c.utf8Size + 1)
        else zeroDivisorAt? t places
      else zeroDivisorAt? t places

/-- The first empty group of a text that begins at the byte offset `i`. -/
def emptyGroupAt? (i : Nat) : Text → Option (Nat × Nat)
  | '(' :: ')' :: _ => some (i, 2)
  | c :: t => emptyGroupAt? (i + c.utf8Size) t
  | [] => none

/-- Where the cause of a fault is visible, as an offset and a number of bytes. -/
def placeOf? (t : Text) : Fault → Option (Option (Nat × Nat))
  | .unknownSymbol c =>
      if c = '%' then some (strayPercentAt? none (charIndices 0 t)) else some none
  | .unbalanced => openGroupAt? t
  | .divisionByZero => zeroDivisorAt? t (charIndices 0 t)
  | .malformed => some (emptyGroupAt? 0 t)
  | .decimalPoint => some none

/-- The zone of a fault by byte offsets; `none` if a cut is refused. -/
def locateBytes? (t : Text) (f : Fault) : Option (Option Zone) := do
  match ← placeOf? t f with
  | none => return none
  | some (i, n) => return some (← Zone.around? t i n)

end Searches

@[simp] theorem byteLength_nil : byteLength [] = 0 := rfl

@[simp] theorem byteLength_cons (c : Char) (t : Text) :
    byteLength (c :: t) = c.utf8Size + byteLength t := rfl

theorem byteLength_append (u v : Text) : byteLength (u ++ v) = byteLength u + byteLength v := by
  induction u with
  | nil => exact (Nat.zero_add _).symm
  | cons c u ih => rw [List.cons_append, byteLength_cons, ih, byteLength_cons, Nat.add_assoc]

theorem cutAt?_zero (t : Text) : cutAt? 0 t = some ([], t) := by
  cases t <;> rfl

/-- Between two characters a text is cut. -/
theorem cutAt?_byteLength (u v : Text) : cutAt? (byteLength u) (u ++ v) = some (u, v) := by
  induction u with
  | nil => exact cutAt?_zero v
  | cons c u ih =>
      have hpos : 0 < c.utf8Size := c.utf8Size_pos
      rw [List.cons_append, byteLength_cons, cutAt?, if_neg (by omega), if_pos (by omega),
        Nat.add_sub_cancel_left, ih]
      rfl

namespace Zone

/-- Where a zone of a text that begins at the byte offset `i` has its marked part. -/
def place (i : Nat) (z : Zone) : Nat × Nat :=
  (i + byteLength z.before, byteLength z.marked)

theorem place_cons (i : Nat) (c : Char) (z : Zone) :
    (z.cons c).place i = z.place (i + c.utf8Size) := by
  rw [place, place, cons, byteLength_cons, Nat.add_assoc]

/-- A zone is cut out where it is. -/
theorem around?_text (z : Zone) :
    around? z.text (byteLength z.before) (byteLength z.marked) = some z := by
  have hbegin : cutAt? (byteLength z.before) z.text = some (z.before, z.marked ++ z.after) := by
    rw [text, List.append_assoc, cutAt?_byteLength]
  have hend : cutAt? (byteLength z.before + byteLength z.marked) z.text =
      some (z.before ++ z.marked, z.after) := by
    rw [text, ← byteLength_append, cutAt?_byteLength]
  rw [around?, hbegin]
  simp only [Option.bind_eq_bind, Option.bind_some, cutAt?_byteLength, hend, Option.pure_def]

end Zone

section Places

theorem first?_cons_of_eq_zero {width : Option Char → Text → Nat} {previous : Option Char}
    {c : Char} {t : Text} (hzero : width previous (c :: t) = 0) :
    Zone.first? width previous (c :: t) = (Zone.first? width (some c) t).map (Zone.cons c) := by
  rw [Zone.first?, hzero]
  rfl

/-- Where a rule does not accept the first place the offsets are counted from the next one. -/
theorem map_place_first? {width : Option Char → Text → Nat} {previous : Option Char} {c : Char}
    {t : Text} (hzero : width previous (c :: t) = 0) (i : Nat) :
    (Zone.first? width previous (c :: t)).map (Zone.place i) =
      (Zone.first? width (some c) t).map (Zone.place (i + c.utf8Size)) := by
  have hplace : Zone.place i ∘ Zone.cons c = Zone.place (i + c.utf8Size) :=
    funext fun z => Zone.place_cons i c z
  rw [first?_cons_of_eq_zero hzero, ← hplace, Option.map_map]

theorem strayPercentAt?_charIndices (t : Text) (previous : Option Char) (i : Nat) :
    strayPercentAt? previous (charIndices i t) =
      (Zone.first? strayPercentWidth previous t).map (Zone.place i) := by
  induction t generalizing previous i with
  | nil => rfl
  | cons c t ih =>
      rw [charIndices, strayPercentAt?]
      split
      · next hstray =>
          rw [Zone.first?, strayPercentWidth, if_pos hstray]
          simp [Zone.place]
      · next hstray =>
          rw [map_place_first? (if_neg hstray), ih]

theorem emptyGroupAt?_eq (t : Text) (previous : Option Char) (i : Nat) :
    emptyGroupAt? i t = (Zone.first? emptyGroupWidth previous t).map (Zone.place i) := by
  fun_induction emptyGroupAt? i t generalizing previous with
  | case1 i rest => rfl
  | case2 i c t hne ih =>
      have hzero : emptyGroupWidth previous (c :: t) = 0 := by
        unfold emptyGroupWidth
        split
        · next heq =>
            cases heq
            exact absurd rfl (hne _ rfl)
        · rfl
      rw [map_place_first? hzero, ih (some c)]
  | case3 i => rfl

theorem startsBareZero?_eq (t : Text) :
    startsBareZero? t = some (t.head? == some '0' && t.tail.head? != some '.') := by
  rw [startsBareZero?]
  cases t with
  | nil => rfl
  | cons c t =>
      by_cases hc : c = '0'
      · subst hc
        have hcut : cutAt? 1 ('0' :: t) = some (['0'], t) := cutAt?_byteLength ['0'] t
        rw [if_pos (List.head?_cons ..), hcut]
        rfl
      · simp [hc]

theorem zeroDivisorWidth_eq {previous : Option Char} {c : Char} {t : Text} :
    zeroDivisorWidth previous (c :: t) =
      if (c = '÷' ∨ c = '/') ∧ t.head? = some '0' ∧ t.tail.head? ≠ some '.' then 2 else 0 := by
  cases t with
  | nil => simp [zeroDivisorWidth]
  | cons d t =>
      by_cases hd : d = '0'
      · subst hd
        rw [zeroDivisorWidth]
        simp [Operator.ofChar?_eq_divide_iff]
      · rw [zeroDivisorWidth.eq_def]
        simp [hd]

theorem zeroDivisorAt?_charIndices (u t : Text) (previous : Option Char) :
    zeroDivisorAt? (u ++ t) (charIndices (byteLength u) t) =
      some ((Zone.first? zeroDivisorWidth previous t).map (Zone.place (byteLength u))) := by
  induction t generalizing u previous with
  | nil => rfl
  | cons c t ih =>
      have hnext : byteLength u + c.utf8Size = byteLength (u ++ [c]) := by
        rw [byteLength_append, byteLength_cons, byteLength_nil, Nat.add_zero]
      have hcut : cutAt? (byteLength u + c.utf8Size) (u ++ c :: t) = some (u ++ [c], t) := by
        rw [hnext, List.append_cons u c t, cutAt?_byteLength]
      have hrest := ih (u ++ [c]) (some c)
      rw [← hnext, ← List.append_cons] at hrest
      rw [charIndices, zeroDivisorAt?, hcut, hrest]
      by_cases hdivision : c = '÷' ∨ c = '/'
      · rw [if_pos hdivision]
        simp only [Option.bind_eq_bind, Option.bind_some, startsBareZero?_eq,
          Bool.and_eq_true, beq_iff_eq, bne_iff_ne]
        split
        · next hzero =>
            obtain ⟨w, rfl⟩ := List.head?_eq_some_iff.1 hzero.1
            rw [Zone.first?, zeroDivisorWidth_eq, if_pos ⟨hdivision, hzero⟩]
            rfl
        · next hzero =>
            rw [map_place_first? (zeroDivisorWidth_eq.trans (if_neg fun h => hzero h.2))]
      · rw [if_neg hdivision,
          map_place_first? (zeroDivisorWidth_eq.trans (if_neg fun h => hdivision h.1))]

end Places

section OpenGroup

theorem balance_eq (t : Text) : balance t = t.count '(' - t.count ')' := by
  induction t using List.reverseRecOn with
  | nil => rfl
  | append_singleton t c ih =>
      rw [balance] at ih
      rw [balance, List.foldl_append, ih, List.count_append, List.count_append]
      simp only [List.foldl_cons, List.foldl_nil, List.count_singleton]
      by_cases hopening : c = '('
      · subst hopening
        simp
        omega
      · by_cases hclosing : c = ')'
        · subst hclosing
          simp
          omega
        · simp [hopening, hclosing]

theorem charIndices_append (i : Nat) (u v : Text) :
    charIndices i (u ++ v) = charIndices i u ++ charIndices (i + byteLength u) v := by
  induction u generalizing i with
  | nil => rfl
  | cons c u ih =>
      rw [List.cons_append, charIndices, charIndices, ih, byteLength_cons, Nat.add_assoc,
        List.cons_append]

theorem mem_of_mem_charIndices {i : Nat} {t : Text} {place : Nat × Char}
    (h : place ∈ charIndices i t) : place.2 ∈ t := by
  induction t generalizing i with
  | nil => cases h
  | cons c t ih =>
      rcases List.mem_cons.1 h with rfl | h
      · exact List.mem_cons_self
      · exact List.mem_cons_of_mem c (ih h)

theorem filter_charIndices_of_not_mem {t : Text} (h : '(' ∉ t) (i : Nat) :
    ((charIndices i t).filter fun place => place.2 == '(') = [] := by
  rw [List.filter_eq_nil_iff]
  intro place hplace heq
  exact h (eq_of_beq heq ▸ mem_of_mem_charIndices hplace)

/-- The text has no parentheses. -/
theorem all_ne_parenthesis_iff {w : Text} :
    w.all (fun d => d != '(' && d != ')') = true ↔ '(' ∉ w ∧ ')' ∉ w := by
  simp only [List.all_eq_true, Bool.and_eq_true, bne_iff_ne]
  constructor
  · exact fun h => ⟨fun hmem => (h _ hmem).1 rfl, fun hmem => (h _ hmem).2 rfl⟩
  · rintro ⟨hopening, hclosing⟩ d hd
    exact ⟨fun heq => hopening (heq ▸ hd), fun heq => hclosing (heq ▸ hd)⟩

theorem first?_lastOpeningWidth_of_not_mem {t : Text} (h : '(' ∉ t) (previous : Option Char) :
    Zone.first? lastOpeningWidth previous t = none := by
  induction t generalizing previous with
  | nil => rfl
  | cons c t ih =>
      rw [List.mem_cons, not_or] at h
      have hzero : lastOpeningWidth previous (c :: t) = 0 := if_neg fun hc => h.1 hc.1.symm
      rw [first?_cons_of_eq_zero hzero, ih h.2]
      rfl

/-- The place that is accepted is that of the last opening parenthesis, if more groups are
opened than closed from there on. -/
theorem first?_lastOpeningWidth {w : Text} (hw : '(' ∉ w) (u : Text) (previous : Option Char) :
    Zone.first? lastOpeningWidth previous (u ++ '(' :: w) =
      if 0 < balance ('(' :: w) then some ⟨u, ['('], w⟩ else none := by
  have hbalance : 0 < balance ('(' :: w) ↔ ')' ∉ w := by
    rw [balance_eq, List.count_cons_self, List.count_eq_zero.2 hw,
      List.count_cons_of_ne (by decide), ← List.count_eq_zero]
    omega
  induction u generalizing previous with
  | nil =>
      rw [List.nil_append, Zone.first?, lastOpeningWidth]
      by_cases hclosing : ')' ∈ w
      · rw [if_neg fun h => (all_ne_parenthesis_iff.1 h.2).2 hclosing,
          if_neg fun h => hbalance.1 h hclosing, first?_lastOpeningWidth_of_not_mem hw]
        rfl
      · rw [if_pos ⟨rfl, all_ne_parenthesis_iff.2 ⟨hw, hclosing⟩⟩, if_pos (hbalance.2 hclosing)]
        rfl
  | cons d u ih =>
      have hzero : lastOpeningWidth previous (d :: (u ++ '(' :: w)) = 0 := by
        exact if_neg fun h => (all_ne_parenthesis_iff.1 h.2).1 (by simp)
      rw [List.cons_append, first?_cons_of_eq_zero hzero, ih]
      split
      · rfl
      · rfl

theorem openGroupAt?_eq (t : Text) :
    openGroupAt? t = some ((locate t .unbalanced).map (Zone.place 0)) := by
  have hcount : balance t ≤ 0 ↔ ¬t.count ')' < t.count '(' := by
    rw [balance_eq]
    omega
  rw [openGroupAt?, locate]
  by_cases hopen : t.count ')' < t.count '('
  · rw [if_neg fun h => hcount.1 h hopen, if_pos hopen]
    have hmem : '(' ∈ t := List.count_pos_iff.1 (Nat.zero_lt_of_lt hopen)
    obtain ⟨u, w, ht, hu⟩ := List.eq_append_cons_of_mem (List.mem_reverse.2 hmem)
    obtain rfl : t = w.reverse ++ '(' :: u.reverse := by
      rw [← List.reverse_reverse t, ht]
      simp
    have hu' : '(' ∉ u.reverse := by simpa using hu
    have hlast : ((charIndices 0 (w.reverse ++ '(' :: u.reverse)).filter
        fun place => place.2 == '(').getLast? = some (byteLength w.reverse, '(') := by
      rw [charIndices_append, charIndices, List.filter_append,
        List.filter_cons_of_pos (by rfl), filter_charIndices_of_not_mem hu', Nat.zero_add,
        List.getLast?_concat]
    rw [hlast, first?_lastOpeningWidth hu']
    simp only [Option.bind_eq_bind, cutAt?_byteLength, Option.bind_some]
    split
    · simp [Zone.place]
      rfl
    · rfl
  · rw [if_pos (hcount.2 hopen), if_neg hopen]
    rfl

end OpenGroup

/-- A search by byte offsets finds the place of the zone of the fault. -/
theorem placeOf?_eq (t : Text) (f : Fault) :
    placeOf? t f = some ((locate t f).map (Zone.place 0)) := by
  cases f with
  | decimalPoint => rfl
  | unknownSymbol c =>
      rw [placeOf?, locate]
      split
      · rw [strayPercentAt?_charIndices]
      · rfl
  | unbalanced => exact openGroupAt?_eq t
  | malformed => exact congrArg some (emptyGroupAt?_eq t none 0)
  | divisionByZero => exact zeroDivisorAt?_charIndices [] t none

/-- No cut is refused, and what is cut out is the zone of the fault. -/
theorem locateBytes?_eq (t : Text) (f : Fault) : locateBytes? t f = some (locate t f) := by
  rw [locateBytes?, placeOf?_eq]
  cases hzone : locate t f with
  | none => rfl
  | some z =>
      have hplace : z.place 0 = (byteLength z.before, byteLength z.marked) := by
        rw [Zone.place, Nat.zero_add]
      have hcut := z.around?_text
      rw [text_of_locate hzone] at hcut
      simp only [Option.map_some, hplace, Option.bind_eq_bind, Option.bind_some, hcut]
      rfl

end Calculator
