import Mathlib.Algebra.Group.Nat.Defs
import Mathlib.Data.Nat.Log
import Mathlib.Data.List.Induction

/-!
# Pairwise reduction

A sequence is reduced by combining neighbours, level by level, where an odd last node moves up
unchanged. The same is computed from the top: split the sequence at the largest power of two below
its length and combine what the two parts give.

`pass` is one level in place. Cells are read from left to right and the results are written over
those that were read before. Reading a cell may change it, as a move does, and combining has an
effect on a state.
-/

namespace Respublica.Foundation.Pairwise

section Levels

variable {Value Node : Type} (leaf : Value → Node) (combine : Node → Node → Node) (empty : Node)

/-- Combine neighbours. -/
def pairUp : List Node → List Node
  | left :: right :: rest => combine left right :: pairUp rest
  | nodes => nodes

/-- The largest power of two below a length. -/
def half (length : Nat) : Nat := 2 ^ Nat.log 2 (length - 1)

variable {length : Nat}

/-- The half is less than the whole, and at least half of it. -/
theorem half_bounds (several : 2 ≤ length) :
    half length < length ∧ length ≤ 2 * half length := by
  have positive : length - 1 ≠ 0 := by omega
  have below := Nat.pow_log_le_self 2 positive
  have above := Nat.lt_pow_succ_log_self (show 1 < 2 by omega) (length - 1)
  rw [half]
  rw [Nat.pow_succ] at above
  omega

theorem half_pos (length : Nat) : 0 < half length := Nat.pow_pos (by omega)

/-- Split at the largest power of two and combine. -/
def splitFold : List Value → Node
  | [] => empty
  | [value] => leaf value
  | first :: second :: rest =>
    combine (splitFold ((first :: second :: rest).take (half (rest.length + 2))))
      (splitFold ((first :: second :: rest).drop (half (rest.length + 2))))
termination_by values => values.length
decreasing_by
  · have bounds := half_bounds (show 2 ≤ rest.length + 2 by omega)
    simp only [List.length_take, List.length_cons]
    omega
  · have positive := half_pos (rest.length + 2)
    simp only [List.length_drop, List.length_cons]
    omega

variable {leaf combine empty}

/-- Several values are split at the half. -/
theorem splitFold_of_several {values : List Value} (several : 2 ≤ values.length) :
    splitFold leaf combine empty values =
      combine (splitFold leaf combine empty (values.take (half values.length)))
        (splitFold leaf combine empty (values.drop (half values.length))) := by
  match values, several with
  | first :: second :: rest, _ =>
    rw [splitFold]
    rfl

/-- Pairing up halves the number of nodes, rounded up. -/
theorem length_pairUp (nodes : List Node) :
    (pairUp combine nodes).length = (nodes.length + 1) / 2 := by
  fun_induction pairUp combine nodes with
  | case1 left right rest ih =>
    rw [List.length_cons, ih, List.length_cons, List.length_cons]
    omega
  | case2 nodes single =>
    match nodes, single with
    | [], _ => simp
    | [_], _ => simp
    | left :: right :: rest, single => exact absurd rfl (single left right rest)

/-- An even front is paired up on its own. -/
theorem pairUp_append {first second : List Node} (even : first.length % 2 = 0) :
    pairUp combine (first ++ second) = pairUp combine first ++ pairUp combine second := by
  fun_induction pairUp combine first with
  | case1 left right rest ih =>
    have rest_even : rest.length % 2 = 0 := by
      simp only [List.length_cons] at even
      omega
    rw [List.cons_append, List.cons_append, pairUp, ih rest_even, List.cons_append]
  | case2 nodes single =>
    match nodes, single with
    | [], _ => rfl
    | [_], _ => simp at even
    | left :: right :: rest, single => exact absurd rfl (single left right rest)

/-- The largest power of two below a length is halved with it. -/
theorem half_halved (several : 3 ≤ length) :
    half length = 2 * half ((length + 1) / 2) := by
  have positive : length - 1 ≠ 0 := by omega
  have halved : (length + 1) / 2 - 1 = (length - 1) / 2 := by omega
  rw [half, half, halved, Nat.log_of_one_lt_of_le (by omega) (by omega), Nat.pow_succ, Nat.mul_comm]

/-- A level splits where the nodes below it do. -/
theorem pairUp_split {nodes : List Node} (several : 3 ≤ nodes.length) :
    let level := pairUp combine nodes
    level.take (half level.length) = pairUp combine (nodes.take (half nodes.length)) ∧
      level.drop (half level.length) = pairUp combine (nodes.drop (half nodes.length)) := by
  have bounds := half_bounds (show 2 ≤ nodes.length by omega)
  have halved := half_halved several
  have taken : (nodes.take (half nodes.length)).length = half nodes.length := by
    rw [List.length_take]
    omega
  have width : (pairUp combine (nodes.take (half nodes.length))).length =
      half ((nodes.length + 1) / 2) := by
    rw [length_pairUp, taken]
    omega
  have parts : pairUp combine nodes = pairUp combine (nodes.take (half nodes.length)) ++
      pairUp combine (nodes.drop (half nodes.length)) := by
    rw [← pairUp_append (by omega), List.take_append_drop]
  simp only [length_pairUp]
  rw [parts]
  exact ⟨List.take_left' width, List.drop_left' width⟩

/-- A level changes nothing for the split. -/
theorem splitFold_pairUp (nodes : List Node) :
    splitFold id combine empty (pairUp combine nodes) = splitFold id combine empty nodes := by
  match nodes with
  | [] => rfl
  | [_] => rfl
  | [left, right] =>
    have one : half [left, right].length = 1 := rfl
    rw [splitFold_of_several (show 2 ≤ [left, right].length from Nat.le_refl 2), one]
    simp only [pairUp, splitFold, List.take_succ_cons, List.take_zero, List.drop_succ_cons,
      List.drop_zero, id]
  | first :: second :: third :: rest =>
    have several : 3 ≤ (first :: second :: third :: rest).length := by
      simp only [List.length_cons]
      omega
    have positive := half_pos (first :: second :: third :: rest).length
    have bounds := half_bounds (show 2 ≤ (first :: second :: third :: rest).length by omega)
    obtain ⟨before, after⟩ := pairUp_split several
    have long : 2 ≤ (pairUp combine (first :: second :: third :: rest)).length := by
      rw [length_pairUp]
      omega
    rw [splitFold_of_several long, before, after, splitFold_pairUp, splitFold_pairUp]
    exact (splitFold_of_several (by omega)).symm
termination_by nodes.length
decreasing_by
  · simp only [List.length_take]
    omega
  · simp only [List.length_drop]
    omega

/-- A map that respects leaves and combinations respects the fold. -/
theorem map_splitFold {Other Image : Type} {otherLeaf : Other → Image}
    {otherCombine : Image → Image → Image} (map : Node → Image) (mapValue : Value → Other)
    (leafs : ∀ value, map (leaf value) = otherLeaf (mapValue value))
    (combines : ∀ left right, map (combine left right) = otherCombine (map left) (map right))
    (values : List Value) :
    map (splitFold leaf combine empty values) =
      splitFold otherLeaf otherCombine (map empty) (values.map mapValue) := by
  match values with
  | [] => simp [splitFold]
  | [value] => simp [splitFold, leafs]
  | first :: second :: rest =>
    have several : 2 ≤ (first :: second :: rest).length := by
      simp only [List.length_cons]
      omega
    have positive := half_pos (first :: second :: rest).length
    have bounds := half_bounds several
    have width : (first :: second :: rest).length =
        ((first :: second :: rest).map mapValue).length := (List.length_map _).symm
    rw [splitFold_of_several several, combines, map_splitFold map mapValue leafs combines,
      map_splitFold map mapValue leafs combines, List.map_take, List.map_drop, width]
    exact (splitFold_of_several (width ▸ several)).symm
termination_by values.length
decreasing_by
  · simp only [List.length_take]
    omega
  · simp only [List.length_drop]
    omega

end Levels

section InPlace

variable {Cell State : Type} (combine : Cell → Cell → State → Option (Cell × State))
  (moved : Cell → Cell)

/-- One level in place. A cell is left `moved` when it was read. -/
def pass (count index next : Nat) (cells : List Cell) (state : State) :
    Option (Nat × List Cell × State) :=
  if index < count then do
    let left ← cells[index]?
    let cells := cells.set index (moved left)
    if index + 1 < count then
      let right ← cells[index + 1]?
      let cells := cells.set (index + 1) (moved right)
      let (node, state) ← combine left right state
      pass count (index + 2) (next + 1) (cells.set next node) state
    else pass count (index + 1) (next + 1) (cells.set next left) state
  else some (next, cells, state)
termination_by count - index

/-- Level by level while more than one cell is left, at most so many times. -/
def reduce : Nat → Nat → List Cell → State → Option (List Cell × State)
  | passes, count, cells, state =>
    if 1 < count then
      match passes with
      | 0 => none
      | passes + 1 =>
        pass combine moved count 0 0 cells state >>= fun level =>
          reduce passes level.1 level.2.1 level.2.2
    else some (cells, state)

variable {Node : Type} (hold : Node → Cell)

/-- Cells hold nodes from a position on. -/
def Holds (cells : List Cell) (start : Nat) (nodes : List Node) : Prop :=
  ∀ offset (inside : offset < nodes.length), cells[start + offset]? = some (hold nodes[offset])

variable {combine moved hold}

theorem holds_map (nodes : List Node) : Holds hold (nodes.map hold) 0 nodes := by
  intro offset inside
  rw [Nat.zero_add, List.getElem?_map, List.getElem?_eq_getElem inside]
  rfl

variable {cells : List Cell} {start index : Nat} {nodes : List Node}

/-- Cells hold the nodes one after the other. -/
theorem holds_cons {node : Node} :
    Holds hold cells start (node :: nodes) ↔
      cells[start]? = some (hold node) ∧ Holds hold cells (start + 1) nodes := by
  constructor
  · intro holds
    refine ⟨holds 0 (by simp), fun offset inside => ?_⟩
    rw [Nat.add_assoc, Nat.add_comm 1]
    exact holds (offset + 1) (by simpa using inside)
  · rintro ⟨first, rest⟩ offset inside
    cases offset with
    | zero => exact first
    | succ offset =>
      rw [← Nat.add_assoc, Nat.add_right_comm]
      exact rest offset (by simpa using inside)

/-- Other cells can be written. -/
theorem Holds.set (holds : Holds hold cells start nodes) (index : Nat) (cell : Cell)
    (elsewhere : index < start ∨ start + nodes.length ≤ index) :
    Holds hold (cells.set index cell) start nodes := by
  intro offset inside
  rw [List.getElem?_set_ne (by omega)]
  exact holds offset inside

/-- The cell behind the nodes can be written to hold one more. -/
theorem Holds.snoc (holds : Holds hold cells 0 nodes) (room : nodes.length < cells.length)
    (node : Node) :
    Holds hold (cells.set nodes.length (hold node)) 0 (nodes ++ [node]) := by
  intro offset inside
  rw [List.length_append, List.length_singleton] at inside
  rw [Nat.zero_add]
  rcases Nat.lt_or_eq_of_le (Nat.le_of_lt_succ inside) with before | rfl
  · rw [List.getElem?_set_ne (by omega), List.getElem_append_left before, ← holds offset before,
      Nat.zero_add]
  · rw [List.getElem?_set_self room, List.getElem_concat_length rfl]

/-- A single cell needs no level. -/
theorem reduce_single (moved : Cell → Cell) {join : Node → Node → Node} (empty : Node)
    (passes : Nat) (state : State) (holds : Holds hold cells 0 nodes) (single : nodes.length = 1) :
    ∃ last after, reduce combine moved passes nodes.length cells state = some (last, after) ∧
      last[0]? = some (hold (splitFold id join empty nodes)) := by
  obtain ⟨node, rfl⟩ := List.length_eq_one_iff.mp single
  refine ⟨cells, state, ?_, ?_⟩
  · unfold reduce
    exact if_neg (by simp)
  · rw [splitFold]
    exact (holds_cons.mp holds).1

/-- A pass combines two cells that follow. -/
theorem pass_pair {count next : Nat} {left right node : Cell} {state after : State}
    (follows : index + 1 < count) (readLeft : cells[index]? = some left)
    (readRight : cells[index + 1]? = some right)
    (combined : combine left right state = some (node, after)) :
    pass combine moved count index next cells state =
      pass combine moved count (index + 2) (next + 1)
        (((cells.set index (moved left)).set (index + 1) (moved right)).set next node) after := by
  have read : (cells.set index (moved left))[index + 1]? = some right := by
    rw [List.getElem?_set_ne (by omega), readRight]
  rw [pass, if_pos (by omega), readLeft]
  simp only [Option.bind_eq_bind, Option.bind_some, if_pos follows, read, combined]

/-- A pass moves a last cell without another. -/
theorem pass_odd {next : Nat} {last : Cell} (state : State) (read : cells[index]? = some last) :
    pass combine moved (index + 1) index next cells state =
      some (next + 1, (cells.set index (moved last)).set next last, state) := by
  rw [pass, if_pos (by omega), read]
  simp only [Option.bind_eq_bind, Option.bind_some, Nat.lt_irrefl, if_false]
  rw [pass, if_neg (by omega)]

variable (moved) {join : Node → Node → Node}
  (combines : ∀ left right state,
    ∃ after, combine (hold left) (hold right) state = some (hold (join left right), after))
include combines

/-- A pass over the rest of the cells writes its level behind what was written before. -/
theorem pass_holds {done rest : List Node} (state : State) (written : Holds hold cells 0 done)
    (unread : Holds hold cells index rest) (behind : done.length ≤ index)
    (whole : index + rest.length ≤ cells.length) :
    ∃ level after, pass combine moved (index + rest.length) index done.length cells state =
        some ((done ++ pairUp join rest).length, level, after) ∧
      Holds hold level 0 (done ++ pairUp join rest) ∧ level.length = cells.length := by
  induction rest using List.twoStepInduction generalizing cells done index state with
  | nil =>
    rw [pass, if_neg (by simp)]
    simp only [pairUp, List.append_nil]
    exact ⟨cells, state, rfl, written, rfl⟩
  | singleton node =>
    obtain ⟨read, -⟩ := holds_cons.mp unread
    simp only [List.length_singleton] at whole ⊢
    have level := (written.set index (moved (hold node)) (.inr (by omega))).snoc
      (by rw [List.length_set]; omega) node
    refine ⟨_, state, ?_, level, by simp⟩
    rw [pass_odd state read, List.length_append]
    rfl
  | cons_cons left right rest ih _ =>
    obtain ⟨readLeft, unread⟩ := holds_cons.mp unread
    obtain ⟨readRight, unread⟩ := holds_cons.mp unread
    obtain ⟨after, combined⟩ := combines left right state
    simp only [List.length_cons] at whole ⊢
    have joined := ((written.set index (moved (hold left)) (.inr (by omega))).set (index + 1)
      (moved (hold right)) (.inr (by omega))).snoc
        (by simp only [List.length_set]; omega) (join left right)
    have remaining := ((unread.set index (moved (hold left)) (.inl (by omega))).set (index + 1)
      (moved (hold right)) (.inl (by omega))).set done.length (hold (join left right))
        (.inl (by omega))
    obtain ⟨level, last, passed, holds, width⟩ := ih after joined remaining
      (by simp only [List.length_append, List.length_singleton]; omega)
      (by simp only [List.length_set]; omega)
    rw [List.append_assoc] at holds passed
    refine ⟨level, last, ?_, holds, by simpa using width⟩
    rw [pass_pair (by omega) readLeft readRight combined]
    rwa [List.length_append, List.length_singleton,
      show index + 1 + 1 + rest.length = index + (rest.length + 1 + 1) by omega] at passed

/-- Enough levels in place leave the fold of all nodes in the first cell. -/
theorem reduce_holds (empty : Node) {passes : Nat} (state : State)
    (holds : Holds hold cells 0 nodes) (whole : nodes.length ≤ cells.length) (present : nodes ≠ [])
    (enough : nodes.length ≤ passes + 1) :
    ∃ last after, reduce combine moved passes nodes.length cells state = some (last, after) ∧
      last[0]? = some (hold (splitFold id join empty nodes)) := by
  have some := List.length_pos_iff.mpr present
  induction passes generalizing cells nodes state with
  | zero => exact reduce_single moved empty _ state holds (by omega)
  | succ passes ih =>
    by_cases several : 1 < nodes.length
    · have start : Holds hold cells 0 ([] : List Node) := by
        rintro offset ⟨⟩
      obtain ⟨level, after, passed, levelHolds, width⟩ := pass_holds moved combines state start
        holds (Nat.le_refl 0) (by omega)
      rw [List.nil_append, Nat.zero_add] at passed
      rw [List.nil_append] at levelHolds
      have shorter : (pairUp join nodes).length = (nodes.length + 1) / 2 := length_pairUp nodes
      obtain ⟨last, final, reduced, first⟩ := ih after levelHolds (by omega)
        (List.ne_nil_of_length_pos (by omega)) (by omega) (by omega)
      refine ⟨last, final, ?_, by rw [first, splitFold_pairUp]⟩
      rw [reduce, if_pos several]
      change pass combine moved nodes.length 0 ([] : List Node).length cells state >>= _ = _
      rw [passed]
      exact reduced
    · exact reduce_single moved empty _ state holds (by omega)

/-- An array of nodes is reduced to the fold of all of them. -/
theorem reduce_map (empty : Node) (present : nodes ≠ []) (state : State) :
    ∃ last after, reduce combine moved nodes.length nodes.length (nodes.map hold) state =
        some (last, after) ∧
      last[0]? = some (hold (splitFold id join empty nodes)) :=
  reduce_holds moved combines empty state (holds_map nodes) (by simp) present (Nat.le_succ _)

end InPlace

end Respublica.Foundation.Pairwise
