import Mathlib.Data.List.Basic
import Mathlib.Data.Nat.Init

/-!
# Forests of nodes that point at earlier nodes

A `Forest` holds nodes in the order of their creation, each with an optional
pointer to a parent created before it. The pointer bound is a field, so following
parents always ends; `lineage` is the resulting list of indices, the node itself
first. Changing the contents of nodes never changes a lineage.
-/

namespace Respublica.Foundation

/-- Nodes in creation order; a parent is always older than its child. -/
structure Forest (Node : Type) where
  cells : List (Option Nat × Node)
  earlier : ∀ {index parent : Nat} {node : Node}, cells[index]? = some (some parent, node) →
    parent < index

namespace Forest

variable {Node Image : Type}

@[ext] theorem ext {left right : Forest Node} (cells : left.cells = right.cells) :
    left = right := by
  cases left
  cases right
  cases cells
  rfl

/-- The forest without nodes. -/
def empty : Forest Node := ⟨[], by simp⟩

/-- Number of nodes created so far; also the index of the next one. -/
def size (forest : Forest Node) : Nat := forest.cells.length

/-- The node at an index, if one was created there. -/
def node? (forest : Forest Node) (index : Nat) : Option Node :=
  forest.cells[index]?.map Prod.snd

/-- The parent pointer of a node; `none` for roots and for absent nodes. -/
def parent? (forest : Forest Node) (index : Nat) : Option Nat :=
  forest.cells[index]?.bind Prod.fst

variable {forest : Forest Node} {index parent position ancestor : Nat} {node : Node}
  {change : Node → Node}

theorem parent?_lt (points : forest.parent? index = some parent) : parent < index := by
  rw [parent?, Option.bind_eq_some_iff] at points
  obtain ⟨⟨pointer, node⟩, found, rfl⟩ := points
  exact forest.earlier found

theorem lt_size_of_node? (found : forest.node? index = some node) : index < forest.size := by
  rw [node?, Option.map_eq_some_iff] at found
  obtain ⟨cell, present, -⟩ := found
  exact (List.getElem?_eq_some_iff.mp present).1

theorem node?_isSome_iff :
    (forest.node? index).isSome ↔ index < forest.size := by
  simp [node?, size]

theorem lt_size_of_parent? (points : forest.parent? index = some parent) : index < forest.size := by
  rw [parent?, Option.bind_eq_some_iff] at points
  obtain ⟨cell, present, -⟩ := points
  exact (List.getElem?_eq_some_iff.mp present).1

/-- A parent pointer leads to a node. -/
theorem node?_parent (points : forest.parent? index = some parent) :
    ∃ node, forest.node? parent = some node := by
  have parentInside : parent < forest.size :=
    Nat.lt_trans (parent?_lt points) (lt_size_of_parent? points)
  exact Option.isSome_iff_exists.mp (node?_isSome_iff.mpr parentInside)

/-- Change the contents of one node, keeping its parent. -/
def update (forest : Forest Node) (index : Nat) (change : Node → Node) : Forest Node where
  cells := forest.cells.modify index (Prod.map id change)
  earlier := by
    intro position parent node found
    rw [List.getElem?_modify, Option.map_eq_map, Option.map_eq_some_iff] at found
    obtain ⟨⟨pointer, original⟩, present, changed⟩ := found
    split at changed <;> (cases changed; exact forest.earlier present)

/-- Turn one node into a root, keeping its contents. -/
def detach (forest : Forest Node) (index : Nat) : Forest Node where
  cells := forest.cells.modify index fun cell => (none, cell.2)
  earlier := by
    intro position parent node found
    rw [List.getElem?_modify, Option.map_eq_map, Option.map_eq_some_iff] at found
    obtain ⟨⟨pointer, original⟩, present, changed⟩ := found
    split at changed
    · cases changed
    · cases changed
      exact forest.earlier present

/-- Create a node behind all others. A pointer to no node is dropped. -/
def push (forest : Forest Node) (parent : Option Nat) (node : Node) : Forest Node where
  cells := forest.cells ++ [(parent.filter (· < forest.cells.length), node)]
  earlier := by
    intro position pointer child found
    rw [List.getElem?_append] at found
    split at found
    · exact forest.earlier found
    · rename_i behind
      rw [List.getElem?_singleton] at found
      split at found
      · cases parent <;> simp [Option.filter] at found
        omega
      · cases found

@[simp] theorem size_update (forest : Forest Node) (index : Nat) (change : Node → Node) :
    (forest.update index change).size = forest.size := by
  simp [size, update]

@[simp] theorem size_push (forest : Forest Node) (parent : Option Nat) (node : Node) :
    (forest.push parent node).size = forest.size + 1 := by
  simp [size, push]

/-- An update changes one node. -/
theorem node?_update (forest : Forest Node) (index position : Nat) (change : Node → Node) :
    (forest.update index change).node? position =
      if index = position then (forest.node? position).map change else forest.node? position := by
  simp only [node?, update, List.getElem?_modify, Option.map_eq_map, Option.map_map]
  split <;> (cases forest.cells[position]? <;> rfl)

@[simp] theorem node?_update_self (forest : Forest Node) (index : Nat) (change : Node → Node) :
    (forest.update index change).node? index = (forest.node? index).map change := by
  simp [node?_update]

theorem node?_update_of_ne (other : position ≠ index) :
    (forest.update index change).node? position = forest.node? position := by
  simp [node?_update, other.symm]

/-- Updates leave parents alone. -/
@[simp] theorem parent?_update (forest : Forest Node) (index position : Nat)
    (change : Node → Node) :
    (forest.update index change).parent? position = forest.parent? position := by
  simp only [parent?, update, List.getElem?_modify]
  cases forest.cells[position]? with
  | none => rfl
  | some cell => by_cases here : index = position <;> simp [here]

@[simp] theorem node?_detach (forest : Forest Node) (index position : Nat) :
    (forest.detach index).node? position = forest.node? position := by
  simp only [node?, detach, List.getElem?_modify]
  cases forest.cells[position]? with
  | none => rfl
  | some cell => by_cases here : index = position <;> simp [here]

/-- Detaching takes the parent of one node. -/
theorem parent?_detach (forest : Forest Node) (index position : Nat) :
    (forest.detach index).parent? position =
      if index = position then none else forest.parent? position := by
  simp only [parent?, detach, List.getElem?_modify]
  cases forest.cells[position]? with
  | none => simp
  | some cell => by_cases here : index = position <;> simp [here]

/-- A push adds one node at the end. -/
theorem node?_push (forest : Forest Node) (parent : Option Nat) (node : Node) (position : Nat) :
    (forest.push parent node).node? position =
      if position = forest.size then some node else forest.node? position := by
  simp only [node?, push, size, List.getElem?_append]
  rcases Nat.lt_trichotomy position forest.cells.length with before | here | behind
  · simp [before, Nat.ne_of_lt before]
  · simp [here]
  · have beyond : position - forest.cells.length ≠ 0 := by omega
    simp [Nat.not_lt_of_gt behind, Nat.ne_of_gt behind, beyond]

@[simp] theorem node?_push_self (forest : Forest Node) (parent : Option Nat) (node : Node) :
    (forest.push parent node).node? forest.size = some node := by
  rw [node?_push, if_pos rfl]

theorem node?_push_of_lt {parent : Option Nat} (old : position < forest.size) :
    (forest.push parent node).node? position = forest.node? position := by
  simp [node?_push, Nat.ne_of_lt old]

/-- The new node has the given parent, if that exists. -/
theorem parent?_push (forest : Forest Node) (parent : Option Nat) (node : Node) (position : Nat) :
    (forest.push parent node).parent? position =
      if position = forest.size then parent.filter (· < forest.size)
      else forest.parent? position := by
  simp only [parent?, push, size, List.getElem?_append]
  rcases Nat.lt_trichotomy position forest.cells.length with before | here | behind
  · simp [before, Nat.ne_of_lt before]
  · simp only [here, Nat.lt_irrefl, if_false, Nat.sub_self, List.getElem?_cons_zero,
      Option.bind_some, if_true]
    rfl
  · have beyond : position - forest.cells.length ≠ 0 := by omega
    simp [Nat.not_lt_of_gt behind, Nat.ne_of_gt behind, beyond]

/-- A node created under another points to it. -/
theorem parent?_push_child (inside : parent < forest.size) (node : Node) :
    (forest.push (some parent) node).parent? forest.size = some parent := by
  rw [parent?_push, if_pos rfl, Option.filter_some, decide_eq_true inside, if_pos rfl]

/-- Follow at most `fuel` parent pointers. -/
def lineageFrom (forest : Forest Node) : Nat → Nat → List Nat
  | 0, _ => []
  | fuel + 1, index =>
    match forest.cells[index]? with
    | none => []
    | some (none, _) => [index]
    | some (some parent, _) => index :: forest.lineageFrom fuel parent

/-- The node, its parent, and so on up to a root. Indices fall along the way, so
`index + 1` pointers are always enough. -/
def lineage (forest : Forest Node) (index : Nat) : List Nat :=
  forest.lineageFrom (index + 1) index

/-- Enough fuel gives the whole lineage. -/
private theorem lineageFrom_eq_lineage (forest : Forest Node) {fuel : Nat} (enough : index < fuel) :
    forest.lineageFrom fuel index = forest.lineage index := by
  induction index using Nat.strong_induction_on generalizing fuel with
  | _ index ih =>
    obtain ⟨fuel, rfl⟩ : ∃ rest, fuel = rest + 1 := ⟨fuel - 1, by omega⟩
    simp only [lineage, lineageFrom]
    split
    · rfl
    · rfl
    · rename_i parent node found
      have older := forest.earlier found
      rw [ih parent older (by omega : parent < fuel), ih parent older older]

/-- A lineage is the node followed by the lineage of its parent. -/
theorem lineage_eq (forest : Forest Node) (index : Nat) :
    forest.lineage index =
      if index < forest.size then
        index :: (match forest.parent? index with
          | none => []
          | some parent => forest.lineage parent)
      else [] := by
  rw [lineage, lineageFrom, parent?, size]
  split
  · rename_i missing
    have outside : ¬ index < forest.cells.length := by simpa using missing
    simp [outside]
  · rename_i node found
    have inside : index < forest.cells.length := (List.getElem?_eq_some_iff.mp found).1
    rw [if_pos inside, found, Option.bind_some]
  · rename_i parent node found
    have inside : index < forest.cells.length := (List.getElem?_eq_some_iff.mp found).1
    rw [if_pos inside, found, Option.bind_some,
      lineageFrom_eq_lineage forest (forest.earlier found)]

/-- A root is its whole lineage. -/
theorem lineage_of_root (inside : index < forest.size) (root : forest.parent? index = none) :
    forest.lineage index = [index] := by
  rw [lineage_eq, if_pos inside, root]

/-- The lineage of a child goes on with that of its parent. -/
theorem lineage_of_child (inside : index < forest.size)
    (points : forest.parent? index = some parent) :
    forest.lineage index = index :: forest.lineage parent := by
  rw [lineage_eq, if_pos inside, points]

/-- Every index on a lineage is at most the index it starts from. -/
theorem le_of_mem_lineage (mem : ancestor ∈ forest.lineage index) : ancestor ≤ index := by
  induction index using Nat.strong_induction_on with
  | _ index ih =>
    rw [lineage_eq] at mem
    split at mem
    · rcases List.mem_cons.mp mem with rfl | above
      · exact Nat.le_refl _
      · split at above
        · cases above
        · rename_i parent points
          have older := parent?_lt points
          exact Nat.le_trans (ih parent older above) (Nat.le_of_lt older)
    · cases mem

/-- The proper ancestors of a node come strictly before it. -/
theorem lt_of_mem_lineage_parent (points : forest.parent? index = some parent)
    (mem : ancestor ∈ forest.lineage parent) :
    ancestor < index :=
  Nat.lt_of_le_of_lt (le_of_mem_lineage mem) (parent?_lt points)

theorem inside_of_mem_lineage (mem : ancestor ∈ forest.lineage index) : index < forest.size := by
  by_contra outside
  rw [lineage_eq, if_neg outside] at mem
  cases mem

theorem mem_lineage_self (inside : index < forest.size) :
    index ∈ forest.lineage index := by
  rw [lineage_eq, if_pos inside]
  exact List.mem_cons_self

theorem lt_size_of_mem_lineage (mem : ancestor ∈ forest.lineage index) :
    ancestor < forest.size :=
  Nat.lt_of_le_of_lt (le_of_mem_lineage mem) (inside_of_mem_lineage mem)

/-- A lineage goes from each node to its parent. -/
theorem isChain_lineage (forest : Forest Node) (index : Nat) :
    (forest.lineage index).IsChain fun child parent => forest.parent? child = some parent := by
  induction index using Nat.strong_induction_on with
  | _ index ih =>
    by_cases inside : index < forest.size
    · cases points : forest.parent? index with
      | none =>
        rw [lineage_of_root inside points]
        exact .singleton _
      | some parent =>
        have older := parent?_lt points
        rw [lineage_of_child inside points, lineage_eq, if_pos (Nat.lt_trans older inside)]
        refine .cons_cons points ?_
        have rest := ih parent older
        rwa [lineage_eq, if_pos (Nat.lt_trans older inside)] at rest
    · rw [lineage_eq, if_neg inside]
      exact .nil

/-- The indices along a lineage go down. -/
theorem nodup_lineage (forest : Forest Node) (index : Nat) : (forest.lineage index).Nodup := by
  have descending : (forest.lineage index).IsChain fun child parent => parent < child :=
    (forest.isChain_lineage index).imp fun _ _ points => parent?_lt points
  have sorted : (forest.lineage index).Pairwise fun child parent => parent < child :=
    List.isChain_iff_pairwise.mp descending
  exact sorted.imp fun older => Nat.ne_of_gt older

/-- Every lineage ends at a root. -/
theorem exists_root (inside : index < forest.size) :
    ∃ younger root, forest.lineage index = younger ++ [root] ∧ forest.parent? root = none := by
  induction index using Nat.strong_induction_on with
  | _ index ih =>
    cases points : forest.parent? index with
    | none => exact ⟨[], index, lineage_of_root inside points, points⟩
    | some parent =>
      have older := parent?_lt points
      obtain ⟨younger, root, ends, isRoot⟩ := ih parent older (Nat.lt_trans older inside)
      exact ⟨index :: younger, root, by rw [lineage_of_child inside points, ends]; rfl, isRoot⟩

/-- A lineage that reaches a node goes on to its parent. -/
theorem parent_mem_lineage {other : Nat} (points : forest.parent? index = some parent)
    (mem : index ∈ forest.lineage other) :
    parent ∈ forest.lineage other := by
  have inside : parent < forest.size :=
    Nat.lt_trans (parent?_lt points) (lt_size_of_mem_lineage mem)
  induction other using Nat.strong_induction_on with
  | _ other ih =>
    have otherInside : other < forest.size := by
      by_contra outside
      rw [lineage_eq, if_neg outside] at mem
      cases mem
    rw [lineage_eq, if_pos otherInside] at mem ⊢
    rcases List.mem_cons.mp mem with rfl | above
    · simp only [points]
      rw [lineage_eq forest parent, if_pos inside]
      simp
    · cases otherPoints : forest.parent? other with
      | none => simp [otherPoints] at above
      | some older =>
        simp only [otherPoints] at above ⊢
        exact List.mem_cons_of_mem _ (ih older (parent?_lt otherPoints) above)

/-- A lineage that passes a root ends there, and everything before is younger. -/
theorem lineage_ends_at_root {root : Nat} (isRoot : forest.parent? root = none)
    (mem : root ∈ forest.lineage index) :
    ∃ younger, forest.lineage index = younger ++ [root] ∧ ∀ other ∈ younger, root < other := by
  induction index using Nat.strong_induction_on with
  | _ index ih =>
    have inside := inside_of_mem_lineage mem
    cases points : forest.parent? index with
    | none =>
      rw [lineage_of_root inside points] at mem ⊢
      obtain rfl := List.mem_singleton.mp mem
      exact ⟨[], rfl, by simp⟩
    | some parent =>
      rw [lineage_of_child inside points] at mem ⊢
      rcases List.mem_cons.mp mem with rfl | above
      · rw [isRoot] at points
        cases points
      · obtain ⟨younger, split, older⟩ := ih parent (parent?_lt points) above
        refine ⟨index :: younger, by rw [split, List.cons_append], ?_⟩
        intro other within
        rcases List.mem_cons.mp within with rfl | within
        · exact lt_of_mem_lineage_parent points above
        · exact older other within

/-- Lineages depend on the parent pointers only. -/
theorem lineage_congr {other : Forest Node}
    (sizes : ∀ position ≤ index, position < forest.size ↔ position < other.size)
    (parents : ∀ position ≤ index, forest.parent? position = other.parent? position) :
    forest.lineage index = other.lineage index := by
  induction index using Nat.strong_induction_on with
  | _ index ih =>
    rw [lineage_eq forest, lineage_eq other, parents index (Nat.le_refl _)]
    by_cases inside : index < forest.size
    · rw [if_pos inside, if_pos ((sizes index (Nat.le_refl _)).mp inside)]
      split
      · rfl
      · rename_i parent points
        have older := parent?_lt points
        rw [ih parent older (fun position bound => sizes position (by omega))
          (fun position bound => parents position (by omega))]
    · rw [if_neg inside, if_neg (fun found => inside ((sizes index (Nat.le_refl _)).mpr found))]

@[simp] theorem lineage_update (forest : Forest Node) (index position : Nat)
    (change : Node → Node) :
    (forest.update index change).lineage position = forest.lineage position :=
  lineage_congr (by simp) (by simp)

/-- A push leaves the lineages of older nodes alone. -/
theorem lineage_push_of_lt {parent : Option Nat} (old : position < forest.size) :
    (forest.push parent node).lineage position = forest.lineage position := by
  apply lineage_congr
  · intro older bound
    simp only [size_push]
    omega
  · intro older bound
    rw [parent?_push, if_neg (by omega)]

/-- Map every node, with sight of its parent pointer. -/
def mapNodes (image : Option Nat → Node → Image) (forest : Forest Node) : Forest Image where
  cells := forest.cells.map fun cell => (cell.1, image cell.1 cell.2)
  earlier := by
    intro position parent node found
    rw [List.getElem?_map, Option.map_eq_some_iff] at found
    obtain ⟨⟨pointer, original⟩, present, mapped⟩ := found
    cases mapped
    exact forest.earlier present

section MapNodes

variable (image : Option Nat → Node → Image)

@[simp] theorem size_mapNodes (forest : Forest Node) :
    (forest.mapNodes image).size = forest.size := by
  simp [size, mapNodes]

@[simp] theorem node?_mapNodes (forest : Forest Node) (index : Nat) :
    (forest.mapNodes image).node? index =
      (forest.node? index).map (image (forest.parent? index)) := by
  simp only [node?, parent?, mapNodes, List.getElem?_map, Option.map_map]
  cases forest.cells[index]? <;> rfl

@[simp] theorem parent?_mapNodes (forest : Forest Node) (index : Nat) :
    (forest.mapNodes image).parent? index = forest.parent? index := by
  simp only [parent?, mapNodes, List.getElem?_map]
  cases forest.cells[index]? <;> rfl

/-- Mapping the nodes changes no lineage. -/
@[simp] theorem lineage_mapNodes (forest : Forest Node) (index : Nat) :
    (forest.mapNodes image).lineage index = forest.lineage index := by
  induction index using Nat.strong_induction_on with
  | _ index ih =>
    rw [lineage_eq, lineage_eq forest, size_mapNodes, parent?_mapNodes]
    split
    · split
      · rfl
      · rename_i parent points
        rw [ih parent (parent?_lt points)]
    · rfl

end MapNodes

/-- Forests with the same pointers and the same contents are equal. -/
theorem ext_node? {left right : Forest Node}
    (parents : ∀ index, left.parent? index = right.parent? index)
    (nodes : ∀ index, left.node? index = right.node? index) : left = right := by
  apply ext
  apply List.ext_getElem?
  intro index
  have sameParent := parents index
  have sameNode := nodes index
  simp only [parent?, node?] at sameParent sameNode
  rcases leftCell : left.cells[index]? with _ | ⟨leftParent, leftNode⟩ <;>
    rcases rightCell : right.cells[index]? with _ | ⟨rightParent, rightNode⟩ <;>
    simp_all

/-- An update that changes nothing at its node is no update. -/
theorem update_eq_self (fixed : ∀ node, forest.node? index = some node → change node = node) :
    forest.update index change = forest := by
  apply ext_node?
  · simp
  · intro position
    rw [node?_update]
    split
    · rename_i same
      subst same
      cases found : forest.node? index with
      | none => rfl
      | some node => simp [fixed node found]
    · rfl

theorem update_id (forest : Forest Node) (index : Nat) :
    (forest.update index fun node => node) = forest :=
  update_eq_self fun _ _ => rfl

/-- Mapping commutes with updating when the two changes correspond at that node. -/
theorem mapNodes_update {image : Option Nat → Node → Image} {mapped : Image → Image}
    (corresponds : ∀ node, forest.node? index = some node →
      image (forest.parent? index) (change node) = mapped (image (forest.parent? index) node)) :
    (forest.update index change).mapNodes image = (forest.mapNodes image).update index mapped := by
  apply ext_node?
  · simp
  · intro position
    simp only [node?_mapNodes, node?_update, parent?_update]
    split
    · rename_i same
      subst same
      cases found : forest.node? index with
      | none => rfl
      | some node => simp [corresponds node found]
    · rfl

/-- Mapping goes through a push. -/
theorem mapNodes_push (image : Option Nat → Node → Image) (forest : Forest Node)
    (parent : Option Nat) (node : Node) :
    (forest.push parent node).mapNodes image =
      (forest.mapNodes image).push parent (image (parent.filter (· < forest.size)) node) := by
  apply ext_node?
  · simp [parent?_push]
  · intro position
    simp only [node?_mapNodes, node?_push, parent?_push, size_mapNodes]
    split <;> rfl

end Forest

end Respublica.Foundation
