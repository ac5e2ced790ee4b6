import Respublica.Foundation.Forest

/-!
# What a forest holds along a branch

The branch of a node is the list of contents along its lineage, its own first. Two nodes of
different forests can have the same branch although their indices have nothing to do with each
other, so a branch is what there is to compare when forests have grown in different orders.
-/

namespace Respublica.Foundation.Forest

variable {Node : Type}

/-- The contents of a node, of its parent, and so on up to a root. -/
def branch (forest : Forest Node) (index : Nat) : List Node :=
  (forest.lineage index).filterMap forest.node?

variable {forest other : Forest Node} {index position parent : Nat} {node : Node}

theorem branch_of_outside (outside : ¬ index < forest.size) : forest.branch index = [] := by
  rw [branch, lineage_eq, if_neg outside, List.filterMap_nil]

/-- The branch of a root is the root. -/
theorem branch_of_root (found : forest.node? index = some node)
    (root : forest.parent? index = none) : forest.branch index = [node] := by
  rw [branch, lineage_of_root (lt_size_of_node? found) root]
  simp [found]

/-- The branch of a child goes on with that of its parent. -/
theorem branch_of_child (found : forest.node? index = some node)
    (points : forest.parent? index = some parent) :
    forest.branch index = node :: forest.branch parent := by
  rw [branch, lineage_of_child (lt_size_of_node? found) points, List.filterMap_cons, found]
  rfl

/-- A branch starts with the node's own contents. -/
theorem head?_branch (forest : Forest Node) (index : Nat) :
    (forest.branch index).head? = forest.node? index := by
  cases found : forest.node? index with
  | none =>
    rw [branch_of_outside fun inside => by simpa [found] using node?_isSome_iff.mpr inside]
    rfl
  | some node =>
    cases points : forest.parent? index with
    | none => rw [branch_of_root found points, List.head?_cons]
    | some parent => rw [branch_of_child found points, List.head?_cons]

/-- It goes on with the branch of the parent. -/
theorem tail_branch (forest : Forest Node) (index : Nat) :
    (forest.branch index).tail = (forest.parent? index).elim [] forest.branch := by
  cases points : forest.parent? index with
  | none =>
    cases found : forest.node? index with
    | none =>
      rw [branch_of_outside fun inside => by simpa [found] using node?_isSome_iff.mpr inside]
      rfl
    | some node => rw [branch_of_root found points]; rfl
  | some parent =>
    obtain ⟨node, found⟩ := Option.isSome_iff_exists.mp
      (node?_isSome_iff.mpr (lt_size_of_parent? points))
    rw [branch_of_child found points]
    rfl

theorem branch_ne_nil (inside : index < forest.size) : forest.branch index ≠ [] := by
  intro empty
  have start := forest.head?_branch index
  rw [empty, List.head?_nil, eq_comm, ← Option.not_isSome_iff_eq_none, node?_isSome_iff] at start
  exact start inside

/-- Nodes with the same branch both have parents, and their parents have the same branch. -/
theorem parent_of_branch_eq (same : forest.branch index = other.branch position)
    (points : forest.parent? index = some parent) :
    ∃ another, other.parent? position = some another ∧
      forest.branch parent = other.branch another := by
  have tails := congrArg List.tail same
  rw [tail_branch, tail_branch, points, Option.elim_some] at tails
  have inside := Nat.lt_trans (parent?_lt points) (lt_size_of_parent? points)
  cases otherPoints : other.parent? position with
  | none =>
    rw [otherPoints, Option.elim_none] at tails
    exact absurd tails (branch_ne_nil inside)
  | some another =>
    rw [otherPoints, Option.elim_some] at tails
    exact ⟨another, rfl, tails⟩

/-- Equal branches end at the same depth. -/
theorem isRoot_of_branch_eq (same : forest.branch index = other.branch position)
    (root : forest.parent? index = none) : other.parent? position = none := by
  cases points : other.parent? position with
  | none => rfl
  | some parent =>
    obtain ⟨_, present, -⟩ := parent_of_branch_eq same.symm points
    rw [root] at present
    cases present

/-- A branch depends on the lineage and on the nodes along it. -/
theorem branch_congr (lineages : forest.lineage index = other.lineage index)
    (nodes : ∀ ancestor ∈ forest.lineage index, forest.node? ancestor = other.node? ancestor) :
    forest.branch index = other.branch index := by
  rw [branch, branch, ← lineages]
  exact List.filterMap_congr nodes

end Respublica.Foundation.Forest
