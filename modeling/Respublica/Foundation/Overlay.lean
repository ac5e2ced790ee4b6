import Mathlib.Logic.Function.Basic
import Respublica.Foundation.Forest

/-!
# Trees of overlays on a finite map

The purpose of a delta tree, in its own terms. Every node holds an `Overlay`: a
partial record of values and deletions. Its view is that record read on top of
the view of its parent, with the empty map under each root. The laws below say
what each operation does to the view of every node of the tree; they know nothing
of how an implementation stores an overlay.
-/

namespace Respublica.Foundation

/-- What one layer records about a key. -/
inductive Mark (Value : Type) where
  | put (value : Value)
  | deleted
deriving DecidableEq

/-- A partial record: most keys carry no mark. -/
abbrev Overlay (Key Value : Type) := Key → Option (Mark Value)

namespace Overlay

variable {Key Value : Type}

/-- The overlay that records nothing. -/
def blank : Overlay Key Value := fun _ => none

/-- Read a map through an overlay. -/
def atop (overlay : Overlay Key Value) (below : Key → Option Value) : Key → Option Value :=
  fun key =>
    match overlay key with
    | some (.put value) => some value
    | some .deleted => none
    | none => below key

/-- Merge an overlay into the one below it; the upper marks win. -/
def merge (upper lower : Overlay Key Value) : Overlay Key Value :=
  fun key => (upper key).or (lower key)

theorem blank_merge (lower : Overlay Key Value) : blank.merge lower = lower := by
  funext key
  simp [blank, merge]

/-- Reading through a merged overlay is reading through both layers. -/
theorem atop_merge (upper lower : Overlay Key Value) (below : Key → Option Value) :
    (upper.merge lower).atop below = upper.atop (lower.atop below) := by
  funext key
  simp only [atop, merge]
  rcases upper key with _ | ⟨_ | _⟩ <;> rfl

variable [DecidableEq Key]

/-- Record one mark. -/
def assign (overlay : Overlay Key Value) (key : Key) (mark : Mark Value) : Overlay Key Value :=
  Function.update overlay key (some mark)

/-- A recorded mark decides its key and no other. -/
theorem atop_assign (overlay : Overlay Key Value) (key : Key) (mark : Mark Value)
    (below : Key → Option Value) :
    (overlay.assign key mark).atop below =
      Function.update (overlay.atop below) key
        (match mark with
          | .put value => some value
          | .deleted => none) := by
  funext other
  by_cases same : other = key
  · subst same
    cases mark <;> simp [atop, assign]
  · simp [atop, assign, same]

end Overlay

/-- A forest whose nodes are overlays. -/
abbrev OverlayTree (Key Value : Type) := Forest (Overlay Key Value)

namespace OverlayTree

open Forest

variable {Key Value : Type}

/-- The overlay of a node; an absent node records nothing. -/
def overlay (tree : OverlayTree Key Value) (index : Nat) : Overlay Key Value :=
  (tree.node? index).getD Overlay.blank

/-- What a node shows: its overlay on its parent's view, down to the empty map. -/
def view (tree : OverlayTree Key Value) (index : Nat) : Key → Option Value :=
  (tree.lineage index).foldr (fun layer below => (tree.overlay layer).atop below) fun _ => none

/-- The view a node's overlay is read on: its parent's, or the empty map. -/
def below (tree : OverlayTree Key Value) (index : Nat) : Key → Option Value :=
  match tree.parent? index with
  | none => fun _ => none
  | some parent => tree.view parent

variable {tree : OverlayTree Key Value} {index other : Nat} {parent : Option Nat}

/-- The view of a node is its own overlay on what lies below it. -/
theorem view_eq (inside : index < tree.size) :
    tree.view index = (tree.overlay index).atop (tree.below index) := by
  rw [view, lineage_eq, if_pos inside, below]
  cases tree.parent? index <;> rfl

/-- Views agree when the overlays along the lineage do. -/
theorem view_congr {other : OverlayTree Key Value}
    (lineages : tree.lineage index = other.lineage index)
    (overlays : ∀ layer ∈ tree.lineage index, tree.overlay layer = other.overlay layer) :
    tree.view index = other.view index := by
  rw [view, view, ← lineages]
  revert overlays
  induction tree.lineage index with
  | nil => intro _; rfl
  | cons layer above ih =>
    intro overlays
    rw [List.foldr_cons, List.foldr_cons, overlays layer List.mem_cons_self,
      ih fun layer inRest => overlays layer (List.mem_cons_of_mem _ inRest)]

/-- An update changes the overlay of one node. -/
theorem overlay_update_self (inside : index < tree.size)
    (change : Overlay Key Value → Overlay Key Value) :
    OverlayTree.overlay (tree.update index change) index = change (tree.overlay index) := by
  obtain ⟨node, found⟩ := Option.isSome_iff_exists.mp (node?_isSome_iff.mpr inside)
  simp [overlay, found]

theorem overlay_update_of_ne (different : other ≠ index)
    (change : Overlay Key Value → Overlay Key Value) :
    OverlayTree.overlay (tree.update index change) other = tree.overlay other := by
  simp [overlay, node?_update_of_ne different]

/-- Changing a node is invisible to every node that does not descend from it. -/
theorem view_update_of_not_mem (change : Overlay Key Value → Overlay Key Value)
    (apart : index ∉ tree.lineage other) :
    OverlayTree.view (tree.update index change) other = tree.view other := by
  apply view_congr (lineage_update ..)
  intro layer mem
  rw [lineage_update] at mem
  apply overlay_update_of_ne
  rintro rfl
  exact apart mem

/-- What lies below a node does not include the node itself. -/
theorem below_update_self (tree : OverlayTree Key Value) (index : Nat)
    (change : Overlay Key Value → Overlay Key Value) :
    OverlayTree.below (tree.update index change) index = tree.below index := by
  simp only [below, parent?_update]
  split
  · rfl
  · rename_i parent points
    apply view_update_of_not_mem
    intro mem
    exact Nat.lt_irrefl _ (lt_of_mem_lineage_parent points mem)

/-- Changing a node re-reads its new overlay on the same view below. -/
theorem view_update_self (inside : index < tree.size)
    (change : Overlay Key Value → Overlay Key Value) :
    OverlayTree.view (tree.update index change) index =
      (change (tree.overlay index)).atop (tree.below index) := by
  rw [view_eq (by simpa using inside), overlay_update_self inside, below_update_self]

/-- Creating a node is invisible to the nodes already there. -/
theorem view_push_of_lt {node : Overlay Key Value} (old : index < tree.size) :
    OverlayTree.view (tree.push parent node) index = tree.view index := by
  apply view_congr (lineage_push_of_lt old)
  intro layer mem
  rw [lineage_push_of_lt old] at mem
  have older := Nat.lt_of_le_of_lt (le_of_mem_lineage mem) old
  simp [overlay, node?_push_of_lt older]

/-- A new node shows its overlay on the view of its parent. -/
theorem view_push_self (tree : OverlayTree Key Value)
    (valid : ∀ pointer, parent = some pointer → pointer < tree.size) (node : Overlay Key Value) :
    OverlayTree.view (tree.push parent node) tree.size =
      node.atop (match parent with
        | none => fun _ => none
        | some pointer => tree.view pointer) := by
  rw [view_eq (by simp)]
  have own : OverlayTree.overlay (tree.push parent node) tree.size = node := by
    simp [overlay, node?_push]
  rw [own, below, parent?_push, if_pos rfl]
  cases parent with
  | none => rfl
  | some pointer =>
    have inside := valid pointer rfl
    simp only [Option.filter, inside, decide_true, if_true]
    rw [view_push_of_lt inside]

/-- Create an empty child. -/
def makeChild (tree : OverlayTree Key Value) (index : Nat) : OverlayTree Key Value :=
  tree.push (some index) Overlay.blank

/-- Create a sibling with the same overlay. -/
def clone (tree : OverlayTree Key Value) (index : Nat) : OverlayTree Key Value :=
  tree.push (tree.parent? index) (tree.overlay index)

/-- Move a node's overlay into its parent. -/
def squash (tree : OverlayTree Key Value) (index : Nat) : OverlayTree Key Value :=
  match tree.parent? index with
  | none => tree
  | some parent =>
    (tree.update parent fun lower => (tree.overlay index).merge lower).update index
      fun _ => Overlay.blank

/-- After a squash the parent shows what the child showed. -/
theorem view_squash_parent {parent : Nat} (inside : index < tree.size)
    (points : tree.parent? index = some parent) :
    (tree.squash index).view parent = tree.view index := by
  have older := parent?_lt points
  have parentInside : parent < tree.size := Nat.lt_trans older inside
  have apart : index ∉ Forest.lineage
      (tree.update parent fun lower => (tree.overlay index).merge lower) parent := by
    rw [lineage_update]
    exact fun mem => Nat.not_lt_of_le (le_of_mem_lineage mem) older
  rw [squash, points]
  rw [view_update_of_not_mem _ apart, view_update_self parentInside, Overlay.atop_merge,
    ← view_eq parentInside, view_eq inside, below, points]

/-- What a squash leaves in the parent. -/
theorem overlay_squash_parent {parent : Nat} (points : tree.parent? index = some parent) :
    OverlayTree.overlay (tree.squash index) parent =
      (tree.overlay index).merge (tree.overlay parent) := by
  have older := parent?_lt points
  have parentInside := Nat.lt_trans older (lt_size_of_parent? points)
  rw [squash, points]
  simp only
  rw [overlay_update_of_ne (Nat.ne_of_lt older), overlay_update_self parentInside]

/-- A squash is invisible to nodes that do not descend from the parent. -/
theorem view_squash_of_not_mem {parent : Nat} (points : tree.parent? index = some parent)
    (apart : parent ∉ tree.lineage other) :
    (tree.squash index).view other = tree.view other := by
  have childApart : index ∉ tree.lineage other := fun mem => apart (parent_mem_lineage points mem)
  rw [squash, points]
  simp only
  rw [view_update_of_not_mem _ (by rwa [lineage_update]), view_update_of_not_mem _ apart]

variable [DecidableEq Key]

/-- Store a value in one node. -/
def put (tree : OverlayTree Key Value) (index : Nat) (key : Key) (value : Value) :
    OverlayTree Key Value :=
  tree.update index fun overlay => overlay.assign key (.put value)

/-- Delete a visible key from one node; there is nothing to record otherwise. -/
def remove (tree : OverlayTree Key Value) (index : Nat) (key : Key) : OverlayTree Key Value :=
  if (tree.view index key).isSome then
    tree.update index fun overlay => overlay.assign key .deleted
  else tree

/-- A stored value is what the node then shows, and other keys keep theirs. -/
theorem view_put (inside : index < tree.size) (key : Key) (value : Value) :
    (tree.put index key value).view index = Function.update (tree.view index) key (some value) := by
  rw [put, view_update_self inside, Overlay.atop_assign, view_eq inside]

/-- A deleted key is absent afterwards, and other keys keep their values. -/
theorem view_remove (inside : index < tree.size) (key : Key) :
    (tree.remove index key).view index = Function.update (tree.view index) key none := by
  rw [remove]
  split
  · rw [view_update_self inside, Overlay.atop_assign, view_eq inside]
  · rename_i absent
    have hidden : tree.view index key = none := by simpa using absent
    rw [← hidden, Function.update_eq_self]

/-- Storing or deleting is invisible to nodes that do not descend from the node. -/
theorem view_put_of_not_mem (apart : index ∉ tree.lineage other) (key : Key) (value : Value) :
    (tree.put index key value).view other = tree.view other :=
  view_update_of_not_mem _ apart

/-- Removals show on the node and above it only. -/
theorem view_remove_of_not_mem (apart : index ∉ tree.lineage other) (key : Key) :
    (tree.remove index key).view other = tree.view other := by
  rw [remove]
  split
  · exact view_update_of_not_mem _ apart
  · rfl

end OverlayTree

end Respublica.Foundation
