import Respublica.Foundation.Branch
import Respublica.StateDb.Alike
import Respublica.StateDb.Settled
import Respublica.StateDb.StateRoot

/-!
# The layers a delta stands on

What a delta shows and reports depends on the contents of the deltas along its lineage, and on
nothing else of the heap: neither on their indices nor on other branches. Two heaps that have
grown in different orders can so be compared node by node, and the same call on nodes with the
same layers does the same to both.
-/

namespace Respublica.StateDb.Heap

open Foundation Effect Crypto Forest Heap

/-- The contents of a delta and of the deltas it stands on, its own first. -/
def layers (heap : Heap) (index : Nat) : List Content := heap.contents.branch index

variable {left right heap : Heap} {first second index : Nat} {delta : Delta}

theorem node?_contents (heap : Heap) (index : Nat) :
    heap.contents.node? index = (heap.node? index).map Delta.content := by
  simp [contents]

theorem parent?_contents (heap : Heap) (index : Nat) :
    heap.contents.parent? index = heap.parent? index := by
  simp [contents]

theorem head?_layers (heap : Heap) (index : Nat) :
    (heap.layers index).head? = (heap.node? index).map Delta.content := by
  rw [layers, head?_branch, node?_contents]

/-- A root is one layer. -/
theorem layers_of_root (found : heap.node? index = some delta)
    (root : heap.parent? index = none) : heap.layers index = [delta.content] :=
  branch_of_root (by rw [node?_contents, found]; rfl) (by rw [parent?_contents, root])

variable {parent : Nat} {pointer : Option Nat} {change : Delta → Delta}

/-- A child is one layer on its parent's. -/
theorem layers_of_child (found : heap.node? index = some delta)
    (points : heap.parent? index = some parent) :
    heap.layers index = delta.content :: heap.layers parent :=
  branch_of_child (by rw [node?_contents, found]; rfl) (by rw [parent?_contents, points])

/-- Equal layers have equal layers below. -/
theorem parent_of_layers_eq (same : left.layers first = right.layers second)
    (points : left.parent? first = some parent) :
    ∃ another, right.parent? second = some another ∧ left.layers parent = right.layers another := by
  obtain ⟨another, otherPoints, above⟩ :=
    parent_of_branch_eq same (by rw [parent?_contents, points])
  exact ⟨another, by rwa [parent?_contents] at otherPoints, above⟩

/-- Equal layers are roots together. -/
theorem isRoot_of_layers_eq (same : left.layers first = right.layers second)
    (root : left.parent? first = none) : right.parent? second = none := by
  have isRoot := isRoot_of_branch_eq same (by rw [parent?_contents, root])
  rwa [parent?_contents] at isRoot

/-- Heaps that are alike have the same layers everywhere. -/
theorem Alike.layers (alike : Alike left right) (index : Nat) :
    left.layers index = right.layers index :=
  congrArg (Forest.branch · index) alike

/-- Layers are kept where neither lineages nor deltas have changed. -/
theorem layers_congr (lineages : left.lineage index = right.lineage index)
    (nodes : ∀ ancestor ∈ left.lineage index, left.node? ancestor = right.node? ancestor) :
    left.layers index = right.layers index := by
  refine branch_congr ?_ fun ancestor mem => ?_
  · simpa [contents] using lineages
  · rw [contents, lineage_mapNodes] at mem
    rw [node?_contents, node?_contents, nodes ancestor mem]

/-- An update changes the top layer of its node. -/
theorem layers_update_self (found : heap.node? index = some delta) (change : Delta → Delta) :
    layers (heap.update index change) index =
      (change delta).content :: (heap.layers index).tail := by
  have changed : Forest.node? (heap.update index change) index = some (change delta) := by
    rw [node?_update_self, found, Option.map_some]
  cases points : heap.parent? index with
  | none =>
    rw [layers_of_root changed (by rw [parent?_update, points]),
      layers_of_root found points]
    rfl
  | some parent =>
    rw [layers_of_child changed (by rw [parent?_update, points]),
      layers_of_child found points]
    refine congrArg _ (layers_congr (lineage_update _ _ _ _) fun ancestor mem => ?_)
    rw [lineage_update] at mem
    exact node?_update_of_ne
      (Nat.ne_of_lt (lt_of_mem_lineage_parent points mem))

/-- Older nodes keep their layers. -/
theorem layers_update_of_lt {older : Nat} (before : older < index) (change : Delta → Delta) :
    layers (heap.update index change) older = heap.layers older := by
  refine layers_congr (lineage_update _ _ _ _) fun ancestor mem => ?_
  rw [lineage_update] at mem
  exact node?_update_of_ne
    (Nat.ne_of_lt (Nat.lt_of_le_of_lt (le_of_mem_lineage mem) before))

theorem layers_push_of_lt (inside : index < heap.size) (delta : Delta) :
    layers (heap.push pointer delta) index = heap.layers index := by
  refine layers_congr (lineage_push_of_lt inside) fun ancestor mem => ?_
  rw [lineage_push_of_lt inside] at mem
  exact node?_push_of_lt (lt_size_of_mem_lineage mem)

/-- A new child stands on the layers of its parent. -/
theorem layers_push_child (inside : parent < heap.size) (delta : Delta) :
    layers (heap.push (some parent) delta) heap.size = delta.content :: heap.layers
      parent := by
  rw [layers_of_child (node?_push_self _ _ _) (parent?_push_child inside delta),
    layers_push_of_lt inside]

section Calls

variable (same : left.layers first = right.layers second)

include same

/-- A delta has a counterpart with the same content. -/
theorem found_of_layers_eq (found : left.node? first = some delta) :
    ∃ other, right.node? second = some other ∧ other.content = delta.content := by
  have heads := congrArg List.head? same
  rw [head?_layers, head?_layers, found, Option.map_some, eq_comm] at heads
  exact Option.map_eq_some_iff.mp heads

/-- Equal layers are missing together. -/
theorem missing_of_layers_eq (missing : left.node? first = none) : right.node? second = none := by
  have heads := congrArg List.head? same
  rw [head?_layers, head?_layers, missing, Option.map_none, eq_comm] at heads
  exact Option.map_eq_none_iff.mp heads

/-- Equal layers are final together. -/
theorem final_of_layers_eq : left.final first = right.final second := by
  cases found : left.node? first with
  | none => rw [final, final, found, missing_of_layers_eq same found]
  | some delta =>
    obtain ⟨other, otherFound, content⟩ := found_of_layers_eq same found
    rw [final_eq found, final_eq otherFound]
    exact (congrArg Content.final content).symm

/-- Equal layers are roots together, as `root()` tells. -/
theorem root_of_layers_eq : left.root first = right.root second := by
  rw [root, root]
  cases points : left.parent? first with
  | none => rw [isRoot_of_layers_eq same points]
  | some parent =>
    obtain ⟨_, otherPoints, -⟩ := parent_of_layers_eq same points
    rw [otherPoints]
    rfl

/-- So has its backend, with the same objects. -/
theorem backend_of_layers_eq {own : Backend} (held : left.backend first = .ok own) :
    ∃ other, right.backend second = .ok other ∧ other.map = own.map := by
  obtain ⟨delta, found, stored⟩ := backend_eq_ok_iff.mp held
  obtain ⟨otherDelta, otherFound, content⟩ := found_of_layers_eq same found
  have objects := congrArg Content.objects content
  simp only [Delta.content, stored, Option.map_some] at objects
  obtain ⟨other, otherStored, sameMap⟩ := Option.map_eq_some_iff.mp objects
  exact ⟨other, backend_eq_ok_iff.mpr ⟨otherDelta, otherFound, otherStored⟩, sameMap⟩

end Calls

section

variable (same : left.layers first = right.layers second)
include same

/-- Nodes with the same layers show the same. -/
theorem get_of_layers_eq (key : Bytes) :
    left.get first key = right.get second key := by
  induction first using Nat.strong_induction_on generalizing second with
  | _ first ih =>
    cases found : left.node? first with
    | none =>
      have outside (heap : Heap) (index : Nat) (missing : heap.node? index = none) :
          heap.get index key = .error .nullDereference := by
        have notInside : ¬ index < heap.size := fun inside => by
          simpa [missing] using node?_isSome_iff.mpr inside
        rw [get, lineage_eq, if_neg notInside, getAlong]
      rw [outside left first found, outside right second (missing_of_layers_eq same found)]
    | some delta =>
      obtain ⟨other, otherFound, content⟩ := found_of_layers_eq same found
      obtain ⟨objects, removed, -⟩ := Content.mk.inj content
      rw [get_eq found, get_eq otherFound, removed]
      cases points : left.parent? first with
      | none =>
        rw [isRoot_of_layers_eq same points]
        cases held : delta.backend <;> cases otherHeld : other.backend <;>
          simp_all [Backend.get]
      | some parent =>
        obtain ⟨another, otherPoints, above⟩ := parent_of_layers_eq same points
        rw [otherPoints]
        simp only [ih parent (parent?_lt points) above]
        cases held : delta.backend <;> cases otherHeld : other.backend <;>
          simp_all [Backend.get]

/-- Equal layers find the same size in the parent. -/
theorem parentSize_of_layers_eq (key : Bytes) :
    left.parentSize first key = right.parentSize second key := by
  rw [parentSize, parentSize]
  cases points : left.parent? first with
  | none => rw [isRoot_of_layers_eq same points]
  | some parent =>
    obtain ⟨another, otherPoints, above⟩ := parent_of_layers_eq same points
    rw [otherPoints]
    simp only [get_of_layers_eq above]

/-- The same change of a delta is the same change of its layers. -/
theorem layers_update {another : Delta → Delta}
    (contents : ∀ delta other : Delta, delta.content = other.content →
      (change delta).content = (another other).content) :
    layers (left.update first change) first =
      layers (right.update second another) second := by
  cases found : left.node? first with
  | none =>
    have otherMissing := missing_of_layers_eq same found
    rw [update_eq_self fun node isNode => by simp [found] at isNode,
      update_eq_self fun node isNode => by simp [otherMissing] at isNode, same]
  | some delta =>
    obtain ⟨other, otherFound, content⟩ := found_of_layers_eq same found
    rw [layers_update_self found, layers_update_self otherFound, same,
      contents delta other content.symm]

end

section Writes

variable {mid : Heap} {size : Int} (same : left.layers first = right.layers second)

include same

/-- Equal layers take a write alike. -/
theorem put_of_layers_eq {key value : Bytes}
    (gave : (put first key value).Returns left size mid) :
    ∃ other, (put second key value).Returns right size other ∧
      mid.layers first = other.layers second := by
  obtain ⟨notFinal, parentSize, own, parentSized, held, rfl, rfl⟩ := returns_put.mp gave
  obtain ⟨other, otherHeld, sameMap⟩ := backend_of_layers_eq same held
  have sameSize : own.putSize key value = other.putSize key value := by
    rw [Backend.putSize, Backend.putSize, Backend.get, Backend.get, sameMap]
  refine ⟨_, returns_put.mpr ⟨final_of_layers_eq same ▸ notFinal, parentSize, other,
    parentSize_of_layers_eq same key ▸ parentSized, otherHeld, by rw [sameSize], rfl⟩, ?_⟩
  exact layers_update same fun delta another content => content_changeBackend _ _ content
    fun backend _ maps => by simp [Backend.put, maps]

/-- Equal layers take a removal alike. -/
theorem remove_of_layers_eq {key : Bytes} (gave : (remove first key).Returns left size mid) :
    ∃ other, (remove second key).Returns right size other ∧
      mid.layers first = other.layers second := by
  obtain ⟨notFinal, own, held, sized, rfl⟩ := returns_remove.mp gave
  obtain ⟨other, otherHeld, sameMap⟩ := backend_of_layers_eq same held
  have sameSize : own.removeSize key = other.removeSize key := by
    rw [Backend.removeSize, Backend.removeSize, Backend.get, Backend.get, sameMap]
  have otherSized : right.removeSize second key other = .ok size := by
    rw [← sized, removeSize, removeSize, sameSize, parentSize_of_layers_eq same]
  refine ⟨_, returns_remove.mpr ⟨final_of_layers_eq same ▸ notFinal, other, otherHeld, otherSized,
    rfl⟩, layers_update same fun delta another content => ?_⟩
  exact content_removeKey key size content

end Writes

/-- When `squash` through a temporary node returns. -/
theorem returns_squashTemporary {after : Heap} {result : Unit}
    (points : heap.parent? index = some parent) :
    (squashTemporary index).Returns heap result after ↔
      heap.final parent = false ∧ (squash index).Returns heap result after := by
  simp only [squashTemporary, returns_bind, returns_read, returns_expect,
    returns_ite, not_returns_fail, if_false_left, Bool.not_eq_true]
  constructor
  · rintro ⟨_, _, ⟨rfl, rfl⟩, found, _, ⟨isParent, rfl⟩, notFinal, squashed⟩
    obtain rfl := Option.some.inj (points.symm.trans isParent)
    exact ⟨notFinal, squashed⟩
  · rintro ⟨notFinal, squashed⟩
    exact ⟨heap, heap, ⟨rfl, rfl⟩, parent, heap, ⟨points, rfl⟩, notFinal, squashed⟩

/-- What squashing leaves in the parents of nodes with the same layers is the same. -/
theorem squashTemporary_of_layers_eq {mid : Heap}
    (same : left.layers first = right.layers second) (points : left.parent? first = some parent)
    (gave : (squashTemporary first).Returns left () mid) :
    ∃ another other, right.parent? second = some another ∧
      (squashTemporary second).Returns right () other ∧
      mid.layers parent = other.layers another := by
  obtain ⟨another, otherPoints, above⟩ := parent_of_layers_eq same points
  obtain ⟨notFinal, squashed⟩ := (returns_squashTemporary points).mp gave
  obtain ⟨child, own, found, held, moved⟩ := (returns_squash points).mp squashed
  obtain ⟨other, otherFound, content⟩ := found_of_layers_eq same found
  obtain ⟨objects, removed, -⟩ := Content.mk.inj content
  rw [held, Option.map_some] at objects
  obtain ⟨otherOwn, otherHeld, sameMap⟩ := Option.map_eq_some_iff.mp objects
  have otherNotFinal : right.final another = false := final_of_layers_eq above ▸ notFinal
  have squashes {after : Heap} (ended : if other.removedObjects.isEmpty && otherOwn.map.isEmpty then
      after = right
      else (∃ backend, right.backend another = .ok backend) ∧
        after = (right.update another
          (takeChild (right.root another) other.removedObjects otherOwn.map)).update second
            emptied) :
      (squashTemporary second).Returns right () after :=
    (returns_squashTemporary otherPoints).mpr ⟨otherNotFinal,
      (returns_squash otherPoints).mpr ⟨other, otherOwn, otherFound, otherHeld, ended⟩⟩
  by_cases nothing : (child.removedObjects.isEmpty && own.map.isEmpty) = true
  · rw [if_pos nothing] at moved
    subst moved
    refine ⟨another, right, otherPoints, squashes ?_, above⟩
    rw [removed, sameMap, if_pos nothing]
  · rw [if_neg nothing] at moved
    obtain ⟨⟨backend, target⟩, rfl⟩ := moved
    obtain ⟨otherBackend, otherTarget, -⟩ := backend_of_layers_eq above target
    refine ⟨another, (right.update another (takeChild (left.root parent) child.removedObjects
      own.map)).update second emptied, otherPoints, squashes ?_, ?_⟩
    · rw [removed, sameMap, if_neg nothing, root_of_layers_eq above]
      exact ⟨⟨otherBackend, otherTarget⟩, rfl⟩
    · rw [layers_update_of_lt (parent?_lt points), layers_update_of_lt (parent?_lt otherPoints)]
      exact layers_update above fun _ _ => content_takeChild _ _ _

/-- Deltas are only added, and those below the limit keep their layers. -/
structure Layered (limit : Nat) (before after : Heap) : Prop where
  size : before.size ≤ after.size
  layers : ∀ index < before.size, index < limit → after.layers index = before.layers index

/-- Deltas are only added, and no Merkle root is cached or forgotten. -/
structure SameRoots (before after : Heap) : Prop where
  size : before.size ≤ after.size
  roots : ∀ index < before.size, after.cachedRoot index = before.cachedRoot index

variable {limit : Nat}

instance : Std.Refl (Layered limit) := ⟨fun _ => ⟨Nat.le_refl _, fun _ _ _ => rfl⟩⟩

instance : IsTrans Heap (Layered limit) :=
  ⟨fun _ _ _ earlier later => ⟨Nat.le_trans earlier.size later.size, fun index inside below =>
    (later.layers index (Nat.lt_of_lt_of_le inside earlier.size) below).trans
      (earlier.layers index inside below)⟩⟩

instance : Std.Refl SameRoots := ⟨fun _ => ⟨Nat.le_refl _, fun _ _ => rfl⟩⟩

instance : IsTrans Heap SameRoots :=
  ⟨fun _ _ _ earlier later => ⟨Nat.le_trans earlier.size later.size, fun index inside =>
    (later.roots index (Nat.lt_of_lt_of_le inside earlier.size)).trans
      (earlier.roots index inside)⟩⟩

/-- Heaps that are alike have the same layers. -/
theorem Alike.layered (alike : Alike left right) : Layered limit left right :=
  ⟨Nat.le_of_eq alike.size, fun index _ _ => (alike.layers index).symm⟩

theorem layered_update {node : Nat} (heap : Heap) (change : Delta → Delta) (above : limit ≤ node) :
    Layered limit heap (heap.update node change) :=
  ⟨by simp, fun _ _ below => layers_update_of_lt (by omega) change⟩

theorem layered_push (heap : Heap) (delta : Delta) :
    Layered limit heap (heap.push pointer delta) :=
  ⟨by simp, fun _ inside _ => layers_push_of_lt inside delta⟩

/-- What creating a child relates on every exit. -/
theorem makeChild_keeps {rel : Heap → Heap → Prop} [Std.Refl rel] [IsTrans Heap rel]
    (pushes : ∀ (heap : Heap) (pointer : Option Nat) (delta : Delta),
      rel heap (heap.push pointer delta)) (index : Nat) (childId : StateNodeId) :
    (makeChild index childId).Keeps rel :=
  keeps_bind keeps_read fun _ => keeps_bind (keeps_ofExcept _) fun _ =>
    keeps_bind (keeps_modify fun heap => pushes heap _ _) fun _ => keeps_pure _

/-- Work on deltas from the limit on keeps the layers below it. -/
theorem shelters_layered : Shelters limit (Layered limit) where
  confined {writes node before after} confined above := by
    refine ⟨confined.size.ge, fun index inside below => ?_⟩
    refine layers_congr (confined.lineage index) fun ancestor mem => ?_
    rw [confined.lineage] at mem
    have older := le_of_mem_lineage mem
    exact confined.others ancestor (by omega)
  makeChild := makeChild_keeps fun heap _ delta => layered_push heap delta
  squash points above := by
    have older := parent?_lt points
    exact squashTemporary_keeps (squash_keeps points
      (fun heap _ _ => layered_update heap _ above) fun heap => layered_update heap _ (by omega))

/-- Updates that leave cached roots alone do. -/
theorem sameRoots_update (heap : Heap) (node : Nat)
    (kept : ∀ delta, (change delta).merkleRoot = delta.merkleRoot) :
    SameRoots heap (heap.update node change) := by
  refine ⟨by simp, fun index _ => ?_⟩
  rw [cachedRoot, cachedRoot, node?_update]
  split
  · cases heap.node? index with
    | none => rfl
    | some delta => exact kept delta
  · rfl

/-- Working on deltas caches no Merkle root. -/
theorem shelters_sameRoots : Shelters limit SameRoots where
  confined {writes node before after} confined _ := by
    refine ⟨confined.size.ge, fun index inside => ?_⟩
    by_cases here : index = node
    · subst here
      obtain ⟨old, oldFound⟩ := Option.isSome_iff_exists.mp (node?_isSome_iff.mpr inside)
      obtain ⟨new, newFound, kept⟩ := confined.delta old oldFound
      rw [cachedRoot, cachedRoot, newFound, oldFound]
      exact kept.merkleRoot
    · rw [cachedRoot, cachedRoot, confined.others index here]
  makeChild := makeChild_keeps fun heap _ delta => ⟨by simp, fun index inside => by
    rw [cachedRoot, cachedRoot, node?_push_of_lt inside]⟩
  squash points _ := squashTemporary_keeps (squash_keeps points
    (fun heap _ _ => sameRoots_update heap _ fun _ => rfl)
    fun heap => sameRoots_update heap _ fun _ => rfl)

/-- All deltas but one are the same. -/
def SameBut (node : Nat) (before after : Heap) : Prop :=
  ∀ index, index ≠ node → after.node? index = before.node? index

instance {node : Nat} : Std.Refl (SameBut node) := ⟨fun _ _ _ => rfl⟩

instance {node : Nat} : IsTrans Heap (SameBut node) :=
  ⟨fun _ _ _ earlier later index apart => (later index apart).trans (earlier index apart)⟩

/-- The Merkle root of what a delta holds. -/
def contentRoot (hash : Bytes → Digest) (content : Content) : Digest :=
  Crypto.merkleRoot hash
    (merkleLeafs (content.objects.getD ∅).toList content.removedObjects.toList)

/-- Deltas below the limit keep their layers and their cached Merkle roots, except that one may
have been cached that is the Merkle root of what its delta holds. -/
structure Honest (hash : Bytes → Digest) (limit : Nat) (before after : Heap) : Prop where
  layered : Layered limit before after
  roots : ∀ index < before.size, index < limit →
    after.cachedRoot index = before.cachedRoot index ∨
      ∃ content, (before.layers index).head? = some content ∧
        after.cachedRoot index = some (contentRoot hash content)

section Honest

variable {hash : Bytes → Digest}

/-- With the same roots on the same layers, roots stay honest. -/
theorem SameRoots.honest {before after : Heap} (sameRoots : SameRoots before after)
    (layered : Layered limit before after) : Honest hash limit before after :=
  ⟨layered, fun index inside _ => .inl (sameRoots.roots index inside)⟩

instance : Std.Refl (Honest hash limit) :=
  ⟨fun _ => SameRoots.honest (Std.Refl.refl _) (Std.Refl.refl _)⟩

instance : IsTrans Heap (Honest hash limit) := by
  refine ⟨fun before middle after earlier later =>
    ⟨IsTrans.trans _ _ _ earlier.layered later.layered, fun index inside below => ?_⟩⟩
  rcases later.roots index (Nat.lt_of_lt_of_le inside earlier.layered.size) below with
    same | ⟨content, top, cached⟩
  · rw [same]
    exact earlier.roots index inside below
  · rw [earlier.layered.layers index inside below] at top
    exact .inr ⟨content, top, cached⟩

/-- Work above the limit keeps cached roots honest. -/
theorem shelters_honest : Shelters limit (Honest hash limit) where
  confined confined above := SameRoots.honest (shelters_sameRoots.confined confined above)
    (shelters_layered.confined confined above)
  makeChild index childId before := SameRoots.honest
    ((shelters_sameRoots : Shelters limit SameRoots).makeChild index childId before)
    (shelters_layered.makeChild index childId before)
  squash points above := SameRoots.honest (shelters_sameRoots.squash points above)
    (shelters_layered.squash points above)

theorem honest_push {pointer : Option Nat} (heap : Heap) (delta : Delta) :
    Honest hash limit heap (heap.push pointer delta) :=
  SameRoots.honest ⟨by simp, fun index inside => by
    rw [cachedRoot, cachedRoot, node?_push_of_lt inside]⟩ (layered_push heap delta)

variable {node : Nat}

theorem honest_finalized (heap : Heap) (above : limit ≤ node) :
    Honest hash limit heap (heap.update node fun delta => { delta with final := true }) := by
  have sameRoots : SameRoots heap (heap.update node fun delta => { delta with final := true }) :=
    sameRoots_update heap node fun _ => rfl
  exact sameRoots.honest (layered_update heap _ above)

/-- Caching the root of what a node holds is honest. -/
theorem honest_cached {delta : Delta} (found : heap.node? node = some delta) :
    Honest hash limit heap (heap.update node fun delta' =>
      { delta' with merkleRoot := some (contentRoot hash delta.content) }) := by
  refine ⟨(alike_cached heap node _).layered, fun index inside below => ?_⟩
  by_cases here : index = node
  · subst here
    refine .inr ⟨delta.content, by rw [head?_layers, found, Option.map_some], ?_⟩
    rw [cachedRoot, node?_update_self, found]
    rfl
  · exact .inl (by rw [cachedRoot, cachedRoot, node?_update_of_ne here])

/-- A Merkle root that is cached is that of what the delta holds. -/
theorem merkleRoot_honest (node : Nat) : (merkleRoot hash node).Keeps (Honest hash limit) := by
  refine merkleRoot_keeps fun heap delta own held _ isOwn => ?_
  have isRoot : Crypto.merkleRoot hash
      (merkleLeafs own.map.toList delta.removedObjects.toList) =
        contentRoot hash delta.content := by
    simp only [contentRoot, Delta.content, isOwn, Option.map_some, Option.getD_some]
  rw [isRoot]
  exact honest_cached held

/-- A Merkle root that is cached for a delta is that of what it holds. -/
def HonestAt (heap : Heap) (hash : Bytes → Digest) (index : Nat) : Prop :=
  ∀ root, heap.cachedRoot index = some root → ∃ content,
    (heap.layers index).head? = some content ∧ root = contentRoot hash content

/-- Honest work keeps a cached root right. -/
theorem HonestAt.kept {before after : Heap} (honestAt : before.HonestAt hash index)
    (honest : Honest hash limit before after) (inside : index < before.size)
    (below : index < limit) : after.HonestAt hash index := by
  intro root cached
  rw [honest.layered.layers index inside below]
  rcases honest.roots index inside below with same | ⟨content, top, computed⟩
  · exact honestAt root (same.symm.trans cached)
  · exact ⟨content, top, Option.some.inj (cached.symm.trans computed)⟩

/-- A delta with an honest Merkle root answers with that of what it holds. -/
theorem merkleRoot_of_honestAt {own : Backend} (found : heap.node? index = some delta)
    (held : delta.backend = some own) (isFinal : delta.final = true)
    (honestAt : heap.HonestAt hash index) :
    ∃ after, (merkleRoot hash index).Returns heap (contentRoot hash delta.content) after := by
  refine ⟨_, (returns_merkleRoot found held).mpr ⟨isFinal, ?_, rfl⟩⟩
  cases cached : delta.merkleRoot with
  | none =>
    simp only [contentRoot, currentRoot, Delta.content, held, cached, Option.map_some,
      Option.getD_some, Option.getD_none]
  | some root =>
    obtain ⟨content, top, rfl⟩ :=
      honestAt root (by rw [cachedRoot, found, Option.bind_some, cached])
    rw [head?_layers, found, Option.map_some] at top
    obtain rfl := Option.some.inj top
    rw [currentRoot, cached, Option.getD_some]

end Honest

/-- What an empty delta holds. -/
def blankContent : Content := ⟨some ∅, ∅, false⟩

/-- Layers of which the first is final. -/
def sealTop (layers : List Content) : List Content :=
  layers.modifyHead fun content => { content with final := true }

/-- Making a node final seals its top layer. -/
theorem layers_finalize (inside : index < heap.size) :
    layers (heap.update index fun delta => { delta with final := true }) index =
      sealTop (heap.layers index) := by
  obtain ⟨delta, found⟩ := Option.isSome_iff_exists.mp (node?_isSome_iff.mpr inside)
  have start := heap.head?_layers index
  rw [found, Option.map_some, List.head?_eq_some_iff] at start
  obtain ⟨below, isBelow⟩ := start
  rw [layers_update_self found, isBelow]
  rfl

/-- The Merkle root of a node that was just made final and has none cached is that of what the
node holds, and it is cached now. -/
theorem merkleRoot_finalized {hash : Bytes → Digest} {after : Heap} {stateRoot : Digest}
    (backed : heap.Backed) (inside : index < heap.size)
    (uncached : heap.cachedRoot index = none)
    (gave : (merkleRoot hash index).Returns
      (heap.update index fun delta => { delta with final := true }) stateRoot after) :
    after.layers index = sealTop (heap.layers index) ∧
      after.cachedRoot index = some stateRoot ∧
      ∃ content, (after.layers index).head? = some content ∧
        stateRoot = contentRoot hash content := by
  have alike := merkleRoot_alike gave
  obtain ⟨delta, own, found, held, -⟩ := backend_of_backed backed inside
  have located : Forest.node? (heap.update index fun delta => { delta with final := true }) index =
      some { delta with final := true } := by
    rw [node?_update_self, show heap.node? index = some delta from found]
    rfl
  obtain ⟨-, isRoot, rfl⟩ := (returns_merkleRoot located held).mp gave
  refine ⟨?_, ?_, { delta with final := true }.content, ?_, ?_⟩
  · rw [← alike.layers]
    exact layers_finalize inside
  · rw [cachedRoot, node?_update_self, located]
    rfl
  · rw [← alike.layers, head?_layers, located]
    rfl
  · rw [cachedRoot, show heap.node? index = some delta from found, Option.bind_some] at uncached
    rw [isRoot, currentRoot, uncached, contentRoot]
    simp only [Delta.content, held]
    rfl

end Respublica.StateDb.Heap
