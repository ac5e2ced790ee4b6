import Respublica.Foundation.Simulation
import Respublica.StateDb.View

/-!
# Heaps with the same contents

What reads and writes of objects depend on: the objects and removals of the deltas and which
deltas are final, but neither the ids and revisions of nodes nor cached Merkle roots. Heaps
that agree in this answer every read alike, and stay so under the same writes.
-/

namespace Respublica.StateDb

open Foundation Effect Crypto Forest

/-- What a delta holds, apart from the fields that describe it. -/
structure Content where
  objects : Option Objects
  removedObjects : Keys
  final : Bool

def Delta.content (delta : Delta) : Content :=
  ⟨delta.backend.map Backend.map, delta.removedObjects, delta.final⟩

/-- Content is objects, removals and the flag. -/
theorem content_of_parts {delta other : Delta}
    (objects : delta.backend.map Backend.map = other.backend.map Backend.map)
    (removed : delta.removedObjects = other.removedObjects) (final : delta.final = other.final) :
    delta.content = other.content := by
  rw [Delta.content, Delta.content, objects, removed, final]

namespace Heap

/-- The contents of all deltas. -/
def contents (heap : Heap) : Forest Content := heap.mapNodes fun _ delta => delta.content

/-- Two heaps have the same contents. -/
def Alike (left right : Heap) : Prop := left.contents = right.contents

theorem Alike.refl (heap : Heap) : Alike heap heap := rfl

namespace Alike

variable {left right : Heap}

theorem symm (alike : Alike left right) : Alike right left := Eq.symm alike

theorem trans {third : Heap} (first : Alike left right) (second : Alike right third) :
    Alike left third := Eq.trans first second

theorem size (alike : Alike left right) : left.size = right.size := by
  have same := congrArg Forest.size alike
  simpa [contents] using same

theorem parents (alike : Alike left right) (index : Nat) :
    left.parent? index = right.parent? index := by
  have same := congrArg (Forest.parent? · index) alike
  simpa [contents] using same

/-- Heaps that are alike have the same contents. -/
theorem nodes (alike : Alike left right) (index : Nat) :
    (left.node? index).map Delta.content = (right.node? index).map Delta.content := by
  have same := congrArg (Forest.node? · index) alike
  simpa [contents] using same

theorem lineage (alike : Alike left right) (index : Nat) :
    left.lineage index = right.lineage index := by
  have same := congrArg (Forest.lineage · index) alike
  simpa [contents] using same

theorem root (alike : Alike left right) (index : Nat) : left.root index = right.root index := by
  rw [Heap.root, Heap.root, alike.parents]

theorem final (alike : Alike left right) (index : Nat) : left.final index = right.final index := by
  have same := congrArg (Option.map Content.final) (alike.nodes index)
  simp only [Option.map_map] at same
  exact congrArg (Option.getD · false) same

/-- A delta of one heap has its counterpart in the other. -/
theorem found (alike : Alike left right) {index : Nat} {delta : Delta}
    (found : left.node? index = some delta) :
    ∃ other, right.node? index = some other ∧ other.content = delta.content := by
  have same := alike.nodes index
  rw [found, Option.map_some, eq_comm] at same
  exact Option.map_eq_some_iff.mp same

/-- So has its backend, with the same objects. -/
theorem backend (alike : Alike left right) {index : Nat} {own : Backend}
    (held : left.backend index = .ok own) :
    ∃ other, right.backend index = .ok other ∧ other.map = own.map := by
  obtain ⟨delta, found, stored⟩ := backend_eq_ok_iff.mp held
  obtain ⟨otherDelta, otherFound, same⟩ := alike.found found
  have objects := congrArg Content.objects same
  simp only [Delta.content, stored, Option.map_some] at objects
  obtain ⟨other, otherStored, sameMap⟩ := Option.map_eq_some_iff.mp objects
  exact ⟨other, backend_eq_ok_iff.mpr ⟨otherDelta, otherFound, otherStored⟩, sameMap⟩

/-- Heaps that are alike show the same along a path. -/
theorem getAlong (alike : Alike left right) (key : Bytes) (path : List Nat) :
    left.getAlong key path = right.getAlong key path := by
  induction path with
  | nil => rfl
  | cons index ancestors ih =>
    rw [Heap.getAlong, Heap.getAlong, ih, alike.root]
    cases leftFound : left.node? index with
    | none =>
      have missing := alike.nodes index
      rw [leftFound, Option.map_none, eq_comm, Option.map_eq_none_iff] at missing
      rw [missing]
    | some delta =>
      obtain ⟨other, rightFound, same⟩ := alike.found leftFound
      obtain ⟨objects, removed, -⟩ := Content.mk.inj same
      rw [rightFound]
      simp only [removed]
      cases leftHeld : delta.backend <;> cases rightHeld : other.backend <;>
        simp_all [Backend.get]

/-- Reads answer alike. -/
theorem get (alike : Alike left right) (index : Nat) (key : Bytes) :
    left.get index key = right.get index key := by
  rw [Heap.get, Heap.get, alike.lineage, alike.getAlong]

theorem parentSize (alike : Alike left right) (index : Nat) (key : Bytes) :
    left.parentSize index key = right.parentSize index key := by
  rw [Heap.parentSize, Heap.parentSize, alike.parents]
  cases right.parent? index with
  | none => rfl
  | some parent => simp only [alike.get]

/-- The same change of contents keeps heaps alike. -/
theorem update (alike : Alike left right) (index : Nat) {first second : Delta → Delta}
    (same : ∀ delta other, delta.content = other.content →
      (first delta).content = (second other).content) :
    Alike (left.update index first) (right.update index second) := by
  refine ext_node? (fun position => ?_) fun position => ?_
  · simpa [contents] using alike.parents position
  · have before := alike.nodes position
    simp only [contents, node?_mapNodes, node?_update]
    by_cases here : index = position
    · subst here
      rw [if_pos rfl, if_pos rfl]
      cases leftFound : left.node? index with
      | none =>
        rw [leftFound, Option.map_none, eq_comm, Option.map_eq_none_iff] at before
        rw [before]
        rfl
      | some delta =>
        obtain ⟨other, rightFound, sameContent⟩ := alike.found leftFound
        rw [rightFound]
        exact congrArg some (same delta other sameContent.symm)
    · rwa [if_neg here, if_neg here]

/-- New deltas with the same contents keep heaps alike. -/
theorem push (alike : Alike left right) (parent : Option Nat) {delta other : Delta}
    (same : delta.content = other.content) :
    Alike (left.push parent delta) (right.push parent other) := by
  rw [Alike, contents, contents, mapNodes_push, mapNodes_push, same]
  exact congrArg (Forest.push · parent other.content) alike

end Alike

/-- What a backend becomes by taking over another delta depends on its objects only. -/
theorem map_absorb {backend other : Backend} (same : backend.map = other.map) (removed : Keys)
    (objects : Objects) :
    (absorb backend removed objects).map = (absorb other removed objects).map := by
  have puts (list : List (Bytes × Bytes)) (first second : Backend)
      (start : first.map = second.map) :
      (list.foldl (fun target object => target.put object.1 object.2) first).map =
        (list.foldl (fun target object => target.put object.1 object.2) second).map := by
    induction list generalizing first second with
    | nil => exact start
    | cons object rest ih => exact ih _ _ (by simp [Backend.put, start])
  have removes (list : List Bytes) (first second : Backend) (start : first.map = second.map) :
      (list.foldl Backend.remove first).map = (list.foldl Backend.remove second).map := by
    induction list generalizing first second with
    | nil => exact start
    | cons key rest ih => exact ih _ _ (by simp [Backend.remove, start])
  exact puts _ _ _ (removes _ _ _ same)

/-- Changing backends by what they hold changes contents alike. -/
theorem content_changeBackend {delta other : Delta} (first second : Backend → Backend)
    (same : delta.content = other.content)
    (maps : ∀ backend another : Backend, backend.map = another.map →
      (first backend).map = (second another).map) :
    (changeBackend first delta).content = (changeBackend second other).content := by
  obtain ⟨objects, removed, final⟩ := Content.mk.inj same
  simp only [changeBackend, Delta.content, removed, final, Content.mk.injEq, and_true]
  cases leftHeld : delta.backend with
  | none =>
    rw [leftHeld, Option.map_none, eq_comm, Option.map_eq_none_iff] at objects
    rw [objects]
    rfl
  | some backend =>
    rw [leftHeld, Option.map_some, eq_comm] at objects
    obtain ⟨another, rightHeld, sameMap⟩ := Option.map_eq_some_iff.mp objects
    rw [rightHeld]
    exact congrArg some (maps backend another sameMap.symm)

/-- What a child hands down depends on contents alone. -/
theorem content_takeChild {delta other : Delta} (isRoot : Bool) (removed : Keys) (objects : Objects)
    (same : delta.content = other.content) :
    (takeChild isRoot removed objects delta).content =
      (takeChild isRoot removed objects other).content := by
  have changed := content_changeBackend (absorb · removed objects) (absorb · removed objects) same
    fun _ _ maps => map_absorb maps removed objects
  obtain ⟨changedObjects, -, -⟩ := Content.mk.inj changed
  obtain ⟨-, sameRemoved, final⟩ := Content.mk.inj same
  exact content_of_parts changedObjects (by simp only [takeChild, sameRemoved]) final

/-- Emptying depends on contents alone. -/
theorem content_emptied {delta other : Delta} (same : delta.content = other.content) :
    (emptied delta).content = (emptied other).content := by
  have changed := content_changeBackend (fun backend => { backend with map := ∅ })
    (fun backend => { backend with map := ∅ }) same fun _ _ _ => rfl
  obtain ⟨changedObjects, -, -⟩ := Content.mk.inj changed
  obtain ⟨-, -, final⟩ := Content.mk.inj same
  exact content_of_parts changedObjects rfl final

/-- Writes go on alike in heaps that are alike. -/
theorem put_simulates (index : Nat) (key value : Bytes) :
    Effect.Simulates Alike (put index key value) (put index key value) := by
  intro left right size mid alike gave
  obtain ⟨notFinal, parentSize, own, parentSized, held, rfl, rfl⟩ := returns_put.mp gave
  obtain ⟨other, otherHeld, sameMap⟩ := alike.backend held
  have sameSize : own.putSize key value = other.putSize key value := by
    rw [Backend.putSize, Backend.putSize, Backend.get, Backend.get, sameMap]
  refine ⟨_, returns_put.mpr ⟨alike.final index ▸ notFinal, parentSize, other,
    alike.parentSize index key ▸ parentSized, otherHeld, by rw [sameSize], rfl⟩, ?_⟩
  exact alike.update index fun delta another same => content_changeBackend _ _ same
    fun backend _ maps => by simp [Backend.put, maps]

/-- Deltas that hold the same do so after a key is marked as removed. -/
theorem content_removeKey (key : Bytes) (size : Int) {delta other : Delta}
    (same : delta.content = other.content) :
    (removeKey key size delta).content = (removeKey key size other).content := by
  have changed := content_changeBackend (Backend.remove · key) (Backend.remove · key) same
    fun backend _ maps => by simp [Backend.remove, maps]
  obtain ⟨objects, -, -⟩ := Content.mk.inj changed
  obtain ⟨-, removed, final⟩ := Content.mk.inj same
  exact content_of_parts objects (by simp only [removeKey, removed]) final

/-- Removals go on alike. -/
theorem remove_simulates (index : Nat) (key : Bytes) :
    Effect.Simulates Alike (remove index key) (remove index key) := by
  intro left right size mid alike gave
  obtain ⟨notFinal, own, held, sized, rfl⟩ := returns_remove.mp gave
  obtain ⟨other, otherHeld, sameMap⟩ := alike.backend held
  have sameSize : own.removeSize key = other.removeSize key := by
    rw [Backend.removeSize, Backend.removeSize, Backend.get, Backend.get, sameMap]
  have otherSized : right.removeSize index key other = .ok size := by
    rw [← sized, removeSize, removeSize, sameSize, alike.parentSize]
  refine ⟨_, returns_remove.mpr ⟨alike.final index ▸ notFinal, other, otherHeld, otherSized, rfl⟩,
    ?_⟩
  exact alike.update index fun delta another same => content_removeKey key size same

/-- Children may have different ids. -/
theorem makeChild_simulates (index : Nat) (firstId secondId : StateNodeId) :
    Effect.Simulates Alike (makeChild index firstId) (makeChild index secondId) := by
  intro left right created mid alike gave
  obtain ⟨own, held, rfl, rfl⟩ := returns_makeChild.mp gave
  obtain ⟨other, otherHeld, -⟩ := alike.backend held
  exact ⟨_, returns_makeChild.mpr ⟨other, otherHeld, alike.size, rfl⟩, alike.push _ rfl⟩

/-- Children are squashed alike. -/
theorem squash_simulates (index : Nat) :
    Effect.Simulates Alike (squash index) (squash index) := by
  intro left right result mid alike gave
  cases points : left.parent? index with
  | none =>
    obtain rfl := (returns_squash_root points).mp gave
    exact ⟨right, (returns_squash_root (alike.parents index ▸ points)).mpr rfl, alike⟩
  | some parent =>
    obtain ⟨child, own, found, held, moved⟩ := (returns_squash points).mp gave
    obtain ⟨other, otherFound, same⟩ := alike.found found
    obtain ⟨objects, removed, -⟩ := Content.mk.inj same
    rw [held, Option.map_some] at objects
    obtain ⟨otherOwn, otherHeld, sameMap⟩ := Option.map_eq_some_iff.mp objects
    have otherPoints : right.parent? index = some parent := alike.parents index ▸ points
    by_cases nothing : (child.removedObjects.isEmpty && own.map.isEmpty) = true
    · rw [if_pos nothing] at moved
      subst moved
      refine ⟨right, (returns_squash otherPoints).mpr ⟨other, otherOwn, otherFound, otherHeld,
        ?_⟩, alike⟩
      rw [removed, sameMap, if_pos nothing]
    · rw [if_neg nothing] at moved
      obtain ⟨⟨backend, target⟩, rfl⟩ := moved
      obtain ⟨otherBackend, otherTarget, -⟩ := alike.backend target
      refine ⟨(right.update parent
        (takeChild (left.root parent) child.removedObjects own.map)).update
        index emptied, (returns_squash otherPoints).mpr ⟨other, otherOwn, otherFound, otherHeld,
          ?_⟩,
        ?_⟩
      · rw [removed, sameMap, if_neg nothing, alike.root]
        exact ⟨⟨otherBackend, otherTarget⟩, rfl⟩
      · exact (alike.update parent fun _ _ => content_takeChild _ _ _).update index
          fun _ _ => content_emptied

/-- Temporary nodes are squashed alike. -/
theorem squashTemporary_simulates (index : Nat) :
    Effect.Simulates Alike (squashTemporary index) (squashTemporary index) := by
  refine simulates_read fun left right alike => ?_
  rw [alike.parents]
  refine simulates_bind (simulates_expect _ _) fun parent => ?_
  rw [alike.final]
  exact simulates_ite (simulates_fail _ _) (squash_simulates index)

/-- What is cached is no content. -/
theorem alike_cached (heap : Heap) (index : Nat) (cached : Option Digest) :
    Alike heap (heap.update index fun delta => { delta with merkleRoot := cached }) := by
  have kept : Alike (heap.update index fun delta => delta)
      (heap.update index fun delta => { delta with merkleRoot := cached }) :=
    (Alike.refl heap).update index fun _ _ same => same
  rwa [update_id] at kept

/-- Caching a Merkle root does not change contents. -/
theorem merkleRoot_alike {hash : Bytes → Digest} {index : Nat} {heap after : Heap} {root : Digest}
    (gave : (merkleRoot hash index).Returns heap root after) : Alike heap after := by
  obtain ⟨node, heap, read, rest⟩ := returns_bind.mp gave
  obtain ⟨-, rfl⟩ := returns_delta.mp read
  split at rest
  · exact (not_returns_fail rest).elim
  · split at rest
    · obtain ⟨-, rfl⟩ := returns_pure.mp rest
      exact .refl _
    · obtain ⟨own, heap, held, written⟩ := returns_bind.mp rest
      obtain ⟨-, rfl⟩ := returns_expect.mp held
      obtain ⟨_, _, cached, ended⟩ := returns_bind.mp written
      obtain rfl := returns_modify.mp cached
      obtain ⟨-, rfl⟩ := returns_pure.mp ended
      exact alike_cached heap index _

end Heap

end Respublica.StateDb
