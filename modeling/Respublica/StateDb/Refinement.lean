import Respublica.StateDb.View

/-!
# The delta tree refines a tree of overlays

Each routine of a delta commutes with the overlay operation of the same name: the
abstraction of the heap afterwards is that operation on the abstraction before. The
laws of overlay trees then hold of `get` in every heap that calls can build.
-/

namespace Respublica.StateDb.Heap

open Foundation Effect Forest OverlayTree

section Absorb

/-- Removing a list of keys hides exactly those. -/
theorem get_foldl_remove (keys : List Bytes) (backend : Backend) (key : Bytes) :
    (keys.foldl Backend.remove backend).get key =
      if key ∈ keys then none else backend.get key := by
  induction keys generalizing backend with
  | nil => simp
  | cons first rest ih =>
    rw [List.foldl_cons, ih, Backend.get_remove]
    by_cases here : key = first <;> by_cases later : key ∈ rest <;> simp [here, later]

/-- Storing a list of objects leaves the keys outside it alone. -/
theorem get_foldl_put_of_not_mem (objects : List (Bytes × Bytes)) (backend : Backend)
    {key : Bytes} (absent : ∀ object ∈ objects, object.1 ≠ key) :
    (objects.foldl (fun target object => target.put object.1 object.2) backend).get key =
      backend.get key := by
  induction objects generalizing backend with
  | nil => rfl
  | cons first rest ih =>
    rw [List.foldl_cons, ih _ fun object mem => absent object (List.mem_cons_of_mem _ mem),
      Backend.get_put, if_neg (absent first List.mem_cons_self).symm]

/-- Storing a list of objects with distinct keys stores each of them. -/
theorem get_foldl_put_of_mem {objects : List (Bytes × Bytes)} (backend : Backend)
    (distinct : objects.Pairwise fun left right => left.1 ≠ right.1) {key value : Bytes}
    (mem : (key, value) ∈ objects) :
    (objects.foldl (fun target object => target.put object.1 object.2) backend).get key =
      some value := by
  induction objects generalizing backend with
  | nil => cases mem
  | cons first rest ih =>
    obtain ⟨firstDistinct, restDistinct⟩ := List.pairwise_cons.mp distinct
    rw [List.foldl_cons]
    rcases List.mem_cons.mp mem with rfl | later
    · rw [get_foldl_put_of_not_mem _ _ fun object within => (firstDistinct object within).symm,
        Backend.get_put, if_pos rfl]
    · exact ih _ restDistinct later

/-- The keys of a backend are distinct. -/
theorem distinct_toList (objects : Objects) :
    objects.toList.Pairwise fun left right => left.1 ≠ right.1 := by
  refine objects.distinct_keys_toList.imp ?_
  intro left right different same
  exact different (by rw [same]; exact Std.ReflCmp.compare_self)

/-- What a backend holds after taking over another delta. -/
theorem get_absorb (backend : Backend) (removed : Keys) (objects : Objects) (key : Bytes) :
    (absorb backend removed objects).get key =
      match objects[key]? with
      | some value => some value
      | none => if removed.contains key then none else backend.get key := by
  rw [absorb]
  cases stored : objects[key]? with
  | some value =>
    exact get_foldl_put_of_mem _ (distinct_toList objects)
      (Std.ExtTreeMap.mem_toList_iff_getElem?_eq_some.mpr stored)
  | none =>
    rw [get_foldl_put_of_not_mem, get_foldl_remove]
    · simp [Std.ExtTreeSet.mem_toList, Std.ExtTreeSet.contains_iff_mem]
    · rintro ⟨other, value⟩ mem rfl
      rw [Std.ExtTreeMap.mem_toList_iff_getElem?_eq_some] at mem
      rw [mem] at stored
      cases stored

/-- What was inserted is in, and what was there before. -/
theorem mem_foldl_insert (keys : List Bytes) (set : Keys) (key : Bytes) :
    key ∈ keys.foldl (fun target key => target.insert key) set ↔ key ∈ keys ∨ key ∈ set := by
  induction keys generalizing set with
  | nil => simp
  | cons first rest ih =>
    rw [List.foldl_cons, ih, Std.ExtTreeSet.mem_insert, List.mem_cons, Std.compare_eq_iff_eq]
    tauto

/-- What was erased is out. -/
theorem mem_foldl_erase (objects : List (Bytes × Bytes)) (set : Keys) (key : Bytes) :
    key ∈ objects.foldl (fun target object => target.erase object.1) set ↔
      (∀ object ∈ objects, object.1 ≠ key) ∧ key ∈ set := by
  induction objects generalizing set with
  | nil => simp
  | cons first rest ih =>
    rw [List.foldl_cons, ih, Std.ExtTreeSet.mem_erase]
    simp only [List.mem_cons, forall_eq_or_imp, ne_eq, Std.compare_eq_iff_eq]
    tauto

/-- A key counts as removed when either delta removed it and no object restores it. -/
theorem mem_absorbRemoved (own removed : Keys) (objects : Objects) (key : Bytes) :
    key ∈ absorbRemoved own removed objects ↔
      objects[key]? = none ∧ (key ∈ removed ∨ key ∈ own) := by
  rw [absorbRemoved, mem_foldl_erase, mem_foldl_insert, Std.ExtTreeSet.mem_toList]
  refine and_congr ?_ Iff.rfl
  constructor
  · intro absent
    cases stored : objects[key]? with
    | none => rfl
    | some value =>
      exact absurd rfl
        (absent (key, value) (Std.ExtTreeMap.mem_toList_iff_getElem?_eq_some.mpr stored))
  · rintro missing ⟨other, value⟩ mem rfl
    rw [Std.ExtTreeMap.mem_toList_iff_getElem?_eq_some, missing] at mem
    cases mem

end Absorb

section Commutes

variable {heap : Heap} {index : Nat} {key value : Bytes}

/-- A put overrides its key in the overlay. -/
theorem overlay_changeBackend_put {delta : Delta} (held : delta.backend.isSome)
    (parent : Option Nat) :
    (changeBackend (Backend.put · key value) delta).overlay parent =
      (delta.overlay parent).assign key (.put value) := by
  obtain ⟨backend, held⟩ := Option.isSome_iff_exists.mp held
  funext other
  by_cases same : other = key
  · subst same
    simp [Delta.overlay, changeBackend, held, Backend.get_put, Overlay.assign]
  · simp [Delta.overlay, changeBackend, held, Backend.get_put, Overlay.assign, same]

/-- Storing through a backend is storing in the overlay. -/
theorem abstraction_put (held : ∀ delta, heap.node? index = some delta → delta.backend.isSome) :
    abstraction (heap.update index (changeBackend (Backend.put · key value))) =
      OverlayTree.put heap.abstraction index key value :=
  mapNodes_update fun delta found =>
    overlay_changeBackend_put (held delta found) (heap.parent? index)

variable {after : Heap} {size : Int} {own : Backend} {parent : Nat}

/-- A `put` that returned is an update of the delta's view. -/
theorem view_of_put (gave : (put index key value).Returns heap size after) :
    after.view index = Function.update (heap.view index) key (some value) := by
  obtain ⟨-, -, own, -, backs, -, rfl⟩ := returns_put.mp gave
  obtain ⟨delta, found, held⟩ := backend_eq_ok_iff.mp backs
  have inside : index < Forest.size heap.abstraction := by
    simpa [abstraction] using lt_size_of_node? found
  have backed : ∀ node, heap.node? index = some node → node.backend.isSome := by
    intro node located
    obtain rfl : delta = node := Option.some.inj (found.symm.trans located)
    simp [held]
  rw [view, abstraction_put backed, view_put inside, view]

/-- With a non-empty key, an own object always has a size. -/
theorem removeSize_eq_zero_iff (nonempty : key ≠ []) :
    own.removeSize key = 0 ↔ own.get key = none := by
  have positive : 0 < key.length := List.length_pos_iff.mpr nonempty
  rw [Backend.removeSize]
  cases own.get key with
  | none => simp
  | some old =>
    simp only [Backend.objectSize, reduceCtorEq, iff_false]
    omega

/-- The size `remove` reports is zero exactly when there was nothing to remove: no own
object, and none below. -/
theorem removeSize_zero_iff (nonempty : key ≠ [])
    (sized : heap.removeSize index key own = .ok size) :
    size = 0 ↔ own.get key = none ∧ heap.below index key = none := by
  have positive : 0 < key.length := List.length_pos_iff.mpr nonempty
  rw [Heap.removeSize] at sized
  split at sized <;> rename_i nothing
  · rw [parentSize_eq sized, (removeSize_eq_zero_iff nonempty).mp nothing]
    cases heap.below index key with
    | none => simp
    | some old =>
      simp only [Backend.objectSize, Option.map_some, Option.getD_some, reduceCtorEq, and_false,
        iff_false]
      omega
  · cases sized
    simp [nothing, (removeSize_eq_zero_iff nonempty).not.mp nothing]

/-- Removing a key leaves the overlay as it is for others. -/
theorem overlay_removeKey_of_ne {delta : Delta} (parent : Option Nat)
    (held : delta.backend = some own) {other : Bytes} (different : other ≠ key) :
    (removeKey key size delta).overlay parent other = delta.overlay parent other := by
  have apart : ¬ key = other := fun same => different same.symm
  by_cases nothing : size = 0 <;>
    simp [Delta.overlay, removeKey, changeBackend, held, Backend.get_remove, different, nothing,
      Std.ExtTreeSet.contains_insert, apart]

/-- Removing a key is deleting it from the overlay, if it was visible at all. -/
theorem abstraction_remove {delta : Delta} (found : heap.node? index = some delta)
    (held : delta.backend = some own) (nonempty : key ≠ [])
    (sized : heap.removeSize index key own = .ok size) :
    abstraction (heap.update index (removeKey key size)) =
      OverlayTree.remove heap.abstraction index key := by
  have zero := removeSize_zero_iff nonempty sized
  have seen : OverlayTree.view heap.abstraction index key = _ := view_eq found key
  simp only [held, Option.bind_some] at seen
  rw [OverlayTree.remove]
  split
  · -- The key was visible, so it is recorded; a root counts as having recorded it.
    rename_i visible
    apply mapNodes_update
    intro node located
    obtain rfl : delta = node := Option.some.inj (found.symm.trans located)
    funext other
    by_cases same : other = key
    · subst same
      have recorded : size ≠ 0 := by
        intro nothing
        obtain ⟨missing, hidden⟩ := zero.mp nothing
        simp [seen, missing, hidden] at visible
      simp [Delta.overlay, removeKey, changeBackend, held, Backend.get_remove, recorded,
        Overlay.assign, Std.ExtTreeSet.contains_insert]
    · rw [overlay_removeKey_of_ne _ held same]
      simp [Overlay.assign, same]
  · -- The key was hidden already: at a root, behind a removal or below.
    rename_i hidden
    have absent : own.get key = none := by
      cases stored : own.get key with
      | none => rfl
      | some old => simp [seen, stored] at hidden
    have same : abstraction (heap.update index (removeKey key size)) =
        heap.abstraction.update index (fun overlay => overlay) := by
      apply mapNodes_update
      intro node located
      obtain rfl : delta = node := Option.some.inj (found.symm.trans located)
      funext other
      by_cases same : other = key
      · subst same
        by_cases removed : delta.removedObjects.contains other
        · by_cases nothing : size = 0 <;>
            simp [Delta.overlay, removeKey, changeBackend, held, Backend.get_remove, absent,
              removed, nothing, Std.ExtTreeSet.contains_insert]
        · have nothing : size = 0 :=
            zero.mpr ⟨absent, by simpa [seen, absent, removed] using hidden⟩
          simp [Delta.overlay, removeKey, changeBackend, held, Backend.get_remove, absent, nothing]
      · exact overlay_removeKey_of_ne _ held same
    rw [same, update_id]

/-- A `remove` that returned deletes its key from the delta's view. -/
theorem view_of_remove (nonempty : key ≠ [])
    (gave : (remove index key).Returns heap size after) :
    after.view index = Function.update (heap.view index) key none := by
  obtain ⟨-, own, backs, sized, rfl⟩ := returns_remove.mp gave
  obtain ⟨delta, found, held⟩ := backend_eq_ok_iff.mp backs
  have inside : index < Forest.size heap.abstraction := by
    simpa [abstraction] using lt_size_of_node? found
  rw [view, abstraction_remove found held nonempty sized, view_remove inside, view]

/-- A parent's overlay after taking a child is the merge of both. -/
theorem overlay_takeChild {child target : Delta} {parent : Option Nat} {owner : Nat}
    (held : child.backend = some own) (backed : target.backend.isSome) :
    (takeChild parent.isNone child.removedObjects own.map target).overlay parent =
      (child.overlay (some owner)).merge (target.overlay parent) := by
  obtain ⟨backend, stored⟩ := Option.isSome_iff_exists.mp backed
  funext key
  have object : own.get key = own.map[key]? := rfl
  simp only [Delta.overlay, takeChild, changeBackend, stored, held, Option.map_some,
    Option.bind_some, get_absorb, Overlay.merge, object, Option.isNone_some, Bool.false_or,
    Bool.or_eq_true]
  cases missing : own.map[key]? with
  | some value => rfl
  | none =>
    have outside : key ∉ own.map := by simpa using missing
    by_cases removed : key ∈ child.removedObjects
    · cases parent <;> simp [removed, outside, mem_absorbRemoved]
    · cases parent <;> simp [removed, outside, mem_absorbRemoved]

/-- An emptied delta overrides nothing. -/
theorem overlay_emptied {delta : Delta} (owner : Nat) :
    (emptied delta).overlay (some owner) = Overlay.blank := by
  funext key
  cases held : delta.backend <;>
    simp [Delta.overlay, emptied, changeBackend, held, Backend.get, Overlay.blank]

/-- A delta without records has a blank overlay. -/
theorem overlay_of_nothing {delta : Delta} (held : delta.backend = some own)
    (nothing : (delta.removedObjects.isEmpty && own.map.isEmpty) = true) (owner : Nat) :
    delta.overlay (some owner) = Overlay.blank := by
  obtain ⟨removed, objects⟩ := (Bool.and_eq_true _ _).mp nothing
  funext key
  simp [Delta.overlay, held, Backend.get, Overlay.blank,
    Std.ExtTreeMap.isEmpty_iff.mp objects, Std.ExtTreeSet.isEmpty_iff.mp removed]

/-- Squashing a delta moves its overlay into the parent's. -/
theorem abstraction_squash (backed : heap.Backed) (points : heap.parent? index = some parent)
    (gave : (squash index).Returns heap () after) :
    after.abstraction = OverlayTree.squash heap.abstraction index := by
  obtain ⟨child, own, found, held, moved⟩ := (returns_squash points).mp gave
  have overlay : OverlayTree.overlay heap.abstraction index = child.overlay (some parent) := by
    rw [overlay_abstraction found, points]
  have pointsAbstract : heap.abstraction.parent? index = some parent := by
    simpa [abstraction] using points
  rw [OverlayTree.squash, pointsAbstract]
  simp only
  split at moved <;> rename_i nothing
  · subst moved
    simp only [overlay, overlay_of_nothing held nothing, Overlay.blank_merge, update_id]
    rw [update_eq_self]
    intro node located
    rw [abstraction, node?_mapNodes, found, points] at located
    rw [← Option.some.inj located, overlay_of_nothing held nothing]
  · obtain ⟨-, rfl⟩ := moved
    have lower : abstraction (heap.update parent
        (takeChild (heap.root parent) child.removedObjects own.map)) =
        heap.abstraction.update parent
          fun lower => (OverlayTree.overlay heap.abstraction index).merge lower := by
      apply mapNodes_update
      intro target located
      rw [overlay, root, overlay_takeChild held (backed parent target located)]
    rw [← lower]
    apply mapNodes_update
    intro node located
    rw [parent?_update, points, overlay_emptied]

/-- A child starts with a blank overlay. -/
theorem abstraction_makeChild (inside : index < heap.size) (own : Backend)
    (childId : StateNodeId) :
    abstraction (heap.push (some index) (childOf own childId)) =
      OverlayTree.makeChild heap.abstraction index := by
  have blank : (childOf own childId).overlay (some index) = Overlay.blank := by
    funext key
    simp [Delta.overlay, childOf, Overlay.blank]
  rw [abstraction, mapNodes_push, OverlayTree.makeChild]
  simp only [Option.filter, inside, decide_true, if_true, blank]
  rfl

/-- A new child has recorded nothing. -/
theorem overlay_makeChild (inside : index < heap.size) (own : Backend) (childId : StateNodeId) :
    OverlayTree.overlay (abstraction (heap.push (some index) (childOf own childId))) heap.size =
      Overlay.blank := by
  have size : heap.size = size heap.abstraction := by simp [abstraction]
  rw [abstraction_makeChild inside, size]
  simp [OverlayTree.makeChild, OverlayTree.overlay, node?_push]

/-- A new child shows what its parent shows. -/
theorem view_makeChild (inside : index < heap.size) (own : Backend) (childId : StateNodeId) :
    view (heap.push (some index) (childOf own childId)) heap.size = heap.view index := by
  have size : heap.size = size heap.abstraction := by simp [abstraction]
  rw [view, abstraction_makeChild inside, size]
  exact view_push_self heap.abstraction (fun pointer same => by
    cases same
    exact size ▸ inside) _

/-- A squashed delta leaves its parent with what it showed itself. -/
theorem view_of_squash (backed : heap.Backed) (points : heap.parent? index = some parent)
    (gave : (squash index).Returns heap () after) :
    after.view parent = heap.view index := by
  have abstractPoints : heap.abstraction.parent? index = some parent := by
    simpa [abstraction] using points
  rw [view, abstraction_squash backed points gave,
    view_squash_parent (lt_size_of_parent? abstractPoints) abstractPoints]
  rfl

/-- A delta that was squashed on the condition that its parent is not final was squashed. -/
theorem squash_of_squashTemporary (gave : (squashTemporary index).Returns heap () after) :
    (squash index).Returns heap () after := by
  simp only [squashTemporary, returns_bind, returns_read, returns_expect]
    at gave
  obtain ⟨_, _, ⟨rfl, rfl⟩, delta, _, ⟨-, rfl⟩, gave⟩ := gave
  split at gave
  · exact (not_returns_fail gave).elim
  · exact gave

/-- Making a delta final changes no overlay. -/
theorem abstraction_finalized (heap : Heap) (index : Nat) :
    abstraction (heap.update index fun delta => { delta with final := true }) =
      heap.abstraction := by
  have same : abstraction (heap.update index fun delta => { delta with final := true }) =
      heap.abstraction.update index fun overlay => overlay :=
    mapNodes_update fun _ _ => rfl
  rw [same, update_id]

/-- A clone has the overlay and the parent of the original. -/
theorem abstraction_clone {delta : Delta} (found : heap.node? index = some delta)
    (held : delta.backend = some own) (newId : StateNodeId) :
    abstraction (heap.push (heap.parent? index)
        { delta with backend := some (copyBackend own newId delta.merkleRoot) }) =
      OverlayTree.clone heap.abstraction index := by
  have overlay : ∀ parent,
      ({ delta with backend := some (copyBackend own newId delta.merkleRoot) } : Delta).overlay
        parent = delta.overlay parent := by
    intro parent
    funext key
    simp [Delta.overlay, held, copyBackend, Backend.get]
  have kept : (heap.parent? index).filter (· < heap.size) = heap.parent? index := by
    cases points : heap.parent? index with
    | none => rfl
    | some parent =>
      have inside : parent < heap.size := Nat.lt_trans (parent?_lt points) (lt_size_of_node? found)
      simp [Option.filter, inside]
  rw [abstraction, mapNodes_push, OverlayTree.clone, kept, overlay, overlay_abstraction found]
  simp [abstraction]

end Commutes

section Backed

variable {heap : Heap}

variable {index : Nat}

/-- Updates that keep backends keep a heap backed. -/
theorem backed_update {change : Delta → Delta} (backed : heap.Backed)
    (kept : ∀ delta, delta.backend.isSome → (change delta).backend.isSome) :
    Backed (heap.update index change) := by
  intro position delta found
  rw [node?_update] at found
  split at found
  · obtain ⟨old, located, rfl⟩ := Option.map_eq_some_iff.mp found
    exact kept old (backed position old located)
  · exact backed position delta found

theorem backed_empty : Backed empty :=
  fun index delta found => by simp [node?, empty] at found

theorem backed_push {parent : Option Nat} {delta : Delta} (backed : heap.Backed)
    (held : delta.backend.isSome) : Backed (heap.push parent delta) := by
  intro position node found
  rw [node?_push] at found
  split at found
  · rwa [← Option.some.inj found]
  · exact backed position node found

/-- In a backed heap every delta is found with its backend. -/
theorem backend_of_backed (backed : heap.Backed) (inside : index < heap.size) :
    ∃ delta own, heap.node? index = some delta ∧ delta.backend = some own ∧
      heap.backend index = .ok own := by
  obtain ⟨delta, found⟩ := Option.isSome_iff_exists.mp (node?_isSome_iff.mpr inside)
  obtain ⟨own, held⟩ := Option.isSome_iff_exists.mp (backed index delta found)
  exact ⟨delta, own, found, held, backend_eq_ok_iff.mpr ⟨delta, found, held⟩⟩

/-- The size that a removal reports is known. -/
theorem removeSize_of_backed (backed : heap.Backed) (index : Nat) (key : Bytes) (own : Backend) :
    ∃ size, heap.removeSize index key own = .ok size := by
  rw [Heap.removeSize]
  split
  · exact parentSize_of_backed backed index key
  · exact ⟨_, rfl⟩

/-- A delta that is not final can be written. -/
theorem put_of_backed (backed : heap.Backed) (inside : index < heap.size)
    (notFinal : heap.final index = false) (key value : Bytes) :
    ∃ size, (put index key value).Returns heap size
      (heap.update index (changeBackend (Backend.put · key value))) := by
  obtain ⟨delta, own, found, held, backs⟩ := backend_of_backed backed inside
  obtain ⟨size, sized⟩ := parentSize_of_backed backed index key
  exact ⟨_, returns_put.mpr ⟨notFinal, size, own, sized, backs, rfl, rfl⟩⟩

/-- In a backed heap squashing returns. -/
theorem squash_of_backed {parent : Nat} (backed : heap.Backed)
    (points : heap.parent? index = some parent) :
    ∃ after, (squash index).Returns heap () after ∧ after.Backed := by
  have inside : index < heap.size := lt_size_of_parent? points
  obtain ⟨child, own, found, held, -⟩ := backend_of_backed backed inside
  obtain ⟨-, target, -, -, targetBackend⟩ :=
    backend_of_backed backed (Nat.lt_trans (parent?_lt points) inside)
  by_cases nothing : (child.removedObjects.isEmpty && own.map.isEmpty) = true
  · exact ⟨heap, (returns_squash points).mpr ⟨child, own, found, held, by rw [if_pos nothing]⟩,
      backed⟩
  · refine ⟨(heap.update parent (takeChild (heap.root parent) child.removedObjects
        own.map)).update index emptied,
      (returns_squash points).mpr ⟨child, own, found, held, ?_⟩, ?_⟩
    · rw [if_neg nothing]
      exact ⟨⟨target, targetBackend⟩, rfl⟩
    · refine backed_update (backed_update backed ?_) ?_
      · exact fun delta held => by simpa [takeChild, changeBackend] using held
      · exact fun delta held => by simpa [emptied, changeBackend] using held

end Backed

/-- One call on a delta of the tree. -/
inductive Call where
  | put (index : Nat) (key value : Bytes)
  | remove (index : Nat) (key : Bytes)
  | makeChild (index : Nat) (childId : StateNodeId)
  | clone (index : Nat) (newId : StateNodeId)
  | squash (index : Nat)
  | finalize (index : Nat)

namespace Call

/-- The routine a call runs. -/
def perform : Call → Effect Fault Heap Unit
  | .put index key value => do let _ ← Heap.put index key value
  | .remove index key => do let _ ← Heap.remove index key
  | .makeChild index childId => do let _ ← Heap.makeChild index childId
  | .clone index newId => do let _ ← Heap.clone index newId
  | .squash index => Heap.squash index
  | .finalize index => Heap.finalize index

/-- What a call means on a tree of overlays. -/
def apply (tree : OverlayTree Bytes Bytes) : Call → OverlayTree Bytes Bytes
  | .put index key value => tree.put index key value
  | .remove index key => tree.remove index key
  | .makeChild index _ => tree.makeChild index
  | .clone index _ => tree.clone index
  | .squash index => tree.squash index
  | .finalize _ => tree

/-- The deltas a call writes to. -/
def written (heap : Heap) : Call → List Nat
  | .put index _ _ => [index]
  | .remove index _ => [index]
  | .squash index => index :: (heap.parent? index).toList
  | _ => []

/-- The calls the tree is meant for: on existing deltas, writing to non-final ones only,
with non-empty keys. -/
def Admissible (heap : Heap) : Call → Prop
  | .put index key _ => index < heap.size ∧ heap.final index = false ∧ key ≠ []
  | .remove index key => index < heap.size ∧ heap.final index = false ∧ key ≠ []
  | .makeChild index _ => index < heap.size
  | .clone index _ => index < heap.size
  | .squash index => index < heap.size ∧
      ∀ parent, heap.parent? index = some parent → heap.final parent = false
  | .finalize index => index < heap.size

variable {heap : Heap} {call : Call} {other : Nat}

/-- An admissible call returns and does to the abstraction what its overlay operation does. -/
theorem perform_refines (backed : heap.Backed) (admissible : call.Admissible heap) :
    ∃ after, call.perform.Returns heap () after ∧
      after.abstraction = call.apply heap.abstraction := by
  cases call with
  | put index key value =>
    obtain ⟨inside, notFinal, -⟩ := admissible
    obtain ⟨size, gave⟩ := put_of_backed backed inside notFinal key value
    exact ⟨_, returns_bind.mpr ⟨_, _, gave, returns_pure.mpr ⟨rfl, rfl⟩⟩,
      abstraction_put fun delta found => backed index delta found⟩
  | remove index key =>
    obtain ⟨inside, notFinal, nonempty⟩ := admissible
    obtain ⟨delta, own, found, held, backs⟩ := backend_of_backed backed inside
    obtain ⟨size, sized⟩ := removeSize_of_backed backed index key own
    have gave : (Heap.remove index key).Returns heap _ _ :=
      returns_remove.mpr ⟨notFinal, own, backs, sized, rfl⟩
    exact ⟨_, returns_bind.mpr ⟨_, _, gave, returns_pure.mpr ⟨rfl, rfl⟩⟩,
      abstraction_remove found held nonempty sized⟩
  | makeChild index childId =>
    obtain ⟨delta, own, found, held, backs⟩ := backend_of_backed backed admissible
    have gave : (Heap.makeChild index childId).Returns heap _ _ :=
      returns_makeChild.mpr ⟨own, backs, rfl, rfl⟩
    exact ⟨_, returns_bind.mpr ⟨_, _, gave, returns_pure.mpr ⟨rfl, rfl⟩⟩,
      abstraction_makeChild admissible own childId⟩
  | clone index newId =>
    obtain ⟨delta, own, found, held, backs⟩ := backend_of_backed backed admissible
    have gave : (Heap.clone index newId).Returns heap _ _ :=
      returns_clone.mpr ⟨delta, own, found, held, rfl, rfl⟩
    exact ⟨_, returns_bind.mpr ⟨_, _, gave, returns_pure.mpr ⟨rfl, rfl⟩⟩,
      abstraction_clone found held newId⟩
  | squash index =>
    cases points : heap.parent? index with
    | none =>
      refine ⟨heap, (returns_squash_root points).mpr rfl, ?_⟩
      have root : heap.abstraction.parent? index = none := by simpa [abstraction] using points
      simp only [apply, OverlayTree.squash, root]
    | some parent =>
      obtain ⟨after, gave, -⟩ := squash_of_backed backed points
      exact ⟨after, gave, abstraction_squash backed points gave⟩
  | finalize index =>
    obtain ⟨delta, own, found, held, -⟩ := backend_of_backed backed admissible
    refine ⟨_, returns_finalize.mpr ⟨delta, found, rfl⟩, ?_⟩
    rw [abstraction_finalized]
    rfl

/-- Every call that returns keeps every backend in place. -/
theorem perform_backed {after : Heap} (backed : heap.Backed)
    (gave : call.perform.Returns heap () after) : after.Backed := by
  cases call with
  | put index key value =>
    obtain ⟨_, _, stores, ends⟩ := returns_bind.mp gave
    obtain ⟨-, rfl⟩ := returns_pure.mp ends
    obtain ⟨-, _, _, -, -, -, rfl⟩ := returns_put.mp stores
    exact backed_update backed fun delta held => by simpa [changeBackend] using held
  | remove index key =>
    obtain ⟨_, _, removes, ends⟩ := returns_bind.mp gave
    obtain ⟨-, rfl⟩ := returns_pure.mp ends
    obtain ⟨-, _, -, -, rfl⟩ := returns_remove.mp removes
    exact backed_update backed fun delta held => by simpa [removeKey, changeBackend] using held
  | makeChild index childId =>
    obtain ⟨_, _, makes, ends⟩ := returns_bind.mp gave
    obtain ⟨-, rfl⟩ := returns_pure.mp ends
    obtain ⟨_, -, -, rfl⟩ := returns_makeChild.mp makes
    exact backed_push backed rfl
  | clone index newId =>
    obtain ⟨_, _, clones, ends⟩ := returns_bind.mp gave
    obtain ⟨-, rfl⟩ := returns_pure.mp ends
    obtain ⟨_, _, -, -, -, rfl⟩ := returns_clone.mp clones
    exact backed_push backed rfl
  | squash index =>
    cases points : heap.parent? index with
    | none =>
      obtain rfl := (returns_squash_root points).mp gave
      exact backed
    | some parent =>
      obtain ⟨mid, squashes, kept⟩ := squash_of_backed backed points
      obtain ⟨-, rfl⟩ := squashes.unique gave
      exact kept
  | finalize index =>
    obtain ⟨_, -, rfl⟩ := returns_finalize.mp gave
    exact backed_update backed fun delta held => held

/-- The heap after a sequence of calls on an empty root that all returned. -/
inductive Made : List Call → Heap → Prop where
  | start : Made [] (createRoot empty)
  | step {calls : List Call} {call : Call} {heap after : Heap} :
      Made calls heap → call.perform.Returns heap () after → Made (calls ++ [call]) after

theorem Made.backed {calls : List Call} (made : Made calls heap) : heap.Backed := by
  induction made with
  | start => exact backed_push backed_empty rfl
  | step _ gave ih => exact perform_backed ih gave

/-- The heap and the tree after a sequence of admissible calls on an empty root. -/
inductive Built : List Call → Heap → Prop where
  | start : Built [] (createRoot empty)
  | step {calls : List Call} {call : Call} {heap after : Heap} :
      Built calls heap → call.Admissible heap → call.perform.Returns heap () after →
        Built (calls ++ [call]) after

/-- The tree of overlays that is one empty map. -/
def emptyRoot : OverlayTree Bytes Bytes := empty.push none fun _ => some .deleted

theorem Built.made {calls : List Call} (built : Built calls heap) : Made calls heap := by
  induction built with
  | start => exact .start
  | step _ _ gave ih => exact ih.step gave

/-- What was built is described by the overlay tree of its calls. -/
theorem Built.refines {calls : List Call} (built : Built calls heap) :
    heap.Backed ∧ heap.abstraction = calls.foldl apply emptyRoot := by
  induction built with
  | start =>
    constructor
    · exact backed_push backed_empty rfl
    · rw [createRoot, abstraction, mapNodes_push]
      refine congrArg₂ (push · none ·) rfl ?_
      funext key
      simp [Delta.overlay]
  | step _ admissible gave ih =>
    obtain ⟨backed, refines⟩ := ih
    obtain ⟨after, performed, commutes⟩ := perform_refines backed admissible
    obtain ⟨-, rfl⟩ := performed.unique gave
    exact ⟨perform_backed backed gave, by rw [commutes, refines, List.foldl_append]; rfl⟩

/-- Calls make no tree smaller. -/
theorem size_le_apply (tree : OverlayTree Bytes Bytes) (call : Call) :
    size tree ≤ size (call.apply tree) := by
  cases call with
  | put index key value => simp [apply, OverlayTree.put]
  | remove index key =>
    simp only [apply, OverlayTree.remove]
    split <;> simp
  | makeChild index childId => simp [apply, OverlayTree.makeChild]
  | clone index newId => simp [apply, OverlayTree.clone]
  | squash index =>
    simp only [apply, OverlayTree.squash]
    split <;> simp
  | finalize index => exact Nat.le_refl _

/-- An overlay operation is invisible to nodes that do not descend from what it writes. -/
theorem view_apply_of_not_mem (old : other < heap.size)
    (apart : ∀ index ∈ call.written heap, index ∉ heap.lineage other) :
    OverlayTree.view (call.apply heap.abstraction) other = heap.view other := by
  have oldAbstract : other < size heap.abstraction := by simpa [abstraction] using old
  cases call with
  | put index key value =>
    apply view_put_of_not_mem
    simpa [abstraction, written] using apart
  | remove index key =>
    apply view_remove_of_not_mem
    simpa [abstraction, written] using apart
  | makeChild index childId => exact OverlayTree.view_push_of_lt oldAbstract
  | clone index newId => exact OverlayTree.view_push_of_lt oldAbstract
  | squash index =>
    cases points : heap.parent? index with
    | none =>
      have root : heap.abstraction.parent? index = none := by simpa [abstraction] using points
      simp only [apply, OverlayTree.squash, root, view]
    | some parent =>
      have link : heap.abstraction.parent? index = some parent := by
        simpa [abstraction] using points
      apply view_squash_of_not_mem link
      rw [abstraction, lineage_mapNodes]
      exact apart parent (by simp [written, points])
  | finalize index => rfl

/-- The view of a delta after an admissible call, for every delta that was there. -/
theorem get_after {after : Heap} (backed : heap.Backed) (admissible : call.Admissible heap)
    (gave : call.perform.Returns heap () after) (old : other < heap.size) (key : Bytes) :
    after.get other key = .ok (OverlayTree.view (call.apply heap.abstraction) other key) := by
  obtain ⟨mid, performed, commutes⟩ := perform_refines backed admissible
  obtain ⟨-, rfl⟩ := performed.unique gave
  have still : other < mid.size := by
    have grown := size_le_apply heap.abstraction call
    rw [← commutes] at grown
    simp only [abstraction, size_mapNodes] at grown
    omega
  rw [get_of_backed (perform_backed backed gave) still, view, commutes]

/-- Every heap that calls can build refines the tree of overlays built by the same calls,
and in it each call obeys the laws of the tree: a stored value is what is read back, a
removed key is absent, a squash shows the parent what the child showed, and nothing
changes for deltas that do not descend from a delta written to. -/
theorem get_refines_overlay_tree {calls : List Call} {heap : Heap} (built : Built calls heap) :
    (∀ index < heap.size, ∀ key, heap.get index key =
      .ok (OverlayTree.view (calls.foldl apply emptyRoot) index key)) ∧
    (∀ call : Call, call.Admissible heap → ∃ after, call.perform.Returns heap () after ∧
      (∀ index key value, call = .put index key value → after.get index key = .ok (some value) ∧
          ∀ other ≠ key, after.get index other = heap.get index other) ∧
      (∀ index key, call = .remove index key → after.get index key = .ok none ∧
          ∀ other ≠ key, after.get index other = heap.get index other) ∧
      (∀ index parent, call = .squash index → heap.parent? index = some parent →
        ∀ key, after.get parent key = heap.get index key) ∧
      (∀ other < heap.size, (∀ index ∈ call.written heap, index ∉ heap.lineage other) →
        ∀ key, after.get other key = heap.get other key)) := by
  obtain ⟨backed, refines⟩ := built.refines
  have shows : ∀ index < heap.size, ∀ key, heap.get index key = .ok (heap.view index key) :=
    fun index inside key => get_of_backed backed inside key
  refine ⟨?_, ?_⟩
  · intro index inside key
    rw [shows index inside key, view, refines]
  · intro call admissible
    obtain ⟨after, gave, -⟩ := perform_refines backed admissible
    have reads := fun {other : Nat} (old : other < heap.size) key =>
      get_after backed admissible gave old key
    have inAbstract : ∀ {index : Nat}, index < heap.size → index < size heap.abstraction :=
      fun inside => by simpa [abstraction] using inside
    refine ⟨after, gave, ?_, ?_, ?_, ?_⟩
    · rintro index key value rfl
      obtain ⟨inside, -, -⟩ := admissible
      have law := view_put (inAbstract inside) key value
      refine ⟨?_, ?_⟩
      · rw [reads inside, apply, law, Function.update_self]
      · intro other different
        rw [reads inside, apply, law, Function.update_of_ne different, shows index inside, view]
    · rintro index key rfl
      obtain ⟨inside, -, -⟩ := admissible
      have law := view_remove (inAbstract inside) key
      refine ⟨?_, ?_⟩
      · rw [reads inside, apply, law, Function.update_self]
      · intro other different
        rw [reads inside, apply, law, Function.update_of_ne different, shows index inside, view]
    · rintro index parent rfl points key
      obtain ⟨inside, -⟩ := admissible
      have parentInside : parent < heap.size := Nat.lt_trans (parent?_lt points) inside
      have link : heap.abstraction.parent? index = some parent := by
        simpa [abstraction] using points
      rw [reads parentInside, apply, OverlayTree.view_squash_parent (inAbstract inside) link,
        shows index inside, view]
    · intro other old apart key
      rw [reads old, view_apply_of_not_mem old apart, shows other old]

/-- A root holds a value, its child removes the value, and the child is squashed. -/
theorem get_refines_overlay_tree_at_squashed_removal :
    ∃ heap, Built [.put 0 [1] [7], .makeChild 0 nullId, .remove 1 [1], .squash 1] heap ∧
      heap.get 0 [1] = .ok none := by
  have stored : Built [.put 0 [1] [7]] _ := .step .start ⟨by decide, rfl, by decide⟩ rfl
  have child : Built [.put 0 [1] [7], .makeChild 0 nullId] _ :=
    .step stored (show 0 < _ by decide) rfl
  have removed : Built [.put 0 [1] [7], .makeChild 0 nullId, .remove 1 [1]] _ :=
    .step child ⟨by decide, rfl, by decide⟩ rfl
  have squashed :
      Built [.put 0 [1] [7], .makeChild 0 nullId, .remove 1 [1], .squash 1] _ :=
    .step removed ⟨by decide, fun parent points => by cases points; rfl⟩ rfl
  refine ⟨_, squashed, ?_⟩
  rw [(get_refines_overlay_tree squashed).1 0 (by decide)]
  decide

end Call

end Respublica.StateDb.Heap
