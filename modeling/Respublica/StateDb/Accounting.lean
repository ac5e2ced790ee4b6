import Mathlib.Algebra.BigOperators.Finprod
import Respublica.StateDb.Refinement

/-!
# Storage accounting

`put` and `remove` report a signed size that is charged as disk storage. The measure
it should track is `storage`: the bytes of all keys and values a delta shows. Every
delta shows finitely many objects, so the measure is a finite sum and one write changes
it by the size of the new object less the size of the one shown before.

The reported size subtracts the parent's object even when the delta already overrides
or hides it. The theorem at the end says exactly when that is wrong.
-/

namespace Respublica.StateDb.Heap

open Foundation Forest

/-- Changing a finitely supported function at one point moves its sum by the change. -/
theorem finsum_update_sub {Index : Type} [DecidableEq Index] {measure : Index → Int}
    (finite : measure.support.Finite) (index : Index) (value : Int) :
    (∑ᶠ other, Function.update measure index value other) - ∑ᶠ other, measure other =
      value - measure index := by
  let carrier := insert index finite.toFinset
  have within : measure.support ⊆ carrier := by
    intro other mem
    simp [carrier, Function.mem_support.mp mem]
  have updatedWithin : (Function.update measure index value).support ⊆ carrier := by
    intro other mem
    by_cases same : other = index
    · simp [carrier, same]
    · rw [Function.mem_support, Function.update_of_ne same] at mem
      exact within mem
  have here : index ∈ carrier := Finset.mem_insert_self _ _
  rw [finsum_eq_sum_of_support_subset _ within, finsum_eq_sum_of_support_subset _ updatedWithin,
    Finset.sum_update_of_mem here, ← Finset.sum_sdiff (Finset.singleton_subset_iff.mpr here)]
  simp only [Finset.sum_singleton]
  ring

/-- The bytes of an object that may be absent. -/
def shownSize (key : Bytes) (shown : Option Bytes) : Int :=
  (shown.map (Backend.objectSize key)).getD 0

/-- The bytes of all keys and values a delta shows. -/
noncomputable def storage (heap : Heap) (index : Nat) : Int :=
  ∑ᶠ key, shownSize key (heap.view index key)

/-- The keys that a delta and those below it store. -/
def storedKeys (heap : Heap) (index : Nat) : List Bytes :=
  (Forest.lineage heap index).flatMap fun other =>
    ((heap.node? other).bind Delta.backend).elim [] fun backend => backend.map.keys

variable {heap after : Heap} {index : Nat} {key : Bytes} {own : Backend} {size : Int}

/-- Whatever is shown is stored somewhere on the chain. -/
theorem mem_storedKeys (shown : heap.view index key ≠ none) : key ∈ heap.storedKeys index := by
  induction index using Nat.strong_induction_on with
  | _ index ih =>
    cases found : heap.node? index with
    | none =>
      have outside : ¬ index < heap.size := by simp [← node?_isSome_iff, found]
      refine absurd ?_ shown
      rw [view, OverlayTree.view, abstraction, lineage_mapNodes, lineage_eq, if_neg outside]
      rfl
    | some delta =>
      rw [storedKeys, lineage_eq, if_pos (lt_size_of_node? found),
        List.flatMap_cons, found, List.mem_append]
      rw [view_eq found] at shown
      cases stored : delta.backend.bind (Backend.get · key) with
      | some value =>
        refine .inl ?_
        obtain ⟨backend, held, present⟩ := Option.bind_eq_some_iff.mp stored
        simp only [Option.bind_some, held, Option.elim_some, Std.ExtTreeMap.mem_keys]
        rw [Std.ExtTreeMap.mem_iff_isSome_getElem?]
        exact Option.isSome_of_eq_some present
      | none =>
        rw [stored] at shown
        have under : heap.below index key ≠ none := fun hidden => shown (by simp [hidden])
        cases points : heap.parent? index with
        | none => exact absurd (by simp [below, points]) under
        | some parent =>
          rw [below, points] at under
          exact .inr (ih parent (parent?_lt points) under)

/-- Whatever the heap, a delta shows finitely many objects. -/
theorem finite_view (heap : Heap) (index : Nat) : {key | heap.view index key ≠ none}.Finite :=
  (heap.storedKeys index).finite_toSet.subset fun _ => mem_storedKeys

/-- The storage is a sum over the keys that are stored somewhere. -/
theorem storage_eq_sum (heap : Heap) (index : Nat) :
    heap.storage index =
      ((heap.storedKeys index).dedup.map fun key => shownSize key (heap.view index key)).sum := by
  have within : (fun key => shownSize key (heap.view index key)).support ⊆
      (heap.storedKeys index).dedup.toFinset := by
    intro key mem
    have shown : heap.view index key ≠ none := by
      intro hidden
      rw [Function.mem_support, hidden] at mem
      exact mem rfl
    simpa using mem_storedKeys shown
  rw [storage, finsum_eq_sum_of_support_subset _ within, List.sum_toFinset _ (List.nodup_dedup _)]

/-- One write moves the storage by the new size less the size shown before. -/
theorem storage_sub {shown : Option Bytes}
    (changed : after.view index = Function.update (heap.view index) key shown) :
    after.storage index - heap.storage index =
      shownSize key shown - shownSize key (heap.view index key) := by
  have finite : (fun key => shownSize key (heap.view index key)).support.Finite := by
    refine (finite_view heap index).subset ?_
    intro other mem hidden
    rw [Function.mem_support, hidden] at mem
    exact mem rfl
  rw [← finsum_update_sub finite key (shownSize key shown), storage, storage, changed]
  congr 2
  funext other
  by_cases same : other = key
  · subst same
    simp
  · simp [Function.update_of_ne same]

/-- The value a delta itself stores for a key. -/
def ownValue (heap : Heap) (index : Nat) (key : Bytes) : Option Bytes :=
  ((heap.node? index).bind Delta.backend).bind (Backend.get · key)

/-- `removed( key )`: the delta has recorded the removal of a key. -/
def removed (heap : Heap) (index : Nat) (key : Bytes) : Bool :=
  (heap.node? index).any fun delta => delta.removedObjects.contains key

/-- The view of a delta in terms of its own records and what lies below. -/
theorem view_eq_own (held : heap.backend index = .ok own) (key : Bytes) :
    heap.ownValue index key = own.get key ∧
      heap.view index key =
        match own.get key with
        | some value => some value
        | none => if heap.removed index key then none else heap.below index key := by
  obtain ⟨delta, found, stored⟩ := backend_eq_ok_iff.mp held
  refine ⟨by simp [ownValue, found, stored], ?_⟩
  rw [view_eq found, stored, Option.bind_some]
  cases own.get key with
  | some value => rfl
  | none => simp [removed, found]

/-- A visible object is stored by the delta itself or shown by its parent. -/
theorem own_or_below (held : heap.backend index = .ok own) {old : Bytes}
    (visible : heap.view index key = some old) :
    heap.ownValue index key = some old ∨
      heap.ownValue index key = none ∧ heap.below index key = some old := by
  obtain ⟨ownValue, shown⟩ := view_eq_own held key
  rw [ownValue]
  rw [shown] at visible
  cases stored : own.get key with
  | some value =>
    rw [stored] at visible
    exact .inl visible
  | none =>
    simp only [stored] at visible
    split at visible
    · cases visible
    · exact .inr ⟨rfl, visible⟩

/-- The size `put` reports is the change of storage exactly when the parent does not show
the key or the delta has no record of its own for it. -/
theorem put_exact_iff {value : Bytes} (nonempty : key ≠ [])
    (gave : (put index key value).Returns heap size after) :
    size = after.storage index - heap.storage index ↔
      heap.below index key = none ∨
        heap.ownValue index key = none ∧ heap.removed index key = false := by
  have positive : 0 < key.length := List.length_pos_iff.mpr nonempty
  rw [storage_sub (view_of_put gave)]
  obtain ⟨-, parentSize, own, sized, held, rfl, -⟩ := returns_put.mp gave
  obtain ⟨ownValue, shown⟩ := view_eq_own held key
  rw [shown, ownValue, parentSize_eq sized, Backend.putSize]
  cases own.get key <;> cases heap.below index key <;> cases heap.removed index key <;>
    simp [shownSize, Backend.objectSize] <;> omega

/-- The size `remove` reports is the change of storage exactly when the delta does not hide
an object of the parent already. -/
theorem remove_exact_iff (nonempty : key ≠ [])
    (gave : (remove index key).Returns heap size after) :
    size = after.storage index - heap.storage index ↔
      heap.below index key = none ∨ heap.ownValue index key ≠ none ∨
        heap.removed index key = false := by
  have positive : 0 < key.length := List.length_pos_iff.mpr nonempty
  rw [storage_sub (view_of_remove nonempty gave)]
  obtain ⟨-, own, held, sized, -⟩ := returns_remove.mp gave
  obtain ⟨ownValue, shown⟩ := view_eq_own held key
  rw [Heap.removeSize] at sized
  rw [shown, ownValue]
  split at sized <;> rename_i nothing
  · rw [parentSize_eq sized, (removeSize_eq_zero_iff nonempty).mp nothing]
    cases heap.below index key <;> cases heap.removed index key <;>
      simp [shownSize, Backend.objectSize]
    omega
  · cases sized
    have stored := (removeSize_eq_zero_iff nonempty).not.mp nothing
    obtain ⟨old, stored⟩ := Option.ne_none_iff_exists'.mp stored
    simp [Backend.removeSize, stored, shownSize]

/-- In every tree that calls can build, the sizes that writing to a non-final delta reports
are the changes of its storage exactly when, for `put`, the parent does not show the key or
the delta has neither stored nor removed it and, for `remove`, the delta does not already
hide an object of the parent. -/
theorem storage_accounting_iff {calls : List Call} {heap : Heap} (made : Call.Made calls heap)
    {index : Nat} (inside : index < heap.size) (open_ : heap.final index = false) {key : Bytes}
    (nonempty : key ≠ []) :
    (∀ value, ∃ size after, (put index key value).Returns heap size after ∧
      (size = after.storage index - heap.storage index ↔ heap.below index key = none ∨
          heap.ownValue index key = none ∧ heap.removed index key = false)) ∧
    ∃ size after, (remove index key).Returns heap size after ∧
      (size = after.storage index - heap.storage index ↔
        heap.below index key = none ∨ heap.ownValue index key ≠ none ∨
          heap.removed index key = false) := by
  have backed := made.backed
  obtain ⟨delta, own, found, held, backs⟩ := backend_of_backed backed inside
  refine ⟨fun value => ?_, ?_⟩
  · obtain ⟨parentSize, sized⟩ := parentSize_of_backed backed index key
    have gave : (put index key value).Returns heap _ _ :=
      returns_put.mpr ⟨open_, parentSize, own, sized, backs, rfl, rfl⟩
    exact ⟨_, _, gave, put_exact_iff nonempty gave⟩
  · obtain ⟨size, sized⟩ := removeSize_of_backed backed index key own
    have gave : (remove index key).Returns heap _ _ :=
      returns_remove.mpr ⟨open_, own, backs, sized, rfl⟩
    exact ⟨_, _, gave, remove_exact_iff nonempty gave⟩

/-- A child that has stored a key its root also holds. -/
theorem built_overriding_child :
    ∃ heap, Call.Built [.put 0 [1] [7], .makeChild 0 nullId, .put 1 [1] [8]] heap ∧
      heap.size = 2 ∧ heap.final 1 = false ∧ heap.below 1 [1] = some [7] ∧
      heap.ownValue 1 [1] = some [8] ∧ (put 1 [1] [9] heap).1 = .ok (-2) := by
  have stored : Call.Built [.put 0 [1] [7]] _ := .step .start ⟨by decide, rfl, by decide⟩ rfl
  have child : Call.Built [.put 0 [1] [7], .makeChild 0 nullId] _ :=
    .step stored (show 0 < _ by decide) rfl
  have overridden : Call.Built [.put 0 [1] [7], .makeChild 0 nullId, .put 1 [1] [8]] _ :=
    .step child ⟨by decide, rfl, by decide⟩ rfl
  exact ⟨_, overridden, rfl, rfl, by decide, by decide, rfl⟩

/-- Removing the key from that child reports the exact change. -/
theorem storage_accounting_iff_in_overriding_child :
    ∃ heap, Call.Built [.put 0 [1] [7], .makeChild 0 nullId, .put 1 [1] [8]] heap ∧
      ∃ size after, (remove 1 [1]).Returns heap size after ∧
        size = after.storage 1 - heap.storage 1 := by
  obtain ⟨heap, built, size, notFinal, below, own, -⟩ := built_overriding_child
  obtain ⟨removal, after, gave, exact⟩ :=
    (storage_accounting_iff built.made (by omega) notFinal (List.cons_ne_nil 1 [])).2
  refine ⟨heap, built, removal, after, gave, exact.mpr (.inr (.inl ?_))⟩
  rw [own]
  exact Option.some_ne_none _

/-- Overwriting the value `[8]` by `[9]` changes no size, but reports two bytes less: the
parent's object is subtracted a second time. -/
theorem put_again_reports_parent_twice :
    ∃ heap, Call.Built [.put 0 [1] [7], .makeChild 0 nullId, .put 1 [1] [8]] heap ∧
      ∃ after, (put 1 [1] [9]).Returns heap (-2) after ∧
        after.storage 1 - heap.storage 1 = 0 := by
  obtain ⟨heap, built, size, notFinal, below, own, reported⟩ := built_overriding_child
  refine ⟨heap, built, (put 1 [1] [9] heap).2, ?_⟩
  have gave : (put 1 [1] [9]).Returns heap (-2) (put 1 [1] [9] heap).2 := Prod.ext reported rfl
  refine ⟨gave, ?_⟩
  obtain ⟨-, -, backend, -, held, -, -⟩ := returns_put.mp gave
  obtain ⟨ownValue, shown⟩ := view_eq_own held [1]
  rw [storage_sub (view_of_put gave), shown, ← ownValue, own]
  rfl

end Respublica.StateDb.Heap
