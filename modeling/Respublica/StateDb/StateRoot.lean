import Mathlib.Data.List.TakeWhile
import Respublica.Crypto.Merkle
import Respublica.StateDb.Refinement

/-!
# The Merkle root of a delta

The leaves of a delta are its records in key order: each stored object as key and value,
each removed key with an empty value. A key that was removed and stored again has a record
of both kinds, and a removed key looks like one that is stored with an empty value.
-/

namespace Respublica.StateDb.Heap

open Foundation Effect Crypto

/-- The Merkle root a delta answers with: the cached one, or that of its records. -/
def currentRoot (hash : Bytes → Digest) (node : Delta) (own : Backend) : Digest :=
  node.merkleRoot.getD
    (Crypto.merkleRoot hash (merkleLeafs own.map.toList node.removedObjects.toList))

variable {heap : Heap} {index : Nat} {node : Delta} {objects others : Objects} {otherRemoved : Keys}

/-- When the Merkle root of a delta is returned, and what is cached. -/
theorem returns_merkleRoot {hash : Bytes → Digest} {after : Heap} {own : Backend} {root : Digest}
    (found : heap.node? index = some node) (stored : node.backend = some own) :
    (merkleRoot hash index).Returns heap root after ↔
      node.final = true ∧ root = currentRoot hash node own ∧
        after = heap.update index fun delta => { delta with merkleRoot := some root } := by
  have reads : (delta index).Returns heap node heap := returns_delta.mpr ⟨found, rfl⟩
  unfold merkleRoot
  rw [reads.bind_iff]
  cases isFinal : node.final with
  | false => simp
  | true =>
    cases cached : node.merkleRoot with
    | some known =>
      have kept : (heap.update index fun delta => { delta with merkleRoot := some known }) =
        heap :=
        Forest.update_eq_self fun delta located => by
          obtain rfl : node = delta := Option.some.inj (found.symm.trans located)
          rw [← cached]
      simp only [Bool.not_true, Bool.false_eq_true, if_false, returns_pure, currentRoot,
        cached, Option.getD_some, true_and]
      constructor
      · rintro ⟨rfl, rfl⟩
        exact ⟨rfl, kept.symm⟩
      · rintro ⟨rfl, rfl⟩
        exact ⟨rfl, kept⟩
    | none =>
      have holds : (Effect.expect .nullDereference node.backend :
          Effect Fault Heap Backend).Returns heap own heap :=
        returns_expect.mpr ⟨stored, rfl⟩
      simp only [Bool.not_true, Bool.false_eq_true, if_false, holds.bind_iff, currentRoot,
        cached, Option.getD_none, true_and, returns_bind, returns_modify,
        returns_pure]
      constructor
      · rintro ⟨_, _, rfl, rfl, rfl⟩
        exact ⟨rfl, rfl⟩
      · rintro ⟨rfl, rfl⟩
        exact ⟨(), _, rfl, rfl, rfl⟩

/-- A delta that is not final has no Merkle root. -/
theorem merkleRoot_of_not_final (hash : Bytes → Digest) (found : heap.node? index = some node)
    (notFinal : node.final = false) :
    merkleRoot hash index heap =
      (.error (.exception "cannot return merkle root of non-final node"), heap) := by
  have reads : (delta index).Returns heap node heap := returns_delta.mpr ⟨found, rfl⟩
  unfold merkleRoot
  rw [reads.bind_eq, notFinal]
  rfl

/-- A final delta has one. -/
theorem merkleRoot_of_final (hash : Bytes → Digest) (backed : heap.Backed)
    (inside : index < heap.size) (isFinal : heap.final index = true) :
    ∃ root after, (merkleRoot hash index).Returns heap root after := by
  obtain ⟨node, own, found, stored, -⟩ := backend_of_backed backed inside
  rw [final_eq found] at isFinal
  exact ⟨_, _, (returns_merkleRoot found stored).mpr ⟨isFinal, rfl, rfl⟩⟩

/-- The records of a delta in the order of the source's merge. -/
def mergeRecords : List (Bytes × Bytes) → List Bytes → List (Bytes × Bytes)
  | [], removed => removed.map fun key => (key, [])
  | object :: objects, removed =>
    ((removed.takeWhile fun key => compare object.1 key != .lt).map fun key => (key, [])) ++
      object :: mergeRecords objects (removed.dropWhile fun key => compare object.1 key != .lt)

/-- A record contributes its key and its value. -/
def recordLeafs (records : List (Bytes × Bytes)) : List Bytes :=
  records.flatMap fun record => [record.1, record.2]

/-- The leaves are those of the merged records. -/
theorem merkleLeafs_eq (objects : List (Bytes × Bytes)) (removed : List Bytes) :
    merkleLeafs objects removed = recordLeafs (mergeRecords objects removed) := by
  induction objects generalizing removed with
  | nil => simp [merkleLeafs, mergeRecords, recordLeafs, List.flatMap_map]
  | cons object objects ih =>
    simp [merkleLeafs, mergeRecords, recordLeafs, List.flatMap_map, ih]

/-- Leaves tell the records. -/
theorem recordLeafs_injective : Function.Injective recordLeafs := by
  intro records
  induction records with
  | nil =>
    intro others same
    cases others with
    | nil => rfl
    | cons other others => cases same
  | cons record records ih =>
    intro others same
    cases others with
    | nil => cases same
    | cons other others =>
      simp only [recordLeafs, List.flatMap_cons, List.cons_append, List.nil_append,
        List.cons.injEq] at same
      rw [Prod.ext same.1 same.2.1, ih same.2.2]

/-- The merge loses no record. -/
theorem mergeRecords_perm (objects : List (Bytes × Bytes)) (removed : List Bytes) :
    (mergeRecords objects removed).Perm ((removed.map fun key => (key, [])) ++ objects) := by
  induction objects generalizing removed with
  | nil => simp [mergeRecords]
  | cons object objects ih =>
    let early := removed.takeWhile fun key => compare object.1 key != .lt
    let late := removed.dropWhile fun key => compare object.1 key != .lt
    have split : removed = early ++ late := List.takeWhile_append_dropWhile.symm
    calc mergeRecords (object :: objects) removed
      _ = (early.map fun key => (key, [])) ++ object :: mergeRecords objects late := rfl
      _ |>.Perm ((early.map fun key => (key, [])) ++
            object :: ((late.map fun key => (key, [])) ++ objects)) :=
          ((ih late).cons object).append_left _
      _ |>.Perm ((early.map fun key => (key, [])) ++
            ((late.map fun key => (key, [])) ++ object :: objects)) :=
          List.perm_middle.symm.append_left _
      _ = (removed.map fun key => (key, [])) ++ object :: objects := by
          rw [← List.append_assoc, ← List.map_append, ← split]

/-- Records in order: by key, and a removal before an object of the same key. -/
def Ordered (first second : Bytes × Bytes) : Prop :=
  compare first.1 second.1 = .lt ∨ first.1 = second.1 ∧ (compare first.2 second.2).isLE

/-- The order of records is antisymmetric. -/
theorem Ordered.antisymm {first second : Bytes × Bytes} (forth : Ordered first second)
    (back : Ordered second first) : first = second := by
  rcases forth with less | ⟨same, valueLess⟩
  · rcases back with greater | ⟨same, -⟩
    · rw [Std.OrientedCmp.gt_of_lt greater] at less
      cases less
    · exact absurd less (by simp [same])
  · rcases back with greater | ⟨-, valueGreater⟩
    · exact absurd greater (by simp [same])
    · exact Prod.ext same (Std.LawfulEqCmp.eq_of_compare
        (Std.OrientedCmp.isLE_antisymm valueLess valueGreater))

/-- In a sorted list, what is dropped up to a bound lies behind it. -/
theorem lt_of_mem_dropWhile {bound key : Bytes} {keys : List Bytes}
    (sorted : keys.Pairwise fun first second => compare first second = .lt)
    (mem : key ∈ keys.dropWhile fun key => compare bound key != .lt) :
    compare bound key = .lt := by
  induction keys with
  | nil => cases mem
  | cons first rest ih =>
    obtain ⟨behind, restSorted⟩ := List.pairwise_cons.mp sorted
    rw [List.dropWhile_cons] at mem
    split at mem
    · exact ih restSorted mem
    · rename_i notBefore
      have before : compare bound first = .lt := by simpa using notBefore
      rcases List.mem_cons.mp mem with rfl | later
      · exact before
      · exact Std.TransCmp.lt_trans before (behind key later)

/-- The merge of sorted lists is in order. -/
theorem mergeRecords_ordered {objects : List (Bytes × Bytes)} {removed : List Bytes}
    (objectsSorted : objects.Pairwise fun first second => compare first.1 second.1 = .lt)
    (removedSorted : removed.Pairwise fun first second => compare first second = .lt) :
    (mergeRecords objects removed).Pairwise Ordered := by
  induction objects generalizing removed with
  | nil => exact List.pairwise_map.mpr (removedSorted.imp fun less => .inl less)
  | cons object objects ih =>
    obtain ⟨behind, restSorted⟩ := List.pairwise_cons.mp objectsSorted
    let early := removed.takeWhile fun key => compare object.1 key != .lt
    let late := removed.dropWhile fun key => compare object.1 key != .lt
    have earlySorted : early.Pairwise fun first second => compare first second = .lt :=
      removedSorted.sublist (List.takeWhile_sublist _)
    have lateSorted : late.Pairwise fun first second => compare first second = .lt :=
      removedSorted.sublist (List.dropWhile_sublist _)
    have objectFirst : ∀ record ∈ mergeRecords objects late,
        compare object.1 record.1 = .lt := by
      intro record mem
      rcases List.mem_append.mp ((mergeRecords_perm objects late).mem_iff.mp mem) with
        removal | stored
      · obtain ⟨key, inLate, rfl⟩ := List.mem_map.mp removal
        exact lt_of_mem_dropWhile removedSorted inLate
      · exact behind record stored
    have earlyFirst : ∀ key ∈ early, (compare key object.1).isLE := by
      intro key mem
      have notBehind := List.mem_takeWhile_imp mem
      have swapped : compare key object.1 = (compare object.1 key).swap := Std.OrientedCmp.eq_swap
      rw [swapped]
      revert notBehind
      cases compare object.1 key <;> simp
    refine List.pairwise_append.mpr ⟨?_, ?_, ?_⟩
    · exact List.pairwise_map.mpr (earlySorted.imp fun less => .inl less)
    · exact List.pairwise_cons.mpr
        ⟨fun record mem => .inl (objectFirst record mem), ih restSorted lateSorted⟩
    · intro removal isEarly record mem
      obtain ⟨key, inEarly, rfl⟩ := List.mem_map.mp isEarly
      have notBehind := earlyFirst key inEarly
      rcases List.mem_cons.mp mem with rfl | later
      · rcases Ordering.isLE_iff_eq_lt_or_eq_eq.mp notBehind with less | same
        · exact .inl less
        · exact .inr ⟨Std.LawfulEqCmp.eq_of_compare same, by cases record.2 <;> rfl⟩
      · exact .inl (Std.TransCmp.lt_of_isLE_of_lt notBehind (objectFirst record later))

/-- The records of a delta. -/
def records (objects : Objects) (removed : Keys) : List (Bytes × Bytes) :=
  mergeRecords objects.toList removed.toList

theorem records_ordered (objects : Objects) (removed : Keys) :
    (records objects removed).Pairwise Ordered :=
  mergeRecords_ordered objects.ordered_keys_toList removed.ordered_toList

/-- The values recorded for a key: an empty one for a removal, and that of an object. -/
def recorded (objects : Objects) (removed : Keys) (key : Bytes) : List Bytes :=
  (if key ∈ removed then [[]] else []) ++ objects[key]?.toList

theorem nodup_toList_keys (keys : Keys) : keys.toList.Nodup :=
  keys.ordered_toList.imp fun less same => absurd less (by simp [same])

theorem nodup_toList_objects (objects : Objects) : objects.toList.Nodup :=
  objects.ordered_keys_toList.imp fun less same => absurd less (by simp [same])

/-- Every removal is recorded once. -/
theorem count_removals (keys : List Bytes) (distinct : keys.Nodup) (key value : Bytes) :
    (keys.map fun key => ((key, []) : Bytes × Bytes)).count (key, value) =
      if key ∈ keys ∧ value = [] then 1 else 0 := by
  have mapDistinct : (keys.map fun key => ((key, []) : Bytes × Bytes)).Nodup :=
    distinct.map fun _ _ same => congrArg Prod.fst same
  rw [mapDistinct.count]
  simp [and_comm, eq_comm]

/-- Every object is recorded once. -/
theorem count_objects (objects : Objects) (key value : Bytes) :
    objects.toList.count (key, value) = if objects[key]? = some value then 1 else 0 := by
  rw [(nodup_toList_objects objects).count]
  simp only [Std.ExtTreeMap.mem_toList_iff_getElem?_eq_some]

/-- How often a value is recorded for a key. -/
theorem count_records (objects : Objects) (removed : Keys) (key value : Bytes) :
    (records objects removed).count (key, value) = (recorded objects removed key).count value := by
  rw [records, (mergeRecords_perm _ _).count_eq, List.count_append, count_objects,
    count_removals _ (nodup_toList_keys removed), recorded, List.count_append]
  congr 1
  · by_cases isRemoved : key ∈ removed
    · by_cases empty : value = [] <;> simp [isRemoved, empty, eq_comm]
    · simp [isRemoved]
  · cases objects[key]? with
    | none => simp
    | some stored => simp [List.count_singleton, beq_eq_decide]

/-- Recorded values come in one order only. -/
theorem recorded_eq_of_count {removed : Keys} {key : Bytes}
    (same : ∀ value, (recorded objects removed key).count value =
      (recorded others otherRemoved key).count value) :
    recorded objects removed key = recorded others otherRemoved key := by
  have perm := List.perm_iff_count.mpr same
  revert perm
  simp only [recorded]
  by_cases isRemoved : key ∈ removed <;> by_cases otherIsRemoved : key ∈ otherRemoved <;>
    cases objects[key]? <;> cases others[key]? <;>
    simp [isRemoved, otherIsRemoved, List.perm_cons]

/-- The records are determined by what is recorded for each key. -/
theorem records_eq_iff {removed : Keys} :
    records objects removed = records others otherRemoved ↔
      ∀ key, recorded objects removed key = recorded others otherRemoved key := by
  constructor
  · intro same key
    refine recorded_eq_of_count fun value => ?_
    rw [← count_records, ← count_records, same]
  · intro same
    have perm : (records objects removed).Perm (records others otherRemoved) := by
      refine List.perm_iff_count.mpr fun ⟨key, value⟩ => ?_
      rw [count_records, count_records, same key]
    exact perm.eq_of_pairwise (fun _ _ _ _ forth back => Ordered.antisymm forth back)
      (records_ordered _ _) (records_ordered _ _)

section NetChange

/-- The keys a delta has stored or removed. -/
def touched (objects : Objects) (removed : Keys) : Keys :=
  objects.toList.foldl (fun keys object => keys.insert object.1) removed

/-- The keys touched are those removed and those stored. -/
theorem mem_touched (objects : Objects) (removed : Keys) (key : Bytes) :
    key ∈ touched objects removed ↔ key ∈ removed ∨ key ∈ objects := by
  have folded := mem_foldl_insert (objects.toList.map Prod.fst) removed key
  rw [List.foldl_map] at folded
  rw [touched, folded, or_comm]
  refine or_congr Iff.rfl ?_
  rw [List.mem_map, Std.ExtTreeMap.mem_iff_isSome_getElem?, Option.isSome_iff_exists]
  constructor
  · rintro ⟨⟨other, value⟩, mem, rfl⟩
    exact ⟨value, Std.ExtTreeMap.mem_toList_iff_getElem?_eq_some.mp mem⟩
  · rintro ⟨value, stored⟩
    exact ⟨(key, value), Std.ExtTreeMap.mem_toList_iff_getElem?_eq_some.mpr stored, rfl⟩

/-- The net change of a delta: every touched key once, with the value now held or none. -/
def netRecords (objects : Objects) (removed : Keys) : List (Bytes × Bytes) :=
  (touched objects removed).toList.map fun key => (key, objects[key]?.getD [])

/-- The net change has one record for every key touched. -/
theorem count_netRecords (objects : Objects) (removed : Keys) (key value : Bytes) :
    (netRecords objects removed).count (key, value) =
      if key ∈ touched objects removed ∧ value = objects[key]?.getD [] then 1 else 0 := by
  have distinct : (netRecords objects removed).Nodup :=
    (nodup_toList_keys _).map fun _ _ same => congrArg Prod.fst same
  rw [distinct.count]
  congr 1
  simp only [netRecords, List.mem_map, Prod.mk.injEq, Std.ExtTreeSet.mem_toList, eq_iff_iff]
  constructor
  · rintro ⟨_, mem, rfl, rfl⟩
    exact ⟨mem, rfl⟩
  · rintro ⟨mem, rfl⟩
    exact ⟨key, mem, rfl, rfl⟩

/-- The keys that are removed and stored. -/
def doubled (objects : Objects) (removed : Keys) : List Bytes :=
  removed.toList.filter fun key => objects.contains key

theorem nodup_doubled (objects : Objects) (removed : Keys) : (doubled objects removed).Nodup :=
  (nodup_toList_keys removed).filter _

/-- The records are the net change and one more removal for every key that is also stored. -/
theorem records_perm_net (objects : Objects) (removed : Keys) :
    (records objects removed).Perm
      (netRecords objects removed ++ (doubled objects removed).map fun key => (key, [])) := by
  refine List.perm_iff_count.mpr fun ⟨key, value⟩ => ?_
  rw [count_records, List.count_append, count_netRecords,
    count_removals _ (nodup_doubled objects removed), recorded, List.count_append]
  simp only [mem_touched, doubled, List.mem_filter, Std.ExtTreeSet.mem_toList,
    Std.ExtTreeMap.contains_iff_mem, Std.ExtTreeMap.mem_iff_isSome_getElem?]
  by_cases isRemoved : key ∈ removed <;> cases objects[key]? with
  | none => by_cases empty : value = [] <;> simp [isRemoved, empty, eq_comm]
  | some stored =>
    by_cases same : value = stored <;> by_cases empty : value = [] <;>
      simp_all [eq_comm]

variable {objects : Objects}

/-- Without keys that are removed and stored, the records are the net change. -/
theorem records_eq_net {removed : Keys} (disjoint : ∀ key ∈ removed, key ∉ objects) :
    records objects removed = netRecords objects removed := by
  have none : doubled objects removed = [] := by
    refine List.filter_eq_nil_iff.mpr fun key mem stored => ?_
    exact disjoint key (Std.ExtTreeSet.mem_toList.mp mem)
      (Std.ExtTreeMap.contains_iff_mem.mp stored)
  have perm := records_perm_net objects removed
  rw [none, List.map_nil, List.append_nil] at perm
  refine perm.eq_of_pairwise (fun _ _ _ _ forth back => Ordered.antisymm forth back)
    (records_ordered objects removed) ?_
  exact List.pairwise_map.mpr ((touched objects removed).ordered_toList.imp fun less => .inl less)

/-- The leaves of removals are their keys and as many empty ones. -/
theorem count_removalLeafs (keys : List Bytes) (leaf : Bytes) :
    (recordLeafs (keys.map fun key => (key, []))).count leaf =
      keys.count leaf + if leaf = [] then keys.length else 0 := by
  induction keys with
  | nil => simp [recordLeafs]
  | cons key keys ih =>
    simp only [recordLeafs] at ih
    simp only [recordLeafs, List.map_cons, List.flatMap_cons, List.count_append, ih,
      List.count_cons, List.count_nil, List.length_cons, beq_iff_eq, @eq_comm _ [] leaf]
    split <;> split <;> omega

/-- A key occurs among the leaves of removals once or, when it is empty and alone, twice. -/
theorem exists_rare_leaf {keys : List Bytes} (distinct : keys.Nodup) (nonempty : keys ≠ []) :
    ∃ leaf ∈ recordLeafs (keys.map fun key => (key, [])),
      (recordLeafs (keys.map fun key => (key, []))).count leaf ≤ 2 := by
  by_cases named : ∃ key ∈ keys, key ≠ []
  · obtain ⟨key, mem, nonzero⟩ := named
    refine ⟨key, ?_, ?_⟩
    · exact List.mem_flatMap.mpr ⟨(key, []), List.mem_map.mpr ⟨key, mem, rfl⟩, by simp⟩
    · rw [count_removalLeafs, distinct.count, if_neg nonzero]
      split <;> omega
  · push Not at named
    obtain ⟨key, rest, rfl⟩ := List.exists_cons_of_ne_nil nonempty
    have alone : rest = [] := by
      refine List.eq_nil_iff_forall_not_mem.mpr fun other mem => ?_
      have same : other = key := by
        rw [named other (List.mem_cons_of_mem _ mem), named key List.mem_cons_self]
      exact (List.nodup_cons.mp distinct).1 (same ▸ mem)
    subst alone
    exact ⟨[], by simp [recordLeafs], by rw [count_removalLeafs, distinct.count]; split <;> simp⟩

/-- Some hash tells the records from the net change when a key is removed and stored. -/
theorem exists_root_ne_net {removed : Keys} {key : Bytes} (isRemoved : key ∈ removed)
    (isStored : key ∈ objects) :
    ∃ hash, Crypto.merkleRoot hash (recordLeafs (records objects removed)) ≠
      Crypto.merkleRoot hash (recordLeafs (netRecords objects removed)) := by
  have mem : key ∈ doubled objects removed :=
    List.mem_filter.mpr ⟨Std.ExtTreeSet.mem_toList.mpr isRemoved,
      Std.ExtTreeMap.contains_iff_mem.mpr isStored⟩
  have perm : (recordLeafs (records objects removed)).Perm
      (recordLeafs (netRecords objects removed) ++
        recordLeafs ((doubled objects removed).map fun key => (key, []))) := by
    rw [recordLeafs, recordLeafs, recordLeafs, ← List.flatMap_append]
    exact (records_perm_net objects removed).flatMap_right _
  obtain ⟨leaf, isLeaf, rare⟩ :=
    exists_rare_leaf (nodup_doubled objects removed) (List.ne_nil_of_mem mem)
  have few : (2 : Nat) < 256 ^ 31 := by decide
  exact Crypto.exists_merkleRoot_ne perm isLeaf (Nat.lt_of_le_of_lt rare few)

end NetChange

section Uncached

/-- No Merkle root was asked for yet. -/
def Uncached (heap : Heap) : Prop :=
  ∀ index delta, heap.node? index = some delta → delta.merkleRoot = none

variable {heap : Heap}

/-- Updates that leave cached roots alone cache nothing. -/
theorem uncached_update {index : Nat} {change : Delta → Delta} (uncached : heap.Uncached)
    (kept : ∀ delta, (change delta).merkleRoot = delta.merkleRoot) :
    Uncached (heap.update index change) := by
  intro position delta found
  rw [Forest.node?_update] at found
  split at found
  · obtain ⟨old, located, rfl⟩ := Option.map_eq_some_iff.mp found
    rw [kept, uncached position old located]
  · exact uncached position delta found

theorem uncached_push {parent : Option Nat} {delta : Delta} (uncached : heap.Uncached)
    (fresh : delta.merkleRoot = none) :
    Uncached (heap.push parent delta) := by
  intro position node found
  rw [Forest.node?_push] at found
  split at found
  · rw [← Option.some.inj found, fresh]
  · exact uncached position node found

/-- No call but `merkle_root` caches anything. -/
theorem Call.perform_uncached {after : Heap} {call : Call} (uncached : heap.Uncached)
    (gave : call.perform.Returns heap () after) : after.Uncached := by
  cases call with
  | put index key value =>
    obtain ⟨_, _, put, pure⟩ := returns_bind.mp gave
    obtain ⟨-, rfl⟩ := returns_pure.mp pure
    obtain ⟨-, _, _, -, -, -, rfl⟩ := returns_put.mp put
    exact uncached_update uncached fun _ => rfl
  | remove index key =>
    obtain ⟨_, _, removed, pure⟩ := returns_bind.mp gave
    obtain ⟨-, rfl⟩ := returns_pure.mp pure
    obtain ⟨-, _, -, -, rfl⟩ := returns_remove.mp removed
    exact uncached_update uncached fun _ => rfl
  | makeChild index childId =>
    obtain ⟨_, _, made, pure⟩ := returns_bind.mp gave
    obtain ⟨-, rfl⟩ := returns_pure.mp pure
    obtain ⟨_, -, -, rfl⟩ := returns_makeChild.mp made
    exact uncached_push uncached rfl
  | clone index newId =>
    obtain ⟨_, _, cloned, pure⟩ := returns_bind.mp gave
    obtain ⟨-, rfl⟩ := returns_pure.mp pure
    obtain ⟨node, _, found, -, -, rfl⟩ := returns_clone.mp cloned
    exact uncached_push uncached (uncached index node found)
  | squash index =>
    cases points : heap.parent? index with
    | none =>
      obtain rfl := (returns_squash_root points).mp gave
      exact uncached
    | some parent =>
      obtain ⟨_, _, -, -, moved⟩ := (returns_squash points).mp gave
      split at moved
      · rwa [moved]
      · obtain ⟨-, rfl⟩ := moved
        exact uncached_update (uncached_update uncached fun _ => rfl) fun _ => rfl
  | finalize index =>
    obtain ⟨_, -, rfl⟩ := returns_finalize.mp gave
    exact uncached_update uncached fun _ => rfl

/-- What calls have made has nothing cached. -/
theorem Call.Made.uncached {calls : List Call} (made : Call.Made calls heap) :
    heap.Uncached := by
  induction made with
  | start =>
    refine uncached_push (fun index delta found => ?_) rfl
    simp [Forest.node?, Forest.empty] at found
  | step _ gave ih => exact Call.perform_uncached ih gave

end Uncached

/-- In every heap that calls can build, the Merkle root of a final delta is that of its net
change, whatever the hash, exactly when no key is both removed and stored in it. -/
theorem merkleRoot_of_net_change_iff {calls : List Call} {heap : Heap} {index : Nat} {node : Delta}
    {own : Backend} (made : Call.Made calls heap) (found : heap.node? index = some node)
    (stored : node.backend = some own) (isFinal : heap.final index = true) :
    (∀ hash, ∃ after, (merkleRoot hash index).Returns heap
        (Crypto.merkleRoot hash (recordLeafs (netRecords own.map node.removedObjects))) after) ↔
      ∀ key ∈ node.removedObjects, key ∉ own.map := by
  have uncached := made.uncached index node found
  have current (hash : Bytes → Digest) : currentRoot hash node own =
      Crypto.merkleRoot hash (recordLeafs (records own.map node.removedObjects)) := by
    rw [currentRoot, uncached, merkleLeafs_eq]
    rfl
  rw [final_eq found] at isFinal
  constructor
  · intro agrees key isRemoved isStored
    obtain ⟨hash, different⟩ := exists_root_ne_net isRemoved isStored
    obtain ⟨after, gave⟩ := agrees hash
    obtain ⟨-, root, -⟩ := (returns_merkleRoot found stored).mp gave
    rw [current] at root
    exact different root.symm
  · intro disjoint hash
    refine ⟨_, (returns_merkleRoot found stored).mpr ⟨isFinal, ?_, rfl⟩⟩
    rw [current, records_eq_net disjoint]

/-- A root with an object and two children that hold the same object in its place: the
first has stored it, the second has removed the old one before. -/
def rewriting : List Call :=
  [.put 0 [1] [7], .makeChild 0 nullId, .makeChild 0 nullId, .put 1 [1] [8], .remove 2 [1],
    .put 2 [1] [8], .finalize 1, .finalize 2]

/-- The heap after some calls. -/
def afterCalls (calls : List Call) : Heap :=
  calls.foldl (fun heap call => (call.perform heap).2) (createRoot Forest.empty)

theorem Call.Built.snoc {calls : List Call} (built : Call.Built calls heap) (call : Call)
    (admissible : call.Admissible heap) (outcome : (call.perform heap).1 = .ok ()) :
    Call.Built (calls ++ [call]) (call.perform heap).2 :=
  built.step admissible (returns_of_fst outcome)

theorem built_rewriting : Call.Built rewriting (afterCalls rewriting) := by
  have stored := Call.Built.start.snoc (.put 0 [1] [7]) ⟨by decide, rfl, by decide⟩ rfl
  have first := stored.snoc (.makeChild 0 nullId) (show 0 < _ by decide) rfl
  have second := first.snoc (.makeChild 0 nullId) (show 0 < _ by decide) rfl
  have written := second.snoc (.put 1 [1] [8]) ⟨by decide, rfl, by decide⟩ rfl
  have removed := written.snoc (.remove 2 [1]) ⟨by decide, rfl, by decide⟩ rfl
  have again := removed.snoc (.put 2 [1] [8]) ⟨by decide, rfl, by decide⟩ rfl
  have final := again.snoc (.finalize 1) (show 1 < _ by decide) rfl
  exact final.snoc (.finalize 2) (show 2 < _ by decide) rfl

/-- The theorem applies to the child that has only stored. -/
theorem merkleRoot_of_net_change_iff_when_stored :
    ∃ node own, (afterCalls rewriting).node? 1 = some node ∧ node.backend = some own ∧
      ∀ hash, ∃ after, (merkleRoot hash 1).Returns (afterCalls rewriting)
        (Crypto.merkleRoot hash (recordLeafs (netRecords own.map node.removedObjects))) after := by
  refine ⟨_, _, rfl, rfl, (merkleRoot_of_net_change_iff built_rewriting.made rfl rfl rfl).mpr ?_⟩
  intro key isRemoved
  have nowhere : key ∈ (∅ : Keys) := isRemoved
  simp at nowhere

/-- The children of `rewriting` hold the same object, which is the net change of either, and
have different Merkle roots. -/
theorem rewriting_changes_root :
    Call.Built rewriting (afterCalls rewriting) ∧
      (afterCalls rewriting).final 1 = true ∧ (afterCalls rewriting).final 2 = true ∧
      (∃ node own, (afterCalls rewriting).node? 2 = some node ∧ node.backend = some own ∧
        netRecords own.map node.removedObjects = [([1], [8])]) ∧
      (afterCalls rewriting).get 1 [1] = .ok (some [8]) ∧
      (afterCalls rewriting).get 2 [1] = .ok (some [8]) ∧
      ∃ first second firstAfter secondAfter,
        (merkleRoot (addingHash 251 1 List.length) 1).Returns (afterCalls rewriting) first
          firstAfter ∧
        (merkleRoot (addingHash 251 1 List.length) 2).Returns (afterCalls rewriting) second
          secondAfter ∧
        first = Crypto.merkleRoot (addingHash 251 1 List.length) [[1], [8]] ∧ first ≠ second := by
  refine ⟨built_rewriting, rfl, rfl, ⟨_, _, rfl, rfl, by decide +kernel⟩, by decide +kernel,
    by decide +kernel, ?_⟩
  have firstRoot : (merkleRoot (addingHash 251 1 List.length) 1 (afterCalls rewriting)).1 =
      .ok (residue 251 1 2) := by decide +kernel
  have secondRoot : (merkleRoot (addingHash 251 1 List.length) 2 (afterCalls rewriting)).1 =
      .ok (residue 251 1 3) := by decide +kernel
  exact ⟨_, _, _, _, returns_of_fst firstRoot, returns_of_fst secondRoot,
    by decide +kernel, by decide +kernel⟩

section Binding

variable {hash : Bytes → Digest} {heap : Heap} {first second : Nat} {firstNode secondNode : Delta}
  {firstOwn secondOwn : Backend}

/-- The leaves a delta's Merkle root is made of. -/
def leafs (node : Delta) (own : Backend) : List Bytes :=
  recordLeafs (records own.map node.removedObjects)

/-- A cached Merkle root is that of the records the delta has. -/
def HonestRoot (hash : Bytes → Digest) (node : Delta) (own : Backend) : Prop :=
  ∀ root, node.merkleRoot = some root → root = Crypto.merkleRoot hash (leafs node own)

/-- An honest root is that of the records. -/
theorem currentRoot_of_honest {node : Delta} {own : Backend} (honest : HonestRoot hash node own) :
    currentRoot hash node own = Crypto.merkleRoot hash (leafs node own) := by
  cases cached : node.merkleRoot with
  | some root => rw [currentRoot, cached, Option.getD_some, honest root cached]
  | none =>
    rw [currentRoot, cached, Option.getD_none, merkleLeafs_eq]
    rfl

/-- Two deltas have recorded the same for every key, but a key is removed in one of them and
stored with an empty value in the other. -/
def Confusable (firstNode secondNode : Delta) (firstOwn secondOwn : Backend) : Prop :=
  (∀ key, recorded firstOwn.map firstNode.removedObjects key =
    recorded secondOwn.map secondNode.removedObjects key) ∧
  ∃ key, ¬ (key ∈ firstNode.removedObjects ↔ key ∈ secondNode.removedObjects)

/-- A removal in one delta that the other has recorded as an object is read differently. -/
theorem get_ne_of_confusable {key : Bytes} (firstFound : heap.node? first = some firstNode)
    (secondFound : heap.node? second = some secondNode)
    (firstStored : firstNode.backend = some firstOwn)
    (secondStored : secondNode.backend = some secondOwn)
    (same : recorded firstOwn.map firstNode.removedObjects key =
      recorded secondOwn.map secondNode.removedObjects key)
    (isRemoved : key ∈ firstNode.removedObjects) (kept : key ∉ secondNode.removedObjects) :
    heap.get first key = .ok none ∧ heap.get second key = .ok (some []) := by
  simp only [recorded, isRemoved, kept, if_true, if_false, List.nil_append] at same
  cases secondObject : secondOwn.map[key]? with
  | none => simp [secondObject] at same
  | some value =>
    cases firstObject : firstOwn.map[key]? with
    | some other => simp [firstObject, secondObject] at same
    | none =>
      obtain rfl : [] = value := by simpa [firstObject, secondObject] using same
      rw [get_eq firstFound, get_eq secondFound, firstStored, secondStored]
      simp [Backend.get, firstObject, secondObject, isRemoved]

/-- Deltas with one parent that have recorded the same show the same. -/
theorem get_eq_of_same_records (parents : heap.parent? first = heap.parent? second)
    (firstFound : heap.node? first = some firstNode)
    (secondFound : heap.node? second = some secondNode)
    (firstStored : firstNode.backend = some firstOwn)
    (secondStored : secondNode.backend = some secondOwn)
    (same : ∀ key, recorded firstOwn.map firstNode.removedObjects key =
      recorded secondOwn.map secondNode.removedObjects key)
    (removals : ∀ key, key ∈ firstNode.removedObjects ↔ key ∈ secondNode.removedObjects)
    (key : Bytes) : heap.get first key = heap.get second key := by
  have objects : firstOwn.map[key]? = secondOwn.map[key]? := by
    have sameKey := same key
    simp only [recorded, removals key, List.append_cancel_left_eq] at sameKey
    revert sameKey
    cases firstOwn.map[key]? <;> cases secondOwn.map[key]? <;> simp
  have removed : firstNode.removedObjects.contains key =
      secondNode.removedObjects.contains key := by
    rw [Bool.eq_iff_iff, Std.ExtTreeSet.contains_iff_mem, Std.ExtTreeSet.contains_iff_mem,
      removals key]
  rw [get_eq firstFound, get_eq secondFound, firstStored, secondStored, parents]
  simp only [Backend.get, objects, removed]

/-- For deltas with one parent and a hash without collisions on the strings hashed, where no
leaf is as long as two digests: equal Merkle roots mean equal states exactly when the deltas
are not confusable. -/
theorem merkleRoot_binds_state_iff (parents : heap.parent? first = heap.parent? second)
    (firstFound : heap.node? first = some firstNode)
    (secondFound : heap.node? second = some secondNode)
    (firstStored : firstNode.backend = some firstOwn)
    (secondStored : secondNode.backend = some secondOwn)
    (firstFinal : firstNode.final = true) (secondFinal : secondNode.final = true)
    (firstHonest : HonestRoot hash firstNode firstOwn)
    (secondHonest : HonestRoot hash secondNode secondOwn)
    (injective : Set.InjOn hash {text | text ∈ merkleMessages hash (leafs firstNode firstOwn) ∨
      text ∈ merkleMessages hash (leafs secondNode secondOwn)})
    (short : ∀ leaf ∈ leafs firstNode firstOwn ++ leafs secondNode secondOwn, leaf.length ≠ 64)
    (bothOrNeither : leafs firstNode firstOwn = [] ↔ leafs secondNode secondOwn = []) :
    (∀ root firstAfter secondAfter, (merkleRoot hash first).Returns heap root firstAfter →
        (merkleRoot hash second).Returns heap root secondAfter →
        ∀ key, heap.get first key = heap.get second key) ↔
      ¬ Confusable firstNode secondNode firstOwn secondOwn := by
  have roots := currentRoot_of_honest firstHonest
  have otherRoots := currentRoot_of_honest secondHonest
  constructor
  · rintro binds ⟨same, key, differs⟩
    have equalRoots : currentRoot hash firstNode firstOwn = currentRoot hash secondNode
        secondOwn := by
      rw [roots, otherRoots, leafs, leafs, records_eq_iff.mpr same]
    have shows := binds _ _ _
      ((returns_merkleRoot firstFound firstStored).mpr ⟨firstFinal, rfl, rfl⟩)
      ((returns_merkleRoot secondFound secondStored).mpr ⟨secondFinal, equalRoots, rfl⟩) key
    by_cases isRemoved : key ∈ firstNode.removedObjects
    · have kept : key ∉ secondNode.removedObjects := fun both => differs (by simp [isRemoved, both])
      obtain ⟨absent, present⟩ := get_ne_of_confusable firstFound secondFound firstStored
        secondStored (same key) isRemoved kept
      rw [absent, present] at shows
      cases shows
    · have otherRemoved : key ∈ secondNode.removedObjects := by
        by_contra neither
        exact differs (by simp [isRemoved, neither])
      obtain ⟨absent, present⟩ := get_ne_of_confusable secondFound firstFound secondStored
        firstStored (same key).symm otherRemoved isRemoved
      rw [absent, present] at shows
      cases shows
  · intro distinct root firstAfter secondAfter firstReturned secondReturned
    obtain ⟨-, firstRoot, -⟩ := (returns_merkleRoot firstFound firstStored).mp firstReturned
    obtain ⟨-, secondRoot, -⟩ := (returns_merkleRoot secondFound secondStored).mp secondReturned
    have sameLeafs : leafs firstNode firstOwn = leafs secondNode secondOwn := by
      refine Crypto.eq_of_merkleRoot_eq injective short bothOrNeither ?_
      rw [← roots, ← otherRoots, ← firstRoot, ← secondRoot]
    have same := records_eq_iff.mp (recordLeafs_injective sameLeafs)
    refine get_eq_of_same_records parents firstFound secondFound firstStored secondStored same ?_
    by_contra differs
    push Not at differs
    obtain ⟨key, differs⟩ := differs
    exact distinct ⟨same, key, fun agree => by tauto⟩

/-- A root with an object and two children that store the same object, the second after
another one. -/
def storingTwice : List Call :=
  [.put 0 [1] [7], .makeChild 0 nullId, .makeChild 0 nullId, .put 1 [2] [5], .put 2 [2] [4],
    .put 2 [2] [5], .finalize 1, .finalize 2]

/-- A hash that keeps short strings apart: their length and their first bytes. -/
def shortHash (text : Bytes) : Digest := SizedBytes.fit 32 (UInt8.ofNat text.length :: text)

/-- The theorem applies to the children of `storingTwice`, which have one Merkle root. -/
theorem merkleRoot_binds_state_iff_when_stored :
    ∃ root firstAfter secondAfter,
      (merkleRoot shortHash 1).Returns (afterCalls storingTwice) root firstAfter ∧
      (merkleRoot shortHash 2).Returns (afterCalls storingTwice) root secondAfter ∧
      ∀ key, (afterCalls storingTwice).get 1 key = (afterCalls storingTwice).get 2 key := by
  let node (index : Nat) : Delta :=
    ((afterCalls storingTwice).node? index).getD ⟨none, ∅, none, false⟩
  let own (index : Nat) : Backend := (node index).backend.getD (Backend.create nullId 0)
  have firstLeafs : leafs (node 1) (own 1) = [[2], [5]] := by decide +kernel
  have secondLeafs : leafs (node 2) (own 2) = [[2], [5]] := by decide +kernel
  have noCollision : ∀ text ∈ merkleMessages shortHash [[2], [5]],
      ∀ other ∈ merkleMessages shortHash [[2], [5]],
        shortHash text = shortHash other → text = other := by
    decide +kernel
  have unremoved (index : Nat) (within : index = 1 ∨ index = 2) :
      (node index).removedObjects = ∅ := by
    rcases within with rfl | rfl <;> rfl
  have distinct : ¬ Confusable (node 1) (node 2) (own 1) (own 2) := by
    rintro ⟨-, key, differs⟩
    exact differs (by rw [unremoved 1 (.inl rfl), unremoved 2 (.inr rfl)])
  have binds := (merkleRoot_binds_state_iff (show (afterCalls storingTwice).parent? 1 = _ from rfl)
    (show _ = some (node 1) from rfl) (show _ = some (node 2) from rfl)
    (show _ = some (own 1) from rfl) (show _ = some (own 2) from rfl) rfl rfl
    (fun root cached => by cases cached) (fun root cached => by cases cached)
    (show Set.InjOn shortHash _ by
      rw [firstLeafs, secondLeafs]
      exact fun text mem other otherMember => noCollision text (by simpa using mem) other
        (by simpa using otherMember))
    (by rw [firstLeafs, secondLeafs]; decide) (by rw [firstLeafs, secondLeafs])).mpr distinct
  have firstRoot : (merkleRoot shortHash 1 (afterCalls storingTwice)).1 =
      .ok (Crypto.merkleRoot shortHash [[2], [5]]) := by decide +kernel
  have secondRoot : (merkleRoot shortHash 2 (afterCalls storingTwice)).1 =
      .ok (Crypto.merkleRoot shortHash [[2], [5]]) := by decide +kernel
  exact ⟨_, _, _, returns_of_fst firstRoot, returns_of_fst secondRoot,
    binds _ _ _ (returns_of_fst firstRoot) (returns_of_fst secondRoot)⟩

/-- A root with an object and two children: the first removes it, the second stores an empty
value in its place. -/
def emptying : List Call :=
  [.put 0 [1] [7], .makeChild 0 nullId, .makeChild 0 nullId, .remove 1 [1], .put 2 [1] [],
    .finalize 1, .finalize 2]

theorem built_emptying : Call.Built emptying (afterCalls emptying) := by
  have stored := Call.Built.start.snoc (.put 0 [1] [7]) ⟨by decide, rfl, by decide⟩ rfl
  have first := stored.snoc (.makeChild 0 nullId) (show 0 < _ by decide) rfl
  have second := first.snoc (.makeChild 0 nullId) (show 0 < _ by decide) rfl
  have removed := second.snoc (.remove 1 [1]) ⟨by decide, rfl, by decide⟩ rfl
  have emptied := removed.snoc (.put 2 [1] []) ⟨by decide, rfl, by decide⟩ rfl
  have final := emptied.snoc (.finalize 1) (show 1 < _ by decide) rfl
  exact final.snoc (.finalize 2) (show 2 < _ by decide) rfl

/-- The children of `emptying` have one Merkle root under every hash, and different states. -/
theorem removal_and_empty_value_share_root :
    Call.Built emptying (afterCalls emptying) ∧
      (afterCalls emptying).parent? 1 = (afterCalls emptying).parent? 2 ∧
      (afterCalls emptying).final 1 = true ∧ (afterCalls emptying).final 2 = true ∧
      (∀ hash, ∃ root firstAfter secondAfter,
        (merkleRoot hash 1).Returns (afterCalls emptying) root firstAfter ∧
        (merkleRoot hash 2).Returns (afterCalls emptying) root secondAfter) ∧
      (afterCalls emptying).get 1 [1] = .ok none ∧
      (afterCalls emptying).get 2 [1] = .ok (some []) := by
  refine ⟨built_emptying, rfl, rfl, rfl, fun hash => ?_, by decide +kernel, by decide +kernel⟩
  exact ⟨Crypto.merkleRoot hash [[1], []], _, _, (returns_merkleRoot rfl rfl).mpr ⟨rfl, rfl, rfl⟩,
    (returns_merkleRoot rfl rfl).mpr ⟨rfl, rfl, rfl⟩⟩

end Binding

end Respublica.StateDb.Heap
