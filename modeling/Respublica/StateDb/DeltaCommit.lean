import Mathlib.Tactic.FinCases
import Respublica.StateDb.StateRoot

/-!
# Committing a delta

`state_delta::commit` takes the backend of the root, writes the deltas in between into it,
the oldest first, and makes it the backend of the committed delta. At each delta removals
come before objects, so the filled backend holds what the delta showed.

The Merkle root is asked for after the deltas were emptied. A root that was not computed
before is then the root of the removals alone, and a delta that is not final is found out
when the old root has lost its backend.
-/

namespace Respublica.StateDb.Heap

open Foundation Effect Crypto Forest Heap

/-- What draining a path does: the deltas on it keep everything but their objects. -/
structure Drained (path : List Nat) (before after : Heap) : Prop where
  parents : ∀ index, after.parent? index = before.parent? index
  nodes : ∀ index, after.node? index =
    if index ∈ path then
      (before.node? index).map (changeBackend fun backend => { backend with map := ∅ })
    else before.node? index

namespace Drained

variable {path : List Nat} {before after : Heap} (drained : Drained path before after)

include drained

theorem others {index : Nat} (off : index ∉ path) : after.node? index = before.node? index := by
  rw [drained.nodes, if_neg off]

end Drained

variable {heap after : Heap} {index : Nat} {target filled own : Backend} {path : List Nat}
  {node : Delta}

theorem backend_update_of_ne {other : Nat} {change : Delta → Delta} (different : other ≠ index) :
    backend (heap.update index change) other = heap.backend other := by
  rw [backend, backend, node?_update_of_ne different]

/-- Draining a path begins with its oldest delta. -/
theorem returns_drain_cons {younger : List Nat} :
    (drain (index :: younger) target).Returns heap filled after ↔
      ∃ node own, heap.node? index = some node ∧ node.backend = some own ∧
        (drain younger (absorb target node.removedObjects own.map)).Returns
          (heap.update index (changeBackend fun backend => { backend with map := ∅ })) filled
          after := by
  simp only [drain, returns_delta, returns_bind, returns_expect, returns_modify]
  constructor
  · rintro ⟨node, _, ⟨found, rfl⟩, own, _, ⟨stored, rfl⟩, _, _, rfl, gave⟩
    exact ⟨node, own, found, stored, gave⟩
  · rintro ⟨node, own, found, stored, gave⟩
    exact ⟨node, heap, ⟨found, rfl⟩, own, heap, ⟨stored, rfl⟩, (), _, rfl, gave⟩

/-- Whoever drains a path leaves it drained. -/
theorem drained_of_returns (gave : (drain path target).Returns heap filled after) :
    Drained path heap after := by
  induction path generalizing heap target with
  | nil =>
    obtain ⟨-, rfl⟩ := returns_pure.mp gave
    exact ⟨fun _ => rfl, fun _ => by simp⟩
  | cons index younger ih =>
    obtain ⟨node, own, found, stored, rest⟩ := returns_drain_cons.mp gave
    have drained := ih rest
    refine ⟨fun other => ?_, fun other => ?_⟩
    · rw [drained.parents, parent?_update]
    · rw [drained.nodes, node?_update]
      by_cases here : index = other
      · subst here
        by_cases again : index ∈ younger
        · simp [again, found, changeBackend, stored]
        · simp [again]
      · simp [here, Ne.symm here]

/-- A path of deltas with backends can be drained. -/
theorem drain_returns (target : Backend)
    (held : ∀ index ∈ path, ∃ own, heap.backend index = .ok own) :
    ∃ filled after, (drain path target).Returns heap filled after := by
  induction path generalizing heap target with
  | nil => exact ⟨target, heap, returns_pure.mpr ⟨rfl, rfl⟩⟩
  | cons index younger ih =>
    obtain ⟨own, backend⟩ := held index List.mem_cons_self
    obtain ⟨node, found, stored⟩ := backend_eq_ok_iff.mp backend
    obtain ⟨filled, after, gave⟩ : ∃ filled after,
        (drain younger (absorb target node.removedObjects own.map)).Returns
          (heap.update index (changeBackend fun backend => { backend with map := ∅ })) filled
          after := by
      refine ih _ fun other mem => ?_
      obtain ⟨otherOwn, otherBackend⟩ := held other (List.mem_cons_of_mem _ mem)
      by_cases same : other = index
      · obtain ⟨delta, located, delivered⟩ := backend_eq_ok_iff.mp otherBackend
        refine ⟨{ otherOwn with map := ∅ }, backend_eq_ok_iff.mpr ⟨changeBackend
          (fun backend => { backend with map := ∅ }) delta, ?_, ?_⟩⟩
        · rw [node?_update, if_pos same.symm, located]
          rfl
        · simp [changeBackend, delivered]
      · exact ⟨otherOwn, by rw [backend_update_of_ne same, otherBackend]⟩
    exact ⟨filled, after, returns_drain_cons.mpr ⟨node, own, found, stored, gave⟩⟩

/-- The source's loop over the path, as a statement about what deltas show: when a backend
holds what a delta shows, draining a path that starts above that delta makes it hold what
the end of the path shows. -/
theorem drain_shows {state : Heap} {base : Nat}
    (chain : (base :: path).IsChain fun older younger => heap.parent? younger = some older)
    (distinct : path.Nodup) (same : ∀ index ∈ path, state.node? index = heap.node? index)
    (shows : ∀ key, heap.get base key = .ok (target.get key))
    (gave : (drain path target).Returns state filled after) :
    ∀ key, heap.get (path.getLast?.getD base) key = .ok (filled.get key) := by
  induction path generalizing base state target with
  | nil =>
    obtain ⟨rfl, -⟩ := returns_pure.mp gave
    exact shows
  | cons index younger ih =>
    obtain ⟨node, own, found, stored, rest⟩ := returns_drain_cons.mp gave
    obtain ⟨points, youngerChain⟩ := List.isChain_cons_cons.mp chain
    obtain ⟨fresh, youngerDistinct⟩ := List.nodup_cons.mp distinct
    rw [same index List.mem_cons_self] at found
    -- One delta: its objects, then its removals, then what was shown before it.
    have indexShows : ∀ key, heap.get index key =
        .ok ((absorb target node.removedObjects own.map).get key) := by
      intro key
      rw [get_eq found, stored, get_absorb, points]
      simp only [Backend.get]
      cases own.map[key]? with
      | some value => rfl
      | none =>
        simp only [shows key, Backend.get]
        split <;> rfl
    have mid := ih youngerChain youngerDistinct ?_ indexShows rest
    · rw [List.getLast?_cons]
      exact mid
    · intro other mem
      have different : other ≠ index := fun here => fresh (here ▸ mem)
      rw [node?_update_of_ne different, same other (List.mem_cons_of_mem _ mem)]

/-- What is left to do when the path is drained. -/
theorem commit_eq {hash : Bytes → Digest} {heap drained : Heap} {index oldRoot : Nat}
    {path : List Nat} {rootDelta : Delta} {target filled own : Backend}
    (notRoot : heap.root index = false) (ordered : (heap.lineage index).reverse = oldRoot :: path)
    (rootFound : heap.node? oldRoot = some rootDelta) (rootHeld : rootDelta.backend = some target)
    (gave : (drain path target).Returns
      (heap.update oldRoot fun delta => { delta with backend := none }) filled drained)
    (stored : backend drained index = .ok own) :
    commit hash index heap = (do
      let root ← merkleRoot hash index
      Effect.modify fun heap => (heap.update index fun delta =>
        { delta with
          backend := some { filled with
            revision := own.revision, id := own.id, merkleRoot := root }
          removedObjects := ∅ }).detach index : Effect Fault Heap Unit) drained := by
  have readsRoot : (delta oldRoot).Returns heap rootDelta heap := returns_delta.mpr ⟨rootFound, rfl⟩
  have takesBackend : (Effect.modify fun heap : Heap => heap.update oldRoot fun delta =>
      { delta with backend := none } : Effect Fault Heap Unit).Returns heap ()
      (heap.update oldRoot fun delta => { delta with backend := none }) :=
    returns_modify.mpr rfl
  have revised := revision_of_backend stored
  have named := id_of_backend stored
  unfold commit
  rw [(returns_read.mpr ⟨rfl, rfl⟩ : Effect.read.Returns heap heap heap).bind_eq, notRoot,
    if_neg Bool.false_ne_true, ordered]
  simp only
  rw [readsRoot.bind_eq, takesBackend.bind_eq,
    (returns_expect.mpr ⟨rootHeld, rfl⟩).bind_eq, gave.bind_eq,
    (returns_read.mpr ⟨rfl, rfl⟩ : Effect.read.Returns drained drained drained).bind_eq,
    (returns_ofExcept.mpr ⟨revised, rfl⟩).bind_eq,
    (returns_ofExcept.mpr ⟨named, rfl⟩).bind_eq]

/-- Every delta from the given one down to its root has its backend. -/
def Held (heap : Heap) (index : Nat) : Prop :=
  ∀ layer ∈ heap.lineage index, ∃ own, heap.backend layer = .ok own

/-- In a backed heap every chain has its backends. -/
theorem held_of_backed (backed : heap.Backed) (index : Nat) : heap.Held index := by
  intro layer mem
  obtain ⟨-, own, -, -, stored⟩ := backend_of_backed backed (lt_size_of_mem_lineage mem)
  exact ⟨own, stored⟩

/-- The chain of a delta as the source goes through it: the root first and the delta last. -/
structure CommitPath (heap : Heap) (index oldRoot : Nat) (path : List Nat) : Prop where
  ordered : (heap.lineage index).reverse = oldRoot :: path
  isRoot : heap.parent? oldRoot = none
  fresh : oldRoot ∉ path
  distinct : path.Nodup
  ends : path.getLast? = some index
  chain : (oldRoot :: path).IsChain fun older younger => heap.parent? younger = some older

/-- Every delta that is no root has such a chain. -/
theorem exists_commitPath (inside : index < heap.size) (notRoot : heap.root index = false) :
    ∃ oldRoot path, CommitPath heap index oldRoot path := by
  obtain ⟨younger, oldRoot, ends, isRoot⟩ := exists_root inside
  have ordered : (heap.lineage index).reverse = oldRoot :: younger.reverse := by
    rw [ends, List.reverse_append]
    rfl
  have distinct : (oldRoot :: younger.reverse).Nodup := by
    rw [← ordered, List.nodup_reverse]
    exact heap.nodup_lineage index
  have chain := List.isChain_reverse.mpr (heap.isChain_lineage index)
  rw [ordered] at chain
  refine ⟨oldRoot, younger.reverse, ordered, isRoot, (List.nodup_cons.mp distinct).1,
    (List.nodup_cons.mp distinct).2, ?_, chain⟩
  cases younger with
  | nil =>
    rw [lineage_eq, if_pos inside, List.nil_append, List.cons.injEq] at ends
    rw [← ends.1] at isRoot
    simp [root, isRoot] at notRoot
  | cons first rest =>
    rw [lineage_eq, if_pos inside, List.cons_append, List.cons.injEq] at ends
    rw [List.getLast?_reverse, List.head?_cons, ends.1]

namespace CommitPath

variable {oldRoot other : Nat} (along : CommitPath heap index oldRoot path)

include along

/-- The chain is the root and the path. -/
theorem mem_lineage_iff : other ∈ heap.lineage index ↔ other = oldRoot ∨ other ∈ path := by
  rw [← List.mem_reverse, along.ordered, List.mem_cons]

theorem index_mem : index ∈ path := List.mem_of_getLast? along.ends

theorem ne_oldRoot (mem : other ∈ path) : other ≠ oldRoot := fun same => along.fresh (same ▸ mem)

/-- The root is the only one on the chain. -/
theorem eq_oldRoot (mem : other ∈ heap.lineage index) (isTop : heap.parent? other = none) :
    other = oldRoot := by
  have ordered := along.ordered
  obtain ⟨younger, split, -⟩ := lineage_ends_at_root isTop mem
  rw [split, List.reverse_append, List.reverse_singleton, List.singleton_append,
    List.cons.injEq] at ordered
  exact ordered.1

/-- The chain can be drained into the backend of its root, which then holds what the delta showed
before. -/
theorem drains {rootDelta : Delta} (held : heap.Held index)
    (rootFound : heap.node? oldRoot = some rootDelta) (rootHeld : rootDelta.backend = some target) :
    ∃ filled drained, (drain path target).Returns
        (heap.update oldRoot fun delta => { delta with backend := none }) filled drained ∧
      ∀ key, heap.get index key = .ok (filled.get key) := by
  have pathHeld : ∀ other ∈ path, ∃ own, backend
      (heap.update oldRoot fun delta => { delta with backend := none }) other = .ok own := by
    intro other mem
    obtain ⟨otherOwn, otherBackend⟩ := held other (along.mem_lineage_iff.mpr (.inr mem))
    exact ⟨otherOwn, by rw [backend_update_of_ne (along.ne_oldRoot mem), otherBackend]⟩
  obtain ⟨filled, drained, gave⟩ := drain_returns target pathHeld
  have rootShows : ∀ key, heap.get oldRoot key = .ok (target.get key) := by
    intro key
    rw [get_eq rootFound, rootHeld, along.isRoot]
    cases held : target.get key <;> simp [held]
  have shows := drain_shows along.chain along.distinct
    (fun other mem => node?_update_of_ne (along.ne_oldRoot mem)) rootShows gave
  rw [along.ends, Option.getD_some] at shows
  exact ⟨filled, drained, gave, shows⟩

end CommitPath

/-- What a commit leaves: the delta is a root with the filled backend, under its old id,
revision and the Merkle root, the old root has lost its backend, and deltas off the chain are
untouched. -/
structure Committed (before after : Heap) (index : Nat) (own filled : Backend) (root : Digest) :
    Prop where
  node : after.node? index = some
    ⟨some { filled with revision := own.revision, id := own.id, merkleRoot := root }, ∅, some root,
      true⟩
  others : ∀ other, other ∉ before.lineage index → after.node? other = before.node? other
  parents : ∀ other, after.parent? other = if index = other then none else before.parent? other
  taken : ∀ other ∈ before.lineage index, before.parent? other = none →
    after.backend other = .error .nullDereference

/-- Draining the chain of a delta: the filled backend holds what the delta shows, and the
rest of the commit runs on a heap in which the chain was emptied. -/
theorem drain_chain (hash : Bytes → Digest) (held : heap.Held index)
    (notRoot : heap.root index = false) (found : heap.node? index = some node)
    (stored : node.backend = some own) :
    ∃ (filled : Backend) (drained : Heap),
      (∀ key, heap.get index key = .ok (filled.get key)) ∧
      drained.node? index = some { node with backend := some { own with map := ∅ } } ∧
      (∀ other, other ∉ heap.lineage index → drained.node? other = heap.node? other) ∧
      (∀ other, drained.parent? other = heap.parent? other) ∧
      (∀ other ∈ heap.lineage index, heap.parent? other = none → other ≠ index ∧
        backend drained other = .error .nullDereference) ∧
      commit hash index heap = (do
        let root ← merkleRoot hash index
        Effect.modify fun heap => (heap.update index fun delta =>
          { delta with
            backend := some { filled with
              revision := own.revision, id := own.id, merkleRoot := root }
            removedObjects := ∅ }).detach index : Effect Fault Heap Unit) drained := by
  obtain ⟨oldRoot, path, along⟩ := exists_commitPath (lt_size_of_node? found) notRoot
  have different := along.ne_oldRoot along.index_mem
  obtain ⟨target, rootBackend⟩ := held oldRoot (along.mem_lineage_iff.mpr (.inl rfl))
  obtain ⟨rootDelta, rootFound, rootHeld⟩ := backend_eq_ok_iff.mp rootBackend
  obtain ⟨filled, drained, gave, shows⟩ := along.drains held rootFound rootHeld
  have emptied := drained_of_returns gave
  have drainedNode : drained.node? index =
      some { node with backend := some { own with map := ∅ } } := by
    rw [emptied.nodes, if_pos along.index_mem, node?_update_of_ne different, found]
    simp [changeBackend, stored]
  refine ⟨filled, drained, shows, drainedNode, ?_, ?_, ?_, ?_⟩
  · intro other off
    rw [along.mem_lineage_iff, not_or] at off
    rw [emptied.others off.2, node?_update_of_ne off.1]
  · intro other
    rw [emptied.parents, parent?_update]
  · intro other mem isTop
    obtain rfl := along.eq_oldRoot mem isTop
    refine ⟨different.symm, ?_⟩
    rw [backend, emptied.others along.fresh, node?_update_self, rootFound]
    rfl
  · have left : backend drained index = .ok { own with map := ∅ } :=
      backend_eq_ok_iff.mpr ⟨_, drainedNode, rfl⟩
    have continues : commit hash index heap = _ :=
      commit_eq notRoot along.ordered rootFound rootHeld gave left
    exact continues

/-- Committing a final delta returns. -/
theorem commit_outcome (hash : Bytes → Digest) (held : heap.Held index)
    (notRoot : heap.root index = false) (found : heap.node? index = some node)
    (stored : node.backend = some own) (isFinal : node.final = true) :
    ∃ filled after, (commit hash index).Returns heap () after ∧
      (∀ key, heap.get index key = .ok (filled.get key)) ∧
      Committed heap after index own filled (currentRoot hash node { own with map := ∅ }) := by
  obtain ⟨filled, drained, shows, drainedNode, others, parents, taken, continues⟩ :=
    drain_chain hash held notRoot found stored
  let root := currentRoot hash node { own with map := ∅ }
  have rooted : (merkleRoot hash index).Returns drained root _ :=
    (returns_merkleRoot drainedNode rfl).mpr ⟨isFinal, rfl, rfl⟩
  refine ⟨filled, _, continues.trans (returns_bind.mpr ⟨root, _, rooted,
    returns_modify.mpr rfl⟩), shows, ?_, ?_, ?_, ?_⟩
  · simp [drainedNode, isFinal, root]
  · intro other off
    have away : other ≠ index := by
      rintro rfl
      exact off (mem_lineage_self (lt_size_of_node? found))
    rw [node?_detach, node?_update_of_ne away, node?_update_of_ne away, others other off]
  · intro other
    rw [parent?_detach, parent?_update, parent?_update, parents]
  · intro other mem isTop
    obtain ⟨away, reset⟩ := taken other mem isTop
    rw [backend, node?_detach, node?_update_of_ne away, node?_update_of_ne away]
    exact reset

/-- A committed delta and every delta above it show what they showed. -/
theorem Committed.get {before : Heap} {root : Digest}
    (committed : Committed before after index own filled root)
    (shows : ∀ key, before.get index key = .ok (filled.get key)) {other : Nat}
    (descends : index ∈ before.lineage other) (key : Bytes) :
    after.get other key = before.get other key := by
  induction other using Nat.strong_induction_on with
  | _ other ih =>
    by_cases here : other = index
    · subst here
      rw [get_eq committed.node, shows key, committed.parents, if_pos rfl]
      simp only [Backend.get]
      cases filled.map[key]? <;> simp
    · have inside := inside_of_mem_lineage descends
      obtain ⟨delta, found⟩ := Option.isSome_iff_exists.mp (node?_isSome_iff.mpr inside)
      obtain ⟨parent, points⟩ : ∃ parent, before.parent? other = some parent := by
        cases points : before.parent? other with
        | none =>
          rw [lineage_of_root inside points, List.mem_singleton] at descends
          exact absurd descends.symm here
        | some parent => exact ⟨parent, rfl⟩
      have above : index ∈ before.lineage parent := by
        rw [lineage_of_child inside points, List.mem_cons] at descends
        exact descends.resolve_left (Ne.symm here)
      have off : other ∉ before.lineage index := fun mem =>
        here (Nat.le_antisymm (le_of_mem_lineage mem) (le_of_mem_lineage descends))
      have kept : after.node? other = some delta := by rw [committed.others other off, found]
      have linked : after.parent? other = some parent := by
        rw [committed.parents, if_neg (Ne.symm here), points]
      rw [get_eq kept, get_eq found, linked, points]
      simp only [ih parent (parent?_lt points) above]

/-- Committing a final delta whose Merkle root is known makes it a root with the same id,
revision and Merkle root, and neither it nor any delta above it shows anything else than
before. -/
theorem commit_preserves_state {hash : Bytes → Digest} {heap : Heap} {index : Nat} {root : Digest}
    (held : heap.Held index) (notRoot : heap.root index = false)
    (isFinal : heap.final index = true)
    (computed : (heap.node? index).bind Delta.merkleRoot = some root) :
    ∃ after, (commit hash index).Returns heap () after ∧ after.root index = true ∧
      after.id index = heap.id index ∧ after.revision index = heap.revision index ∧
      (merkleRoot hash index).Returns heap root heap ∧
      (merkleRoot hash index).Returns after root after ∧
      ∀ other, index ∈ heap.lineage other → ∀ key, after.get other key = heap.get other key := by
  obtain ⟨node, found, cached⟩ := Option.bind_eq_some_iff.mp computed
  have inside := lt_size_of_node? found
  obtain ⟨own, backend⟩ := held index (mem_lineage_self inside)
  obtain ⟨delta, located, stored⟩ := backend_eq_ok_iff.mp backend
  obtain rfl : node = delta := Option.some.inj (found.symm.trans located)
  rw [final_eq found] at isFinal
  obtain ⟨filled, after, gave, shows, committed⟩ :=
    commit_outcome hash held notRoot found stored isFinal
  have known (own : Backend) : currentRoot hash node own = root := by simp [currentRoot, cached]
  rw [known] at committed
  have afterBackend := backend_eq_ok_iff.mpr ⟨_, committed.node, rfl⟩
  refine ⟨after, gave, ?_, ?_, ?_, ?_, ?_, fun other descends key =>
    committed.get shows descends key⟩
  · simp [Heap.root, committed.parents]
  · rw [Heap.id, Heap.id, afterBackend, backend]
    rfl
  · rw [revision, revision, afterBackend, backend]
    rfl
  · refine (returns_merkleRoot found stored).mpr ⟨isFinal, (known own).symm, ?_⟩
    refine (update_eq_self fun delta located => ?_).symm
    obtain rfl : node = delta := Option.some.inj (found.symm.trans located)
    rw [← cached]
  · refine (returns_merkleRoot committed.node rfl).mpr ⟨rfl, rfl, ?_⟩
    refine (update_eq_self fun delta located => ?_).symm
    rw [committed.node] at located
    rw [← Option.some.inj located]

/-- A root with two objects and two deltas on it: the first removes one object and stores it
again, the second removes the other; a third, above, stores an object. -/
def stacking : List Call :=
  [.put 0 [1] [7], .put 0 [2] [7], .makeChild 0 nullId, .remove 1 [1], .put 1 [1] [8],
    .makeChild 1 nullId, .remove 2 [2], .finalize 2, .makeChild 2 nullId, .put 3 [3] [9]]

/-- The theorem applies to the second delta of `stacking` once its Merkle root is computed. -/
theorem commit_preserves_state_in_stacking :
    ∃ after, (commit shortHash 2).Returns (merkleRoot shortHash 2 (afterCalls stacking)).2
      () after ∧
      after.root 2 = true ∧ after.get 2 [1] = .ok (some [8]) ∧ after.get 3 [2] = .ok none := by
  have held : Held (merkleRoot shortHash 2 (afterCalls stacking)).2 2 := by
    have lineage : (merkleRoot shortHash 2 (afterCalls stacking)).2.lineage 2 = [2, 1, 0] := by
      decide +kernel
    intro layer mem
    rw [lineage] at mem
    fin_cases mem <;> exact ⟨_, rfl⟩
  obtain ⟨after, gave, isRoot, -, -, -, -, shows⟩ :=
    commit_preserves_state held rfl rfl (show _ = some _ from rfl)
  refine ⟨after, gave, isRoot, ?_, ?_⟩
  · rw [shows 2 (by decide +kernel)]
    decide +kernel
  · rw [shows 3 (by decide +kernel)]
    decide +kernel

section Stability

/-- The Merkle root in the backend of a delta. -/
def storedRoot (heap : Heap) (index : Nat) : Except Fault Digest :=
  Backend.merkleRoot <$> heap.backend index

/-- A final delta can be committed with or without asking for its Merkle root before, and all
Merkle roots seen are the same: the one asked for, the ones stored, and the one answered
afterwards. -/
def RootStable (hash : Bytes → Digest) (heap : Heap) (index : Nat) : Prop :=
  ∃ root computed after direct, (merkleRoot hash index).Returns heap root computed ∧
    (commit hash index).Returns computed () after ∧ (commit hash index).Returns heap () direct ∧
    after.storedRoot index = .ok root ∧ direct.storedRoot index = .ok root ∧
    (merkleRoot hash index).Returns direct root direct

/-- The commit throws and changes nothing. -/
def CommitRefused (hash : Bytes → Digest) (heap : Heap) (index : Nat) : Prop :=
  (∃ what, (commit hash index).Faults heap (.exception what)) ∧ (commit hash index heap).2 = heap

variable {hash : Bytes → Digest} {heap : Heap} {index : Nat} {node : Delta} {own : Backend}

/-- A delta that is not final is refused when its root has lost its backend. -/
theorem not_commitRefused (held : heap.Held index) (notRoot : heap.root index = false)
    (found : heap.node? index = some node) (stored : node.backend = some own)
    (notFinal : node.final = false) : ¬ CommitRefused hash heap index := by
  rintro ⟨-, unchanged⟩
  obtain ⟨filled, drained, -, drainedNode, -, -, taken, continues⟩ :=
    drain_chain hash held notRoot found stored
  have stopped := merkleRoot_of_not_final hash drainedNode notFinal
  rw [continues, bind_eq_of_error stopped] at unchanged
  -- The root at the end of the chain had a backend and has none now.
  obtain ⟨younger, oldRoot, ends, isRoot⟩ := exists_root (lt_size_of_node? found)
  have mem : oldRoot ∈ heap.lineage index := by
    rw [ends]
    exact List.mem_append_right _ (List.mem_singleton.mpr rfl)
  obtain ⟨target, backend⟩ := held oldRoot mem
  have reset := (taken oldRoot mem isRoot).2
  rw [show drained = heap from unchanged, backend] at reset
  cases reset

/-- Committing without asking for the Merkle root before stores that of the removals alone. -/
theorem rootStable_iff (held : heap.Held index) (notRoot : heap.root index = false)
    (found : heap.node? index = some node) (stored : node.backend = some own)
    (isFinal : node.final = true) :
    RootStable hash heap index ↔
      currentRoot hash node own = currentRoot hash node { own with map := ∅ } := by
  obtain ⟨filled, direct, gave, -, committed⟩ :=
    commit_outcome hash held notRoot found stored isFinal
  have directBackend := backend_eq_ok_iff.mpr ⟨_, committed.node, rfl⟩
  have directRoot : direct.storedRoot index =
      .ok (currentRoot hash node { own with map := ∅ }) := by
    rw [storedRoot, directBackend]
    rfl
  constructor
  · rintro ⟨root, computed, after, other, rooted, -, again, -, otherRoot, -⟩
    obtain ⟨-, rfl⟩ := again.unique gave
    obtain ⟨-, rfl, -⟩ := (returns_merkleRoot found stored).mp rooted
    rw [directRoot] at otherRoot
    exact (Except.ok.inj otherRoot).symm
  · intro same
    let root := currentRoot hash node own
    let computed := heap.update index fun delta => { delta with merkleRoot := some root }
    have rooted : (merkleRoot hash index).Returns heap root computed :=
      (returns_merkleRoot found stored).mpr ⟨isFinal, rfl, rfl⟩
    have computedNode : computed.node? index = some { node with merkleRoot := some root } := by
      simp [computed, found]
    have computedHeld : Heap.Held computed index := by
      intro layer mem
      rw [lineage_update] at mem
      obtain ⟨layerOwn, backend⟩ := held layer mem
      obtain ⟨layerNode, layerFound, layerStored⟩ := backend_eq_ok_iff.mp backend
      by_cases here : layer = index
      · subst here
        exact ⟨own, backend_eq_ok_iff.mpr ⟨_, computedNode, stored⟩⟩
      · exact ⟨layerOwn, by rw [backend_update_of_ne here, backend]⟩
    have computedRoot : Heap.root computed index = false := by
      simpa [Heap.root, computed] using notRoot
    obtain ⟨refilled, after, afterReturned, -, afterCommitted⟩ :=
      commit_outcome hash computedHeld computedRoot computedNode stored isFinal
    have afterBackend := backend_eq_ok_iff.mpr ⟨_, afterCommitted.node, rfl⟩
    refine ⟨root, computed, after, direct, rooted, afterReturned, gave, ?_, ?_, ?_⟩
    · rw [storedRoot, afterBackend]
      rfl
    · rw [directRoot, ← same]
    · refine (returns_merkleRoot committed.node rfl).mpr ⟨rfl, ?_, ?_⟩
      · simp [currentRoot, same, root]
      · refine (update_eq_self fun delta located => ?_).symm
        rw [committed.node] at located
        rw [← Option.some.inj located]
        simp [root, same]

/-- Some hash tells a delta with objects from its removals alone. -/
theorem exists_root_ne_removals {objects : Objects} (removed : Keys)
    (fits : objects.size < 2 ^ 64) (nonempty : objects ≠ ∅) :
    ∃ hash, Crypto.merkleRoot hash (merkleLeafs objects.toList removed.toList) ≠
      Crypto.merkleRoot hash (merkleLeafs (∅ : Objects).toList removed.toList) := by
  have perm : (merkleLeafs objects.toList removed.toList).Perm
      (merkleLeafs (∅ : Objects).toList removed.toList ++ recordLeafs objects.toList) := by
    have all := (mergeRecords_perm objects.toList removed.toList).flatMap_right
      fun record : Bytes × Bytes => [record.1, record.2]
    rw [List.flatMap_append] at all
    rw [merkleLeafs_eq, merkleLeafs_eq]
    exact all
  have someObject : objects.toList ≠ [] := by
    intro none
    refine nonempty (Std.ExtTreeMap.ext_getElem? fun {key} => ?_)
    cases stored : objects[key]? with
    | none => simp
    | some value =>
      have mem := Std.ExtTreeMap.mem_toList_iff_getElem?_eq_some.mpr stored
      rw [none] at mem
      cases mem
  obtain ⟨⟨key, value⟩, rest, split⟩ := List.exists_cons_of_ne_nil someObject
  have mem : key ∈ recordLeafs objects.toList := by simp [split, recordLeafs]
  have counted : (recordLeafs objects.toList).length = 2 * objects.size := by
    rw [recordLeafs, List.length_flatMap, ← Std.ExtTreeMap.length_toList]
    simp [Nat.mul_comm]
  have rare := List.count_le_length (a := key) (l := recordLeafs objects.toList)
  have room : (2 : Nat) ^ 65 < 256 ^ 31 := by decide
  exact Crypto.exists_merkleRoot_ne perm mem (by omega)

/-- Whatever the hash, a delta that is not a root is committed with a stable Merkle root, and
refused without a trace when it is not final, exactly when it is final and its Merkle root
was computed before or it holds no objects. -/
theorem commit_sound_iff (held : heap.Held index) (notRoot : heap.root index = false)
    (found : heap.node? index = some node) (stored : node.backend = some own)
    (fits : own.map.size < 2 ^ 64) :
    (∀ hash, (heap.final index = true → RootStable hash heap index) ∧
        (heap.final index = false → CommitRefused hash heap index)) ↔
      heap.final index = true ∧ (node.merkleRoot.isSome ∨ own.map = ∅) := by
  rw [final_eq found]
  constructor
  · intro sound
    cases isFinal : node.final with
    | false =>
      exact absurd ((sound (SizedBytes.fit 32)).2 isFinal)
        (not_commitRefused held notRoot found stored isFinal)
    | true =>
      refine ⟨rfl, ?_⟩
      by_contra neither
      obtain ⟨uncached, nonempty⟩ := not_or.mp neither
      rw [Option.not_isSome_iff_eq_none] at uncached
      obtain ⟨hash, different⟩ := exists_root_ne_removals node.removedObjects fits nonempty
      have stable := (rootStable_iff held notRoot found stored isFinal).mp
        ((sound hash).1 isFinal)
      simp only [currentRoot, uncached, Option.getD_none] at stable
      exact different stable
  · rintro ⟨isFinal, cachedOrEmpty⟩ hash
    refine ⟨fun _ => (rootStable_iff held notRoot found stored isFinal).mpr ?_, fun notFinal => ?_⟩
    · rcases cachedOrEmpty with cached | empty
      · obtain ⟨root, known⟩ := Option.isSome_iff_exists.mp cached
        simp [currentRoot, known]
      · simp [currentRoot, empty]
    · rw [isFinal] at notFinal
      cases notFinal

/-- A final delta with a removal only. -/
def removing : List Call := [.put 0 [1] [7], .makeChild 0 nullId, .remove 1 [1], .finalize 1]

/-- The theorem applies to a delta that holds no objects. -/
theorem commit_sound_iff_when_removing :
    (afterCalls removing).final 1 = true ∧ ∀ hash, RootStable hash (afterCalls removing) 1 := by
  have held : Held (afterCalls removing) 1 := by
    have lineage : (afterCalls removing).lineage 1 = [1, 0] := by decide +kernel
    intro layer mem
    rw [lineage] at mem
    fin_cases mem <;> exact ⟨_, rfl⟩
  have empty : (Backend.remove (Backend.create nullId 1) [1]).map = ∅ := by
    simp [Backend.remove, Backend.create]
  have sound := (commit_sound_iff held rfl (show _ = some _ from rfl) (show _ = some _ from rfl)
    (by decide +kernel)).mpr ⟨rfl, .inr empty⟩
  exact ⟨rfl, fun hash => (sound hash).1 rfl⟩

/-- A delta with an object, before and after it is made final. -/
def storing : List Call := [.put 0 [1] [7], .makeChild 0 nullId, .put 1 [2] [5]]

/-- Committing the final delta stores a Merkle root that it did not have, and committing it
before it is final throws and takes away what the root held. -/
theorem commit_depends_on_order :
    (∃ root computed direct stored,
      (merkleRoot shortHash 1).Returns (afterCalls (storing ++ [.finalize 1])) root computed ∧
      (commit shortHash 1).Returns (afterCalls (storing ++ [.finalize 1])) () direct ∧
      direct.storedRoot 1 = .ok stored ∧ stored ≠ root) ∧
    (commit shortHash 1).Faults (afterCalls storing)
      (.exception "cannot return merkle root of non-final node") ∧
    (afterCalls storing).get 0 [1] = .ok (some [7]) ∧
    (commit shortHash 1 (afterCalls storing)).2.get 0 [1] = .error .nullDereference := by
  refine ⟨?_, ?_, by decide +kernel, by decide +kernel⟩
  swap
  · change (commit shortHash 1 (afterCalls storing)).1 = _
    decide +kernel
  have rooted : (merkleRoot shortHash 1 (afterCalls (storing ++ [.finalize 1]))).1 =
      .ok (Crypto.merkleRoot shortHash [[2], [5]]) := by decide +kernel
  have committed : (commit shortHash 1 (afterCalls (storing ++ [.finalize 1]))).1 = .ok () := by
    decide +kernel
  exact ⟨_, _, _, SizedBytes.zero 32, returns_of_fst rooted, returns_of_fst committed,
    by decide +kernel, by decide +kernel⟩

end Stability

end Respublica.StateDb.Heap
