import Respublica.Foundation.Overlay
import Respublica.StateDb.Delta

/-!
# What a delta shows

`abstraction` reads a heap of deltas as a tree of overlays: a delta records its stored
objects as values and its removed keys as deletions, and a root records every other
key as deleted, since nothing lies below it. `get` computes the view of that tree.
Each mutating routine then gets one lemma that says when it returns and which overlay
operation it performed.
-/

namespace Respublica.StateDb

open Foundation Effect Forest

/-- The overlay a delta stands for, given its parent pointer. -/
def Delta.overlay (parent : Option Nat) (delta : Delta) : Overlay Bytes Bytes := fun key =>
  match delta.backend.bind (Backend.get · key) with
  | some value => some (.put value)
  | none => if parent.isNone || delta.removedObjects.contains key then some .deleted else none

namespace Heap

/-- The tree of overlays a heap stands for. -/
def abstraction (heap : Heap) : OverlayTree Bytes Bytes := heap.mapNodes Delta.overlay

/-- The map a delta shows. -/
def view (heap : Heap) (index : Nat) : Bytes → Option Bytes :=
  OverlayTree.view heap.abstraction index

/-- The map a delta's own records are read on: its parent's view, or nothing. -/
def below (heap : Heap) (index : Nat) (key : Bytes) : Option Bytes :=
  (heap.parent? index).bind (heap.view · key)

/-- No backend pointer has been taken away. -/
def Backed (heap : Heap) : Prop :=
  ∀ index delta, heap.node? index = some delta → delta.backend.isSome

variable {heap after : Heap} {index created : Nat} {key : Bytes} {size : Int} {result : Unit}
  {rel : Heap → Heap → Prop}

/-- The overlay of a delta is read off the delta. -/
theorem overlay_abstraction {delta : Delta} (found : heap.node? index = some delta) :
    OverlayTree.overlay heap.abstraction index = delta.overlay (heap.parent? index) := by
  simp [OverlayTree.overlay, abstraction, found]

/-- The view of a delta: its backend, then its removals, then its parent's view. -/
theorem view_eq {delta : Delta} (found : heap.node? index = some delta) (key : Bytes) :
    heap.view index key =
      match delta.backend.bind (Backend.get · key) with
      | some value => some value
      | none =>
        if delta.removedObjects.contains key then none
        else heap.below index key := by
  have inside : index < heap.abstraction.size := by
    simpa [abstraction] using lt_size_of_node? found
  have unfolded := congrFun (OverlayTree.view_eq inside) key
  rw [overlay_abstraction found] at unfolded
  rw [view, unfolded, Overlay.atop, Delta.overlay]
  cases delta.backend.bind (Backend.get · key) with
  | some value => rfl
  | none =>
    simp only [OverlayTree.below, abstraction, parent?_mapNodes, Bool.or_eq_true, below]
    cases heap.parent? index with
    | none => simp
    | some parent =>
      by_cases removed : delta.removedObjects.contains key <;> simp [removed, view, abstraction]

/-- `get` runs along the lineage one delta at a time. -/
theorem get_eq {delta : Delta} (found : heap.node? index = some delta) (key : Bytes) :
    heap.get index key =
      match delta.backend with
      | none => .error .nullDereference
      | some backend =>
        match backend.get key with
        | some value => .ok (some value)
        | none =>
          if delta.removedObjects.contains key then .ok none
          else match heap.parent? index with
            | none => .ok none
            | some parent => heap.get parent key := by
  have inside := lt_size_of_node? found
  rw [get, lineage_eq, if_pos inside, getAlong, found]
  cases held : delta.backend with
  | none => simp [held]
  | some backend =>
    cases stored : backend.get key with
    | some value => simp [held, stored]
    | none =>
      cases points : heap.parent? index with
      | none => simp [held, stored, root, points]
      | some parent => simp [held, stored, root, points, get]

/-- A value that `get` returned is the value in view. -/
theorem view_of_get {value : Option Bytes} (got : heap.get index key = .ok value) :
    heap.view index key = value := by
  induction index using Nat.strong_induction_on with
  | _ index ih =>
    cases found : heap.node? index with
    | none =>
      have outside : ¬ index < heap.size := by simp [← node?_isSome_iff, found]
      rw [get, lineage_eq, if_neg outside] at got
      cases got
    | some delta =>
      rw [get_eq found] at got
      rw [view_eq found]
      cases held : delta.backend with
      | none => simp [held] at got
      | some backend =>
        simp only [held, Option.bind_some] at got ⊢
        cases stored : backend.get key with
        | some old => simpa [stored] using got
        | none =>
          simp only [stored] at got ⊢
          split at got
          · rename_i removed
            rw [if_pos removed]
            exact Except.ok.inj got
          · rename_i kept
            rw [if_neg kept, below]
            cases points : heap.parent? index with
            | none =>
              rw [points] at got
              exact Except.ok.inj got
            | some parent =>
              rw [points] at got
              exact ih parent (parent?_lt points) got

/-- On a heap with all its backends `get` always returns. -/
theorem get_of_backed (backed : heap.Backed) (inside : index < heap.size) (key : Bytes) :
    heap.get index key = .ok (heap.view index key) := by
  suffices returns : ∃ value, heap.get index key = .ok value by
    obtain ⟨value, got⟩ := returns
    rw [view_of_get got, got]
  induction index using Nat.strong_induction_on with
  | _ index ih =>
    obtain ⟨delta, found⟩ := Option.isSome_iff_exists.mp (node?_isSome_iff.mpr inside)
    obtain ⟨backend, held⟩ := Option.isSome_iff_exists.mp (backed index delta found)
    rw [get_eq found, held]
    simp only
    split
    · exact ⟨_, rfl⟩
    · split
      · exact ⟨_, rfl⟩
      · split
        · exact ⟨_, rfl⟩
        · rename_i parent points
          have older := parent?_lt points
          exact ih parent older (Nat.lt_trans older inside)

/-- A delta with a backend is found with it. -/
theorem backend_eq_ok_iff {backend : Backend} :
    heap.backend index = .ok backend ↔
      ∃ delta, heap.node? index = some delta ∧ delta.backend = some backend := by
  rw [Heap.backend]
  rcases heap.node? index with _ | delta
  · simp
  · cases held : delta.backend <;> simp [held]

theorem final_eq {delta : Delta} (found : heap.node? index = some delta) :
    heap.final index = delta.final := by
  simp [final, found]

/-- A delta with a backend exists. -/
theorem lt_size_of_backend {backend : Backend} (held : heap.backend index = .ok backend) :
    index < heap.size := by
  obtain ⟨delta, found, -⟩ := backend_eq_ok_iff.mp held
  exact lt_size_of_node? found

/-- The revision of a delta is that of its backend. -/
theorem revision_of_backend {backend : Backend} (held : heap.backend index = .ok backend) :
    heap.revision index = .ok backend.revision := by
  rw [Heap.revision, held]
  rfl

/-- The id of a delta is that of its backend. -/
theorem id_of_backend {backend : Backend} (held : heap.backend index = .ok backend) :
    heap.id index = .ok backend.id := by
  rw [Heap.id, held]
  rfl

/-- A final delta exists. -/
theorem lt_size_of_final (isFinal : heap.final index = true) :
    index < heap.size := by
  rw [← node?_isSome_iff]
  by_contra absent
  rw [Option.not_isSome_iff_eq_none] at absent
  simp [final, absent] at isFinal

/-- What is subtracted for the parent is the size of the object in its view. -/
theorem parentSize_eq (gave : heap.parentSize index key = .ok size) :
    size = ((heap.below index key).map fun value => - Backend.objectSize key value).getD 0 := by
  rw [parentSize] at gave
  rw [below]
  cases points : heap.parent? index with
  | none => simpa [points, eq_comm] using gave
  | some parent =>
    rw [points] at gave
    obtain ⟨value, got, gave⟩ := bind_eq_ok.mp gave
    rw [Option.bind_some, view_of_get got]
    cases value with
    | none => exact (Except.ok.inj gave).symm
    | some value => exact (Except.ok.inj gave).symm

/-- In a backed heap the size in the parent is known. -/
theorem parentSize_of_backed (backed : heap.Backed) (index : Nat) (key : Bytes) :
    ∃ size, heap.parentSize index key = .ok size := by
  rw [parentSize]
  cases points : heap.parent? index with
  | none => exact ⟨0, rfl⟩
  | some parent =>
    obtain ⟨delta, found⟩ := node?_parent points
    simp only [get_of_backed backed (lt_size_of_node? found), bind, Except.bind]
    cases heap.view parent key <;> exact ⟨_, rfl⟩

theorem returns_delta {node : Delta} :
    (delta index).Returns heap node after ↔ heap.node? index = some node ∧ after = heap := by
  simp only [delta, returns_bind, returns_read, returns_expect]
  constructor
  · rintro ⟨_, _, ⟨rfl, rfl⟩, found, rfl⟩
    exact ⟨found, rfl⟩
  · rintro ⟨found, rfl⟩
    exact ⟨after, after, ⟨rfl, rfl⟩, found, rfl⟩

/-- When `put` returns, what it did and the size it reports. -/
theorem returns_put {value : Bytes} :
    (put index key value).Returns heap size after ↔
      heap.final index = false ∧ ∃ parentSize backend,
        heap.parentSize index key = .ok parentSize ∧ heap.backend index = .ok backend ∧
        size = parentSize + backend.putSize key value ∧
        after = heap.update index (changeBackend (Backend.put · key value)) := by
  simp only [put, returns_bind, returns_read, returns_ite,
    not_returns_fail, returns_ofExcept, returns_modify, returns_pure,
    if_false_left]
  constructor
  · rintro ⟨_, _, ⟨rfl, rfl⟩, notFinal, parent, _, ⟨fromParent, rfl⟩, backend, _, ⟨held, rfl⟩,
      _, _, rfl, rfl, rfl⟩
    exact ⟨by simpa using notFinal, parent, backend, fromParent, held, rfl, rfl⟩
  · rintro ⟨notFinal, parent, backend, fromParent, held, rfl, rfl⟩
    exact ⟨_, _, ⟨rfl, rfl⟩, by simpa using notFinal, parent, _, ⟨fromParent, rfl⟩, backend, _,
      ⟨held, rfl⟩, (), _, rfl, rfl, rfl⟩

/-- A write to a final delta stops at once. -/
theorem put_of_final (final : heap.final index = true) (key value : Bytes) :
    put index key value heap =
      (.error (.exception "cannot modify a final state delta"), heap) := by
  rw [put, read_bind, if_pos final]
  rfl

/-- A final delta refuses removals. -/
theorem remove_of_final (final : heap.final index = true) (key : Bytes) : remove index key heap =
      (.error (.exception "cannot modify a final state delta"), heap) := by
  rw [remove, read_bind, if_pos final]
  rfl

/-- When `remove` returns, what it did and the size it reports. -/
theorem returns_remove :
    (remove index key).Returns heap size after ↔
      heap.final index = false ∧ ∃ own, heap.backend index = .ok own ∧
        heap.removeSize index key own = .ok size ∧
        after = heap.update index (removeKey key size) := by
  simp only [remove, returns_bind, returns_read, returns_ite,
    not_returns_fail, returns_ofExcept, returns_modify, returns_pure,
    if_false_left]
  constructor
  · rintro ⟨_, _, ⟨rfl, rfl⟩, notFinal, own, _, ⟨held, rfl⟩, size, _, ⟨sized, rfl⟩, _, _, rfl,
      rfl, rfl⟩
    exact ⟨by simpa using notFinal, own, held, sized, rfl⟩
  · rintro ⟨notFinal, own, held, sized, rfl⟩
    exact ⟨_, _, ⟨rfl, rfl⟩, by simpa using notFinal, own, _, ⟨held, rfl⟩, size, _, ⟨sized, rfl⟩,
      (), _, rfl, rfl, rfl⟩

/-- When `squash` of a delta with a parent returns, and what it did. -/
theorem returns_squash {parent : Nat} (points : heap.parent? index = some parent) :
    (squash index).Returns heap result after ↔
      ∃ child own, heap.node? index = some child ∧ child.backend = some own ∧
        if child.removedObjects.isEmpty && own.map.isEmpty then after = heap
        else (∃ backend, heap.backend parent = .ok backend) ∧
          after = (heap.update parent
            (takeChild (heap.root parent) child.removedObjects own.map)).update index emptied := by
  simp only [squash, returns_bind, returns_read]
  constructor
  · rintro ⟨_, _, ⟨rfl, rfl⟩, gave⟩
    simp only [points, returns_delta, returns_bind, returns_expect,
      returns_ite, returns_pure, returns_ofExcept,
      returns_modify] at gave
    obtain ⟨child, _, ⟨found, rfl⟩, own, _, ⟨held, rfl⟩, moved⟩ := gave
    refine ⟨child, own, found, held, ?_⟩
    split at moved <;> rename_i nothing
    · rw [if_pos nothing]
      exact moved.2
    · rw [if_neg nothing]
      obtain ⟨backend, _, ⟨target, rfl⟩, rfl⟩ := moved
      exact ⟨⟨backend, target⟩, rfl⟩
  · rintro ⟨child, own, found, held, moved⟩
    refine ⟨heap, heap, ⟨rfl, rfl⟩, ?_⟩
    simp only [points, returns_delta, returns_bind, returns_expect,
      returns_ite, returns_pure, returns_ofExcept, returns_modify]
    refine ⟨child, heap, ⟨found, rfl⟩, own, heap, ⟨held, rfl⟩, ?_⟩
    split at moved <;> rename_i nothing
    · rw [if_pos nothing]
      exact ⟨trivial, moved⟩
    · rw [if_neg nothing]
      obtain ⟨⟨backend, target⟩, rfl⟩ := moved
      exact ⟨backend, heap, ⟨target, rfl⟩, rfl⟩

/-- A root has nothing to squash into. -/
theorem returns_squash_root (points : heap.parent? index = none) :
    (squash index).Returns heap result after ↔ after = heap := by
  simp [squash, returns_bind, points]

/-- A child is pushed on its parent. -/
theorem returns_makeChild {childId : StateNodeId} :
    (makeChild index childId).Returns heap created after ↔
      ∃ own, heap.backend index = .ok own ∧ created = heap.size ∧
        after = heap.push (some index) (childOf own childId) := by
  simp only [makeChild, returns_bind, returns_read, returns_ofExcept, returns_modify, returns_pure]
  constructor
  · rintro ⟨_, _, ⟨rfl, rfl⟩, own, _, ⟨held, rfl⟩, _, _, rfl, rfl, rfl⟩
    exact ⟨own, held, rfl, rfl⟩
  · rintro ⟨own, held, rfl, rfl⟩
    exact ⟨heap, heap, ⟨rfl, rfl⟩, own, heap, ⟨held, rfl⟩, (), _, rfl, rfl, rfl⟩

/-- A copy is pushed beside the original. -/
theorem returns_clone {newId : StateNodeId} :
    (clone index newId).Returns heap created after ↔
      ∃ node own, heap.node? index = some node ∧ node.backend = some own ∧ created = heap.size ∧
        after = heap.push (heap.parent? index)
          { node with backend := some (copyBackend own newId node.merkleRoot) } := by
  simp only [clone, returns_delta, returns_bind, returns_read, returns_expect,
    returns_modify, returns_pure]
  constructor
  · rintro ⟨_, _, ⟨rfl, rfl⟩, node, _, ⟨found, rfl⟩, own, _, ⟨held, rfl⟩, _, _, rfl, rfl, rfl⟩
    exact ⟨node, own, found, held, rfl, rfl⟩
  · rintro ⟨node, own, found, held, rfl, rfl⟩
    exact ⟨heap, heap, ⟨rfl, rfl⟩, node, heap, ⟨found, rfl⟩, own, heap, ⟨held, rfl⟩, (), _, rfl,
      rfl, rfl⟩

/-- Finalizing sets a flag of the delta. -/
theorem returns_finalize :
    (finalize index).Returns heap result after ↔
      ∃ node, heap.node? index = some node ∧
        after = heap.update index fun delta => { delta with final := true } := by
  simp only [finalize, returns_delta, returns_bind, returns_modify]
  constructor
  · rintro ⟨node, _, ⟨found, rfl⟩, rfl⟩
    exact ⟨node, found, rfl⟩
  · rintro ⟨node, found, rfl⟩
    exact ⟨node, heap, ⟨found, rfl⟩, rfl⟩

/-- `put` returns, or it is stopped by a fault and changes nothing. -/
theorem put_outcome (index : Nat) (key value : Bytes) (heap : Heap) :
    (∃ size after, (put index key value).Returns heap size after) ∨
      ∃ fault, put index key value heap = (.error fault, heap) := by
  cases isFinal : heap.final index with
  | true => exact .inr ⟨_, put_of_final isFinal key value⟩
  | false =>
    cases sized : heap.parentSize index key with
    | error fault =>
      refine .inr ⟨fault, ?_⟩
      rw [put, read_bind, isFinal, sized]
      rfl
    | ok size =>
      cases held : heap.backend index with
      | error fault =>
        refine .inr ⟨fault, ?_⟩
        rw [put, read_bind, isFinal, sized, held]
        rfl
      | ok own =>
        exact .inl ⟨_, _, returns_put.mpr ⟨isFinal, size, own, sized, held, rfl, rfl⟩⟩

/-- `remove` returns, or it is stopped by a fault and changes nothing. -/
theorem remove_outcome (index : Nat) (key : Bytes) (heap : Heap) :
    (∃ size after, (remove index key).Returns heap size after) ∨
      ∃ fault, remove index key heap = (.error fault, heap) := by
  cases isFinal : heap.final index with
  | true => exact .inr ⟨_, remove_of_final isFinal key⟩
  | false =>
    cases held : heap.backend index with
    | error fault =>
      refine .inr ⟨fault, ?_⟩
      rw [remove, read_bind, isFinal, held]
      rfl
    | ok own =>
      cases sized : heap.removeSize index key own with
      | error fault =>
        refine .inr ⟨fault, ?_⟩
        rw [remove, read_bind, isFinal, held, if_neg Bool.false_ne_true, ofExcept_bind, sized]
        rfl
      | ok size => exact .inl ⟨_, _, returns_remove.mpr ⟨isFinal, own, held, sized, rfl⟩⟩

/-- What `put` relates on every exit: it changes the backend of its delta or nothing. -/
theorem put_keeps [Std.Refl rel] [IsTrans Heap rel] {value : Bytes}
    (updates : ∀ heap : Heap,
      rel heap (heap.update index (changeBackend (Backend.put · key value)))) :
    (put index key value).Keeps rel := by
  refine keeps_bind keeps_read fun heap => ?_
  refine keeps_ite (keeps_fail _) ?_
  refine keeps_bind (keeps_ofExcept _) fun _ => ?_
  refine keeps_bind (keeps_ofExcept _) fun _ => ?_
  exact keeps_bind (keeps_modify updates) fun _ => keeps_pure _

/-- What one update of the removed keys keeps is kept by a removal. -/
theorem remove_keeps [Std.Refl rel] [IsTrans Heap rel]
    (updates : ∀ (heap : Heap) (size : Int), rel heap (heap.update index (removeKey key size))) :
    (remove index key).Keeps rel := by
  refine keeps_bind keeps_read fun heap => ?_
  refine keeps_ite (keeps_fail _) ?_
  refine keeps_bind (keeps_ofExcept _) fun _ => ?_
  refine keeps_bind (keeps_ofExcept _) fun size => ?_
  exact keeps_bind (keeps_modify (updates · size)) fun _ => keeps_pure _

/-- What asking for a Merkle root relates on every exit: it is cached, or nothing happens. -/
theorem merkleRoot_keeps [Std.Refl rel] {hash : Bytes → Crypto.Digest}
    (caches : ∀ (heap : Heap) (delta : Delta) (own : Backend), heap.node? index = some delta →
      delta.merkleRoot = none → delta.backend = some own →
      rel heap (heap.update index fun delta' => { delta' with
        merkleRoot := some (Crypto.merkleRoot hash
          (merkleLeafs own.map.toList delta.removedObjects.toList)) })) :
    (merkleRoot hash index).Keeps rel := by
  intro before
  have reads : rel before (delta index before).2 := by
    refine related_bind (Std.Refl.refl _) fun _ mid read => ?_
    obtain ⟨rfl, rfl⟩ := returns_read.mp read
    exact keeps_expect _ _ _
  refine related_bind reads fun delta mid found => ?_
  obtain ⟨held, rfl⟩ := returns_delta.mp found
  split
  · exact keeps_fail _ _
  cases cached : delta.merkleRoot with
  | some root => exact keeps_pure _ _
  | none =>
    refine related_bind (keeps_expect _ _ _) fun own mid stored => ?_
    obtain ⟨isOwn, rfl⟩ := returns_expect.mp stored
    exact caches mid delta own held cached isOwn

/-- What `squash` relates on every exit: its parent takes the delta over, and the delta is
emptied, or nothing happens. -/
theorem squash_keeps [Std.Refl rel] [IsTrans Heap rel] {parent : Nat}
    (points : heap.parent? index = some parent)
    (takes : ∀ (heap : Heap) (removed : Keys) (objects : Objects),
      rel heap (heap.update parent (takeChild (heap.root parent) removed objects)))
    (empties : ∀ heap : Heap, rel heap (heap.update index emptied)) :
    rel heap (squash index heap).2 := by
  refine related_bind (Std.Refl.refl _) fun _ before read => ?_
  obtain ⟨rfl, rfl⟩ := returns_read.mp read
  rw [points]
  refine keeps_bind (keeps_bind keeps_read fun _ => keeps_expect _ _)
    (fun child => keeps_bind (keeps_expect _ _) fun own => ?_) before
  refine keeps_ite (keeps_pure _) ?_
  refine keeps_bind (keeps_ofExcept _) fun _ => keeps_modify fun heap => ?_
  exact IsTrans.trans _ _ _ (takes heap child.removedObjects own.map) (empties _)

/-- Through a temporary node a delta is squashed or nothing happens. -/
theorem squashTemporary_keeps [Std.Refl rel] [IsTrans Heap rel]
    (squashes : rel heap (squash index heap).2) :
    rel heap (squashTemporary index heap).2 := by
  refine related_bind (Std.Refl.refl _) fun _ before read => ?_
  obtain ⟨rfl, rfl⟩ := returns_read.mp read
  refine related_bind (keeps_expect _ _ _) fun _ before found => ?_
  obtain ⟨-, rfl⟩ := returns_expect.mp found
  split
  · exact Std.Refl.refl _
  · exact squashes

end Heap

end Respublica.StateDb
