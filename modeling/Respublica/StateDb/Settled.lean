import Respublica.StateDb.Confined
import Respublica.StateDb.Database

/-!
# Deltas that are settled

Applying a block creates deltas and writes into them. The deltas that were there keep their
place in the tree, their ids, revisions and finality, and what they show; only Merkle roots
are cached in them. `Settled limit` says so of the deltas below a limit, and of the rest that
they keep everything but what they show. It is a preorder, so it follows a whole run.
-/

namespace Respublica.StateDb

open Foundation Effect Crypto Forest OverlayTree

/-- What no write changes about a delta: whether it is final, its id and its revision. -/
def Delta.header (delta : Delta) : Bool × Option (StateNodeId × UInt64) :=
  (delta.final, delta.backend.map fun backend => (backend.id, backend.revision))

namespace Heap

/-- The Merkle root that a delta has cached. -/
def cachedRoot (heap : Heap) (index : Nat) : Option Digest :=
  (heap.node? index).bind Delta.merkleRoot

/-- Deltas are only added, all of them below others; deltas keep their parents and headers
and a Merkle root once it is cached, and those below the limit also what they show. -/
structure Settled (limit : Nat) (before after : Heap) : Prop where
  size : before.size ≤ after.size
  parents : ∀ index < before.size, after.parent? index = before.parent? index
  headers : ∀ index < before.size,
    (after.node? index).map Delta.header = (before.node? index).map Delta.header
  overlays : ∀ index < before.size, index < limit →
    overlay after.abstraction index = overlay before.abstraction index
  children : ∀ index < after.size, before.size ≤ index → (after.parent? index).isSome
  backed : before.Backed → after.Backed
  roots : ∀ index < before.size, ∀ root,
    before.cachedRoot index = some root → after.cachedRoot index = some root

variable {limit : Nat}

instance : Std.Refl (Settled limit) :=
  ⟨fun _ => ⟨Nat.le_refl _, fun _ _ => rfl, fun _ _ => rfl, fun _ _ _ => rfl,
    fun _ inside beyond => absurd inside (Nat.not_lt.mpr beyond), fun backed => backed,
    fun _ _ _ cached => cached⟩⟩

instance : IsTrans Heap (Settled limit) := by
  refine ⟨fun before middle after first second =>
    ⟨Nat.le_trans first.size second.size, ?_, ?_, ?_, ?_,
      fun backed => second.backed (first.backed backed), fun index inside root cached =>
        second.roots index (Nat.lt_of_lt_of_le inside first.size) root
          (first.roots index inside root cached)⟩⟩
  · intro index inside
    rw [second.parents index (Nat.lt_of_lt_of_le inside first.size), first.parents index inside]
  · intro index inside
    rw [second.headers index (Nat.lt_of_lt_of_le inside first.size), first.headers index inside]
  · intro index inside below
    rw [second.overlays index (Nat.lt_of_lt_of_le inside first.size) below,
      first.overlays index inside below]
  · intro index inside beyond
    by_cases old : index < middle.size
    · rw [second.parents index old]
      exact first.children index old beyond
    · exact second.children index inside (Nat.not_lt.mp old)

namespace Settled

variable {before after : Heap} {index : Nat}

section

variable (settled : Settled limit before after)
include settled

section

variable (inside : index < before.size)
include inside

theorem lineage :
    after.lineage index = before.lineage index := by
  refine lineage_congr (fun position above => ?_) fun position above => ?_
  · have old := Nat.lt_of_le_of_lt above inside
    exact iff_of_true (Nat.lt_of_lt_of_le old settled.size) old
  · exact settled.parents position (Nat.lt_of_le_of_lt above inside)

theorem final :
    after.final index = before.final index := by
  have same := congrArg (Option.map Prod.fst) (settled.headers index inside)
  simp only [Option.map_map] at same
  exact congrArg (Option.getD · false) same

/-- Settled deltas keep id and revision. -/
theorem header :
    (fun backend => (backend.id, backend.revision)) <$> after.backend index =
      (fun backend => (backend.id, backend.revision)) <$> before.backend index := by
  have same := settled.headers index inside
  obtain ⟨old, oldFound⟩ := Option.isSome_iff_exists.mp (node?_isSome_iff.mpr inside)
  rw [oldFound] at same
  obtain ⟨new, newFound, sameHeader⟩ := Option.map_eq_some_iff.mp same
  have sameBackend := congrArg Prod.snd sameHeader
  rw [Heap.backend, Heap.backend, newFound, oldFound, Option.bind_some, Option.bind_some]
  simp only [Delta.header] at sameBackend
  cases newBackend : new.backend <;> cases oldBackend : old.backend <;>
    simp_all [Functor.map, Except.map]

theorem id :
    after.id index = before.id index := by
  have same := congrArg (Functor.map Prod.fst) (settled.header inside)
  rwa [← comp_map, ← comp_map] at same

theorem revision :
    after.revision index = before.revision index := by
  have same := congrArg (Functor.map Prod.snd) (settled.header inside)
  rwa [← comp_map, ← comp_map] at same

/-- A settled delta below the limit shows what it showed. -/
theorem view (below : index < limit) : after.view index = before.view index := by
  have lineages : Forest.lineage after.abstraction index = Forest.lineage before.abstraction
      index := by
    rw [abstraction, abstraction, lineage_mapNodes, lineage_mapNodes, settled.lineage inside]
  refine view_congr lineages fun layer mem => ?_
  rw [lineages, abstraction, lineage_mapNodes] at mem
  have above := le_of_mem_lineage mem
  exact settled.overlays layer (Nat.lt_of_le_of_lt above inside) (Nat.lt_of_le_of_lt above below)

end

end

end Settled

/-- The overlay of a delta, read off the delta and its parent. -/
theorem overlay_abstraction_eq (heap : Heap) (index : Nat) :
    overlay heap.abstraction index =
      ((heap.node? index).map (Delta.overlay (heap.parent? index))).getD Overlay.blank := by
  simp [overlay, abstraction]

/-- What lies below a delta, read off its parent. -/
theorem below_abstraction (heap : Heap) (index : Nat) (key : Bytes) :
    OverlayTree.below heap.abstraction index key = heap.below index key := by
  rw [OverlayTree.below, below, abstraction, parent?_mapNodes]
  cases heap.parent? index <;> rfl

variable {heap : Heap} {own : Backend} {writes : Bytes → Prop} {node parent : Nat}

/-- What a backend holds is what its delta has recorded as stored. -/
theorem get_eq_overlay {index : Nat} (held : heap.backend index = .ok own) (key : Bytes) :
    own.get key = match overlay heap.abstraction index key with
      | some (.put value) => some value
      | _ => none := by
  obtain ⟨delta, found, stored⟩ := backend_eq_ok_iff.mp held
  rw [overlay_abstraction found, Delta.overlay, stored, Option.bind_some]
  cases own.get key with
  | some value => rfl
  | none => split <;> simp_all

/-- Other deltas keep their records, and the confined one those outside the confined keys. -/
theorem Confined.overlay {index : Nat} {before after : Heap}
    (confined : Confined writes node before after) {key : Bytes}
    (apart : index ≠ node ∨ ¬ writes key) :
    overlay after.abstraction index key =
      overlay before.abstraction index key := by
  rw [overlay_abstraction_eq, overlay_abstraction_eq, confined.parents]
  by_cases here : index = node
  · have outside := apart.resolve_left (not_not.mpr here)
    subst here
    cases found : before.node? index with
    | none =>
      have missing : after.node? index = none := by
        rw [← Option.not_isSome_iff_eq_none, node?_isSome_iff, confined.size,
          ← node?_isSome_iff, found]
        simp
      rw [missing]
    | some old =>
      obtain ⟨new, newFound, kept⟩ := confined.delta old found
      rw [newFound]
      simp only [Option.map_some, Option.getD_some, Delta.overlay, kept.objects key outside,
        kept.removed key outside]
  · rw [confined.others index here]

/-- Changing one delta without its header settles the others, and that one too if its
overlay is kept. -/
theorem settled_update (heap : Heap) (node : Nat) {change : Delta → Delta}
    (header : ∀ delta, (change delta).header = delta.header)
    (root : ∀ delta, heap.node? node = some delta → ∀ root, delta.merkleRoot = some root →
      (change delta).merkleRoot = some root)
    (overlay : node < limit → ∀ delta parent,
      (change delta).overlay parent = delta.overlay parent) :
    Settled limit heap (heap.update node change) := by
  have held : ∀ delta, (change delta).backend.isSome = delta.backend.isSome := by
    intro delta
    have same := congrArg (fun header => header.2.isSome) (header delta)
    simpa [Delta.header] using same
  refine ⟨by simp, fun _ _ => by simp, ?_, ?_, ?_, ?_, ?_⟩
  · intro index _
    rw [node?_update]
    split
    · rw [Option.map_map]
      exact congrArg (Option.map · _) (funext header)
    · rfl
  · intro index _ below
    rw [overlay_abstraction_eq, overlay_abstraction_eq, node?_update, parent?_update]
    by_cases here : node = index
    · subst here
      rw [if_pos rfl, Option.map_map]
      congr 2
      funext delta
      exact overlay below delta _
    · rw [if_neg here]
  · intro index inside beyond
    rw [size_update] at inside
    exact absurd inside (Nat.not_lt.mpr beyond)
  · exact fun backed => backed_update backed fun delta isHeld => by rwa [held]
  · intro index _ known cached
    rw [cachedRoot, node?_update]
    by_cases here : node = index
    · subst here
      obtain ⟨delta, found, isCached⟩ := Option.bind_eq_some_iff.mp cached
      rw [if_pos rfl, found]
      exact root delta found known isCached
    · rw [if_neg here]
      exact cached

/-- What is confined to one delta settles the deltas before it. -/
theorem Confined.settled {before after : Heap} (confined : Confined writes node before after)
    (above : limit ≤ node) :
    Settled limit before after := by
  refine ⟨confined.size.ge, fun index _ => confined.parents index, ?_, ?_, ?_, confined.backed, ?_⟩
  · intro index inside
    by_cases here : index = node
    · subst here
      obtain ⟨old, oldFound⟩ := Option.isSome_iff_exists.mp (node?_isSome_iff.mpr inside)
      obtain ⟨new, newFound, kept⟩ := confined.delta old oldFound
      rw [newFound, oldFound]
      exact congrArg some (Prod.ext kept.final kept.header)
    · rw [confined.others index here]
  · intro index _ below
    have different : index ≠ node := by omega
    rw [overlay_abstraction_eq, overlay_abstraction_eq, confined.others index different,
      confined.parents]
  · intro index inside beyond
    rw [confined.size] at inside
    exact absurd inside (Nat.not_lt.mpr beyond)
  · intro index _ root cached
    by_cases here : index = node
    · subst here
      obtain ⟨old, oldFound, isCached⟩ := Option.bind_eq_some_iff.mp cached
      obtain ⟨new, newFound, kept⟩ := confined.delta old oldFound
      rw [cachedRoot, newFound]
      exact kept.merkleRoot.trans isCached
    · rw [cachedRoot, confined.others index here]
      exact cached

/-- A new child settles the deltas that were there. -/
theorem settled_push_child {delta : Delta} (inside : parent < heap.size)
    (held : delta.backend.isSome) : Settled limit heap (heap.push (some parent) delta) := by
  refine ⟨by simp, ?_, ?_, ?_, ?_, fun backed => backed_push backed held, ?_⟩
  · intro index old
    rw [parent?_push, if_neg (Nat.ne_of_lt old)]
  · intro index old
    rw [node?_push_of_lt old]
  · intro index old _
    rw [overlay_abstraction_eq, overlay_abstraction_eq, node?_push_of_lt old, parent?_push,
      if_neg (Nat.ne_of_lt old)]
  · intro index grown beyond
    rw [size_push] at grown
    obtain rfl : index = heap.size := by omega
    simp [parent?_push, Option.filter, inside]
  · intro index old root cached
    rwa [cachedRoot, node?_push_of_lt old]

theorem settled_makeChild (held : heap.backend parent = .ok own) (childId : StateNodeId) :
    Settled limit heap (heap.push (some parent) (childOf own childId)) :=
  settled_push_child (lt_size_of_backend held) rfl

/-- Making a child settles everything. -/
theorem makeChild_settled (index : Nat) (childId : StateNodeId) :
    (makeChild index childId).Keeps (Settled limit) := by
  intro before
  refine related_bind (Std.Refl.refl _) fun _ before read => ?_
  obtain ⟨rfl, rfl⟩ := returns_read.mp read
  refine related_bind (keeps_ofExcept _ _) fun own before held => ?_
  obtain ⟨backs, rfl⟩ := returns_ofExcept.mp held
  exact settled_makeChild backs childId

/-- Asking for a Merkle root caches it at most. -/
theorem merkleRoot_settled (hash : Bytes → Digest) (node : Nat) :
    (merkleRoot hash node).Keeps (Settled limit) := by
  refine merkleRoot_keeps fun heap delta own held uncached _ => ?_
  refine settled_update heap node (fun _ => rfl) ?_ fun _ _ _ => rfl
  intro other isOther root isCached
  obtain rfl := Option.some.inj (held.symm.trans isOther)
  rw [uncached] at isCached
  cases isCached

/-- Absorbing objects keeps the id and revision of a backend. -/
theorem header_absorb (backend : Backend) (removed : Keys) (objects : Objects) :
    (absorb backend removed objects).id = backend.id ∧
      (absorb backend removed objects).revision = backend.revision := by
  have removes : ∀ (keys : List Bytes) (backend : Backend),
      (keys.foldl Backend.remove backend).id = backend.id ∧
        (keys.foldl Backend.remove backend).revision = backend.revision := by
    intro keys
    induction keys with
    | nil => exact fun _ => ⟨rfl, rfl⟩
    | cons key rest ih => exact fun backend => ih (backend.remove key)
  have puts : ∀ (objects : List (Bytes × Bytes)) (backend : Backend),
      (objects.foldl (fun target object => target.put object.1 object.2) backend).id = backend.id ∧
        (objects.foldl (fun target object => target.put object.1 object.2) backend).revision =
          backend.revision := by
    intro objects
    induction objects with
    | nil => exact fun _ => ⟨rfl, rfl⟩
    | cons object rest ih => exact fun backend => ih (backend.put object.1 object.2)
  obtain ⟨putId, putRevision⟩ := puts objects.toList (removed.toList.foldl Backend.remove backend)
  obtain ⟨removeId, removeRevision⟩ := removes removed.toList backend
  exact ⟨putId.trans removeId, putRevision.trans removeRevision⟩

/-- Squashing settles everything before the two deltas it works on. -/
theorem squash_settled (points : heap.parent? node = some parent) (above : limit ≤ parent) :
    Settled limit heap (squash node heap).2 := by
  have older := parent?_lt points
  refine squash_keeps points (fun heap removed objects => ?_) fun heap => ?_
  · refine settled_update heap parent (fun delta => ?_) (fun _ _ _ cached => cached) ?_
    · cases held : delta.backend <;>
        simp [Delta.header, takeChild, changeBackend, held, header_absorb]
    · exact fun below => absurd below (by omega)
  · refine settled_update heap node (fun delta => ?_) (fun _ _ _ cached => cached) ?_
    · cases held : delta.backend <;> simp [Delta.header, emptied, changeBackend, held]
    · exact fun below => absurd below (by omega)

/-- A relation that work on deltas from the limit on keeps: changes confined to one of them,
new children, and squashing into one of them. -/
structure Shelters (limit : Nat) (kept : Heap → Heap → Prop) : Prop where
  confined : ∀ {writes : Bytes → Prop} {node : Nat} {before after : Heap},
    Confined writes node before after → limit ≤ node → kept before after
  makeChild : ∀ index childId, (makeChild index childId).Keeps kept
  squash : ∀ {node parent : Nat} {heap : Heap}, heap.parent? node = some parent →
    limit ≤ parent → kept heap (squashTemporary node heap).2

/-- Work above the limit settles what is below. -/
theorem shelters_settled : Shelters limit (Settled limit) :=
  ⟨Confined.settled, makeChild_settled,
    fun points above => squashTemporary_keeps (squash_settled points above)⟩

/-- Deltas are only added, and those below the limit are the same. -/
structure Untouched (limit : Nat) (before after : Heap) : Prop where
  size : before.size ≤ after.size
  nodes : ∀ index < before.size, index < limit → after.node? index = before.node? index

instance : Std.Refl (Untouched limit) := ⟨fun _ => ⟨Nat.le_refl _, fun _ _ _ => rfl⟩⟩

instance : IsTrans Heap (Untouched limit) :=
  ⟨fun _ _ _ first second => ⟨Nat.le_trans first.size second.size, fun index inside below =>
    (second.nodes index (Nat.lt_of_lt_of_le inside first.size) below).trans
      (first.nodes index inside below)⟩⟩

/-- An update above the limit touches nothing below. -/
theorem untouched_update (heap : Heap) (change : Delta → Delta) (above : limit ≤ node) :
    Untouched limit heap (heap.update node change) :=
  ⟨by simp, fun _ _ below => node?_update_of_ne (by omega)⟩

theorem makeChild_untouched (index : Nat) (childId : StateNodeId) :
    (makeChild index childId).Keeps (Untouched limit) := by
  refine keeps_bind keeps_read fun heap => ?_
  refine keeps_bind (keeps_ofExcept _) fun own => ?_
  refine keeps_bind (keeps_modify fun heap => ?_) fun _ => keeps_pure _
  exact ⟨by simp, fun _ inside _ => node?_push_of_lt inside⟩

/-- Squashing into a node above the limit touches nothing below. -/
theorem squash_untouched (points : heap.parent? node = some parent) (above : limit ≤ parent) :
    Untouched limit heap (squash node heap).2 := by
  have older := parent?_lt points
  exact squash_keeps points (fun heap _ _ => untouched_update heap _ above)
    fun heap => untouched_update heap _ (by omega)

theorem shelters_untouched : Shelters limit (Untouched limit) where
  confined confined above :=
    ⟨confined.size.ge, fun index _ below => confined.others index (by omega)⟩
  makeChild := makeChild_untouched
  squash points above := squashTemporary_keeps (squash_untouched points above)

/-- Asking a delta for its Merkle root, only that delta is read. -/
theorem merkleRoot_congr {hash : Bytes → Digest} {first second : Heap}
    (same : second.node? node = first.node? node) :
    (merkleRoot hash node second).1 = (merkleRoot hash node first).1 := by
  cases found : first.node? node with
  | none =>
    rw [found] at same
    simp only [merkleRoot, delta, Bind.bind, Effect.read, same, found]
    rfl
  | some held =>
    rw [found] at same
    have firstHeld : (delta node).Returns first held first := returns_delta.mpr ⟨found, rfl⟩
    have secondHeld : (delta node).Returns second held second := returns_delta.mpr ⟨same, rfl⟩
    rw [merkleRoot, firstHeld.bind_eq, secondHeld.bind_eq]
    split
    · rfl
    · cases held.merkleRoot with
      | some root => rfl
      | none => cases held.backend <;> rfl

end Heap

namespace Database

/-- Nothing has changed but deltas, and those as a relation says. -/
def HeapOnly (kept : Heap → Heap → Prop) (before after : Database) : Prop :=
  ∃ heap, after = { before with heap := heap } ∧ kept before.heap heap

/-- The deltas are settled and nothing else has changed. -/
structure Settled (limit : Nat) (before after : Database) : Prop where
  heap : Heap.Settled limit before.heap after.heap
  index : after.index = before.index
  root : after.root = before.root
  head : after.head = before.head
  forkHeads : after.forkHeads = before.forkHeads

variable {limit : Nat}

instance : Std.Refl (Settled limit) := ⟨fun _ => ⟨Std.Refl.refl _, rfl, rfl, rfl, rfl⟩⟩

instance : IsTrans Database (Settled limit) :=
  ⟨fun _ _ _ first second =>
    ⟨IsTrans.trans _ _ _ first.heap second.heap, second.index.trans first.index,
      second.root.trans first.root, second.head.trans first.head,
      second.forkHeads.trans first.forkHeads⟩⟩

theorem onHeap_settled {Value : Type} {routine : Effect Fault Heap Value}
    (settles : routine.Keeps (Heap.Settled limit)) : (onHeap routine).Keeps (Settled limit) :=
  keeps_within settles fun _ _ settled => ⟨settled, rfl, rfl, rfl, rfl⟩

end Database

end Respublica.StateDb
