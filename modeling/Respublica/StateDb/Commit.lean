import Respublica.StateDb.Database
import Respublica.StateDb.DeltaCommit

/-!
# Committing a node

`permanent_state_node::commit` commits the delta and then the index. The first half
takes the backend away from the old root; the second half begins by asking the old root
for its id, which its backend holds. So no commit of a node completes, whatever tree it
is in: the second half always follows the pointer that the first half has reset.
-/

namespace Respublica.StateDb

open Foundation Effect Crypto Forest Heap

namespace Heap

/-- What the routines on nodes keep of the deltas: all backends, and the parents of the
deltas that were there. -/
structure Extends (before after : Heap) : Prop where
  backed : before.Backed → after.Backed
  grown : before.size ≤ after.size
  parents : ∀ index < before.size, after.parent? index = before.parent? index

instance : Std.Refl Extends := ⟨fun _ => ⟨fun backed => backed, Nat.le_refl _, fun _ _ => rfl⟩⟩

instance : IsTrans Heap Extends :=
  ⟨fun _ _ _ first second =>
    ⟨fun backed => second.backed (first.backed backed), Nat.le_trans first.grown second.grown,
      fun index inside => by
        rw [second.parents index (Nat.lt_of_lt_of_le inside first.grown),
          first.parents index inside]⟩⟩

variable {change : Delta → Delta}

/-- Updates that keep backends extend a heap. -/
theorem extends_update (heap : Heap) (index : Nat)
    (kept : ∀ delta, delta.backend.isSome → (change delta).backend.isSome) :
    Extends heap (heap.update index change) :=
  ⟨fun backed => backed_update backed kept, by simp, fun _ _ => by simp⟩

theorem extends_push (heap : Heap) (parent : Option Nat) {delta : Delta}
    (held : delta.backend.isSome) : Extends heap (heap.push parent delta) := by
  refine ⟨fun backed => backed_push backed held, by simp, ?_⟩
  intro index inside
  rw [parent?_push, if_neg (Nat.ne_of_lt inside)]

/-- Writes extend a heap. -/
theorem put_extends (index : Nat) (key value : Bytes) : (put index key value).Keeps Extends := by
  refine put_keeps fun heap => ?_
  exact extends_update heap index fun delta held => by simpa [changeBackend] using held

theorem remove_extends (index : Nat) (key : Bytes) : (remove index key).Keeps Extends := by
  refine remove_keeps fun heap _ => ?_
  exact extends_update heap index fun delta held => by simpa [removeKey, changeBackend] using held

/-- A new child extends a heap. -/
theorem makeChild_extends (index : Nat) (childId : StateNodeId) :
    (makeChild index childId).Keeps Extends := by
  refine keeps_bind keeps_read fun heap => ?_
  refine keeps_bind (keeps_ofExcept _) fun own => ?_
  refine keeps_bind (keeps_modify fun heap => ?_) fun _ => keeps_pure _
  exact extends_push heap _ rfl

theorem finalize_extends (index : Nat) : (finalize index).Keeps Extends := by
  refine keeps_bind ?_ fun _ => keeps_modify fun heap => ?_
  · exact keeps_bind keeps_read fun heap => keeps_expect _ _
  · exact extends_update heap index fun delta held => held

/-- A change that leaves the final flags alone. -/
theorem final_update (heap : Heap) (index node : Nat)
    (keeps : ∀ delta, (change delta).final = delta.final) :
    final (heap.update index change) node = heap.final node := by
  rw [final, final, node?_update]
  split
  · cases heap.node? node <;> simp [keeps]
  · rfl

/-- Cutting a delta off its parent leaves the final flags alone. -/
theorem final_detach (heap : Heap) (index node : Nat) :
    final (heap.detach index) node = heap.final node := by
  rw [final, final, node?_detach]

variable {node : Nat}

/-- The final flag of a delta stays set. -/
abbrev StaysFinal (node : Nat) : Heap → Heap → Prop :=
  Preserving fun heap => heap.final node = true

/-- So the final deltas stay final. -/
theorem staysFinal_update (heap : Heap) (index : Nat)
    (keeps : ∀ delta, (change delta).final = delta.final) :
    StaysFinal node heap (heap.update index change) :=
  (final_update heap index node keeps).trans

/-- Looking up a delta changes nothing. -/
theorem delta_staysFinal (index : Nat) : (delta index).Keeps (StaysFinal node) :=
  keeps_bind keeps_read fun _ => keeps_expect _ _

/-- Draining deltas leaves the final ones final. -/
theorem drain_staysFinal (path : List Nat) (target : Backend) :
    (drain path target).Keeps (StaysFinal node) := by
  induction path generalizing target with
  | nil => exact keeps_pure _
  | cons index younger ih =>
    refine keeps_bind (delta_staysFinal index) fun delta => ?_
    refine keeps_bind (keeps_expect _ _) fun own => ?_
    exact keeps_bind (keeps_modify fun heap =>
      staysFinal_update heap index fun _ => rfl) fun _ => ih _

/-- Caching a Merkle root leaves them final. -/
theorem merkleRoot_staysFinal (hash : Bytes → Digest) (index : Nat) :
    (merkleRoot hash index).Keeps (StaysFinal node) :=
  merkleRoot_keeps fun heap _ _ _ _ _ => staysFinal_update heap index fun _ => rfl

/-- However committing a delta ends, the final deltas are final. -/
theorem commit_staysFinal (hash : Bytes → Digest) (index : Nat) :
    (commit hash index).Keeps (StaysFinal node) := by
  refine keeps_bind keeps_read fun heap => keeps_ite (keeps_fail _) ?_
  cases (heap.lineage index).reverse with
  | nil => exact keeps_fail _
  | cons oldRoot path =>
    refine keeps_bind (delta_staysFinal oldRoot) fun rootDelta => ?_
    refine keeps_bind (keeps_modify fun heap =>
      staysFinal_update heap oldRoot fun _ => rfl) fun _ => ?_
    refine keeps_bind (keeps_expect _ _) fun target => ?_
    refine keeps_bind (drain_staysFinal path target) fun filled => ?_
    refine keeps_bind keeps_read fun drained => ?_
    refine keeps_bind (keeps_ofExcept _) fun revision => ?_
    refine keeps_bind (keeps_ofExcept _) fun id => ?_
    refine keeps_bind (merkleRoot_staysFinal hash index) fun root => ?_
    refine keeps_modify fun heap isFinal => ?_
    exact (final_detach _ index node).trans (staysFinal_update heap index (fun _ => rfl) isFinal)

end Heap

namespace Database

/-- Looking for a node changes nothing, whatever comes of it. -/
theorem get_keeps (id : StateNodeId) :
    (Database.get id).Keeps (Eq : Database → Database → Prop) :=
  keeps_bind requireOpen_keeps fun _ =>
    keeps_bind keeps_read fun _ => keeps_ofExcept _

/-- So does looking for the ancestor of a node at a revision. -/
theorem atRevision_keeps (revision : UInt64) (id : StateNodeId) :
    (atRevision revision id).Keeps (Eq : Database → Database → Prop) := by
  refine keeps_bind requireOpen_keeps fun _ => keeps_bind keeps_read fun db => ?_
  refine keeps_bind (keeps_expect _ _) fun root => ?_
  refine keeps_bind (keeps_ofExcept _) fun rootRevision => ?_
  refine keeps_ite (keeps_fail _) (keeps_ite (keeps_pure _) ?_)
  refine keeps_bind (get_keeps id) fun found => ?_
  cases found with
  | some delta => exact keeps_bind (keeps_pure _) fun _ => keeps_ofExcept _
  | none => exact keeps_bind (keeps_expect _ _) fun _ => keeps_ofExcept _

/-- Every backend is in place and the root, which has no parent, and the head are set. -/
structure Rooted (db : Database) : Prop where
  backed : db.heap.Backed
  root : ∃ root, db.root = some root ∧ root < db.heap.size ∧
    db.heap.parent? root = none
  head : ∃ head, db.head = some head

/-- A routine on the deltas that extends the heap keeps a database rooted. -/
theorem onHeap_rooted {Value : Type} {routine : Effect Fault Heap Value}
    (extends_ : routine.Keeps Heap.Extends) :
    (onHeap routine).Keeps (Preserving Rooted) := by
  refine keeps_within extends_ ?_
  rintro db mid grown ⟨backed, ⟨root, isRoot, inside, top⟩, head⟩
  exact ⟨grown.backed backed,
    ⟨root, isRoot, Nat.lt_of_lt_of_le inside grown.grown, by rw [grown.parents root inside, top]⟩,
    head⟩

/-- Inserting keeps a database rooted. -/
theorem insert_rooted (delta : Nat) : (insert delta).Keeps (Preserving Rooted) := by
  refine keeps_bind keeps_read fun db => ?_
  refine keeps_bind (keeps_ofExcept _) fun id => ?_
  refine keeps_bind (keeps_ofExcept _) fun found => ?_
  cases found with
  | some taken => exact keeps_pure _
  | none =>
    refine keeps_bind (keeps_modify fun db rooted => ?_) fun _ =>
      keeps_pure _
    exact ⟨rooted.backed, rooted.root, rooted.head⟩

/-- Finalizing keeps a database rooted. -/
theorem finalize_rooted (delta : Nat) :
    (Database.finalize delta).Keeps (Preserving Rooted) := by
  refine keeps_bind requireOpen_keeps fun _ => ?_
  refine keeps_bind keeps_read fun db => ?_
  refine keeps_bind (keeps_expect _ _) fun head => ?_
  refine keeps_bind (keeps_ofExcept _) fun revision => ?_
  refine keeps_bind (keeps_ofExcept _) fun headRevision => ?_
  refine keeps_modify fun db rooted => ?_
  exact ⟨rooted.backed, rooted.root, ⟨_, rfl⟩⟩

/-- One call on a node of the index. -/
inductive NodeCall where
  | makeChild (node : Nat) (childId : StateNodeId)
  | put (node : Nat) (key value : Bytes)
  | remove (node : Nat) (key : Bytes)
  | finalize (node : Nat)

/-- The node a call is made on. -/
def NodeCall.node : NodeCall → Nat
  | .makeChild node _ => node
  | .put node _ _ => node
  | .remove node _ => node
  | .finalize node => node

/-- The routine a call runs. -/
def NodeCall.perform : NodeCall → Effect Fault Database Unit
  | .makeChild node childId => do let _ ← PermanentNode.makeChild node childId
  | .put node key value => do let _ ← onHeap (Heap.put node key value)
  | .remove node key => do let _ ← onHeap (Heap.remove node key)
  | .finalize node => PermanentNode.finalize node

/-- Every call on a node keeps a database rooted. -/
theorem NodeCall.perform_rooted (call : NodeCall) :
    call.perform.Keeps (Preserving Rooted) := by
  cases call with
  | makeChild node childId =>
    refine keeps_bind ?_ fun _ => keeps_pure _
    refine keeps_bind (onHeap_rooted (Heap.makeChild_extends node childId)) fun child => ?_
    refine keeps_bind ?_ fun _ => keeps_pure _
    exact keeps_bind (insert_rooted child) fun _ =>
      keeps_ite (keeps_pure _) (keeps_fail _)
  | put node key value =>
    exact keeps_bind (onHeap_rooted (Heap.put_extends node key value)) fun _ =>
      keeps_pure _
  | remove node key =>
    exact keeps_bind (onHeap_rooted (Heap.remove_extends node key)) fun _ =>
      keeps_pure _
  | finalize node =>
    exact keeps_bind (onHeap_rooted (Heap.finalize_extends node)) fun _ =>
      finalize_rooted node

/-- The initial writes into a new root. -/
def writeAll (writes : List (Bytes × Bytes)) (root : Nat) : Effect Fault Heap Unit :=
  match writes with
  | [] => pure ()
  | (key, value) :: rest => do
      let _ ← put root key value
      writeAll rest root

/-- The databases reached from opening one with any initial objects by calls on indexed
nodes, whether or not a call threw. -/
inductive Reachable : Database → Prop where
  | opened {writes : List (Bytes × Bytes)} {db : Database} :
      (openIndex (writeAll writes)).Returns empty () db → Reachable db
  | called {db : Database} (call : NodeCall) :
      Reachable db → call.node ∈ db.index → Reachable (call.perform db).2

/-- Writing the initial objects extends a heap. -/
theorem writeAll_extends (writes : List (Bytes × Bytes)) (root : Nat) :
    (writeAll writes root).Keeps Heap.Extends := by
  induction writes with
  | nil => exact keeps_pure _
  | cons write rest ih =>
    exact keeps_bind (put_extends root write.1 write.2) fun _ => ih

variable {init : Nat → Effect Fault Heap Unit} {db : Database}

theorem runInit_extends {root : Nat} (extends_ : (init root).Keeps Heap.Extends) :
    (runInit init root).Keeps Heap.Extends :=
  keeps_bind keeps_read fun _ =>
    keeps_bind (keeps_ofExcept _) fun _ =>
      keeps_ite extends_ (keeps_pure _)

/-- Opening an empty database leaves it rooted at the delta it created. -/
theorem openIndex_rooted (extends_ : (init 0).Keeps Heap.Extends)
    (gave : (openIndex init).Returns empty () db) : db.Rooted := by
  simp only [openIndex, onHeap, returns_bind, returns_read, returns_within, returns_modify] at gave
  obtain ⟨_, _, ⟨rfl, rfl⟩, _, _, ⟨created, rfl, rfl⟩, _, _, ⟨initial, wrote, rfl⟩, _, _,
    ⟨finalized, finalReturned, rfl⟩, _, indexed, inserted, rfl⟩ := gave
  obtain ⟨sameHeap, -⟩ := heap_of_insert inserted
  have grown : Heap.Extends (createRoot Forest.empty) finalized :=
    IsTrans.trans _ _ _ ((runInit_extends extends_).of_returns wrote)
      ((finalize_extends 0).of_returns finalReturned)
  have backed : Heap.Backed (createRoot Forest.empty) := backed_push backed_empty rfl
  refine ⟨?_, ⟨0, rfl, ?_, ?_⟩, ⟨0, rfl⟩⟩
  · rw [sameHeap]
    exact grown.backed backed
  · rw [sameHeap]
    exact Nat.lt_of_lt_of_le (by decide) grown.grown
  · rw [sameHeap, grown.parents 0 (by decide)]
    rfl

theorem Reachable.rooted (reachable : Reachable db) :
    db.Rooted := by
  induction reachable with
  | opened gave => exact openIndex_rooted (writeAll_extends _ 0) gave
  | called call _ _ ih => exact call.perform_rooted _ ih

/-- What committing a node is for: the node becomes the root, the index keeps exactly its
descendants, the head stays and every remaining node shows what it showed. -/
def CommitCorrect (hash : Bytes → Digest) (db : Database) (node : Nat) : Prop :=
  ∃ after, (PermanentNode.commit hash node).Returns db () after ∧ after.root = some node ∧
    (∀ other, other ∈ after.index ↔ other ∈ db.index ∧ node ∈ db.heap.lineage other) ∧
    after.head = db.head ∧
    ∀ other ∈ after.index, ∀ key, after.heap.get other key = db.heap.get other key

/-- Committing a final node below the root first takes the backend away from the root and
then asks the root for its id. -/
theorem commit_faults (hash : Bytes → Digest) {node root : Nat} (backed : db.heap.Backed)
    (opened : db.isOpen = true) (isRoot : db.root = some root) (top : db.heap.parent? root = none)
    (aboveRoot : root ∈ db.heap.lineage node) (notRoot : db.heap.root node = false)
    (isFinal : db.heap.final node = true) :
    (PermanentNode.commit hash node).Faults db .nullDereference := by
  obtain ⟨delta, own, found, stored, -⟩ :=
    backend_of_backed backed (inside_of_mem_lineage aboveRoot)
  rw [final_eq found] at isFinal
  obtain ⟨filled, after, gave, -, committed⟩ :=
    commit_outcome hash (held_of_backed backed node) notRoot found stored isFinal
  have reset := committed.taken root aboveRoot top
  have held := Heap.backend_eq_ok_iff.mpr ⟨_, committed.node, rfl⟩
  have committed : (onHeap (Heap.commit hash node)).Returns db ()
      { db with heap := after } :=
    returns_within.mpr ⟨after, gave, rfl⟩
  have stillOpen : requireOpen.Returns { db with heap := after } ()
      { db with heap := after } := returns_requireOpen.mpr ⟨opened, rfl⟩
  have idHeld := Heap.id_of_backend held
  have idReset : Heap.id after root = .error .nullDereference := by rw [Heap.id, reset]; rfl
  refine committed.bind_faults (stillOpen.bind_faults ?_)
  refine (returns_read.mpr ⟨rfl, rfl⟩).bind_faults ?_
  refine (returns_expect.mpr ⟨isRoot, rfl⟩).bind_faults ?_
  refine (returns_ofExcept.mpr ⟨idHeld, rfl⟩).bind_faults ?_
  refine Effect.Faults.bind ?_
  rw [idReset]
  rfl

/-- Whatever node below the root is committed, the commit does not return: it refuses the
root and nodes that are not final, and fails on all others. -/
theorem not_returns_commit {after : Database} (hash : Bytes → Digest) {node root : Nat}
    (backed : db.heap.Backed) (opened : db.isOpen = true) (isRoot : db.root = some root)
    (top : db.heap.parent? root = none) (aboveRoot : root ∈ db.heap.lineage node) {result : Unit} :
    ¬ (PermanentNode.commit hash node).Returns db result after := by
  intro gave
  obtain ⟨_, _, firstHalf, -⟩ := returns_bind.mp gave
  obtain ⟨heap, committed, -⟩ := returns_within.mp firstHalf
  cases isHeapRoot : db.heap.root node with
  | true =>
    obtain ⟨_, _, read, continued⟩ := returns_bind.mp committed
    obtain ⟨rfl, rfl⟩ := returns_read.mp read
    rw [if_pos isHeapRoot] at continued
    exact not_returns_fail continued
  | false =>
    cases isFinal : db.heap.final node with
    | true => exact (commit_faults hash backed opened isRoot top aboveRoot isHeapRoot
        isFinal).not_returns gave
    | false =>
      obtain ⟨delta, own, found, stored, -⟩ :=
        backend_of_backed backed (inside_of_mem_lineage aboveRoot)
      rw [final_eq found] at isFinal
      obtain ⟨filled, drained, -, drainedNode, -, -, -, continues⟩ :=
        drain_chain hash (held_of_backed backed node) isHeapRoot found stored
      rw [Effect.Returns, continues] at committed
      obtain ⟨_, _, rooted, -⟩ := returns_bind.mp committed
      obtain ⟨finalNode, -⟩ := (returns_merkleRoot drainedNode rfl).mp rooted
      exact absurd finalNode (by simp [isFinal])

/-- In every reachable database, committing any final node between root and head, the root
itself excluded, ends in following the backend pointer that the commit has reset. -/
theorem commit_follows_reset_backend {db : Database} (reachable : Reachable db)
    (hash : Bytes → Digest) {node root head : Nat} (isRoot : db.root = some root)
    (isHead : db.head = some head) (_indexed : node ∈ db.index)
    (isFinal : db.heap.final node = true) (different : node ≠ root)
    (_belowHead : node ∈ db.heap.lineage head)
    (aboveRoot : root ∈ db.heap.lineage node) :
    (PermanentNode.commit hash node).Faults db .nullDereference ∧
      ¬ CommitCorrect hash db node := by
  obtain ⟨backed, ⟨oldRoot, rooted, -, top⟩, -⟩ := reachable.rooted
  obtain rfl : root = oldRoot := Option.some.inj (isRoot.symm.trans rooted)
  have opened : db.isOpen = true := by simp [isOpen, isRoot, isHead]
  have notRoot : db.heap.root node = false := by
    cases points : db.heap.parent? node with
    | none =>
      rw [lineage_of_root (inside_of_mem_lineage aboveRoot) points, List.mem_singleton] at aboveRoot
      exact absurd aboveRoot.symm different
    | some parent => simp [Heap.root, points]
  have faults := commit_faults hash backed opened isRoot top aboveRoot notRoot isFinal
  refine ⟨faults, ?_⟩
  rintro ⟨after, gave, -⟩
  exact faults.not_returns gave

/-- A genesis node with one finalized child. -/
def twoNodes : Database :=
  ((NodeCall.finalize 1).perform ((NodeCall.makeChild 0 (SizedBytes.fit 32 [1])).perform
      (openIndex (writeAll []) empty).2).2).2

theorem reachable_twoNodes : Reachable twoNodes := by
  have gave : (openIndex (writeAll [])).Returns empty () (openIndex (writeAll []) empty).2 := rfl
  have opened := Reachable.opened gave
  have child := opened.called (.makeChild 0 (SizedBytes.fit 32 [1])) (by decide)
  exact child.called (.finalize 1) (by decide)

/-- The theorem applies to the node above genesis. -/
theorem commit_follows_reset_backend_in_twoNodes :
    (PermanentNode.commit (SizedBytes.fit 32) 1).Faults twoNodes .nullDereference :=
  (commit_follows_reset_backend reachable_twoNodes (SizedBytes.fit 32)
    (show twoNodes.root = some 0 from rfl) (show twoNodes.head = some 1 from rfl) (by decide) rfl
    (by decide) (by decide) (by decide)).1

/-- The smallest database in which a node can be committed: the commit does not return. -/
theorem commit_above_genesis_faults :
    Reachable twoNodes ∧ twoNodes.root = some 0 ∧ twoNodes.head = some 1 ∧
      1 ∈ twoNodes.index ∧ twoNodes.heap.final 1 = true ∧ 1 ∈ twoNodes.heap.lineage 1 ∧
      0 ∈ twoNodes.heap.lineage 1 ∧
      (PermanentNode.commit (SizedBytes.fit 32) 1 twoNodes).1 = .error .nullDereference :=
  ⟨reachable_twoNodes, rfl, rfl, by decide, rfl, by decide, by decide, rfl⟩

end Database

namespace PermanentNode

open Database

/-- Erasing nodes from the index leaves the deltas alone. -/
theorem eraseQueued_staysFinal (queue : List StateNodeId) (node : Nat) :
    (eraseQueued queue).Keeps (Preserving fun db => db.heap.final node = true) := by
  induction queue with
  | nil => exact keeps_pure _
  | cons id rest ih =>
    refine keeps_bind keeps_read fun db =>
      keeps_bind (keeps_ofExcept _) fun found => ?_
    cases found with
    | none => exact ih
    | some entry =>
      exact keeps_bind (keeps_modify fun _ isFinal => isFinal) fun _ =>
        keeps_fail _

/-- So does removing a node with all below it. -/
theorem remove_staysFinal (delta : Nat) (whitelist : List StateNodeId) (node : Nat) :
    (Database.remove delta whitelist).Keeps
      (Preserving fun db => db.heap.final node = true) := by
  refine keeps_bind requireOpen_keeps fun _ => keeps_bind keeps_read fun db => ?_
  refine keeps_bind (keeps_expect _ _) fun root =>
    keeps_bind (keeps_expect _ _) fun head => ?_
  refine keeps_bind (keeps_ofExcept _) fun id =>
    keeps_bind (keeps_ofExcept _) fun rootId => ?_
  refine keeps_ite (keeps_fail _) ?_
  refine keeps_bind (keeps_ofExcept _) fun headId =>
    keeps_bind (keeps_ofExcept _) fun queue => ?_
  refine keeps_bind (eraseQueued_staysFinal queue node) fun _ => ?_
  cases db.heap.parent? delta with
  | some parent => exact keeps_modify fun _ isFinal => isFinal
  | none => exact keeps_pure _

/-- However a commit ends, the final nodes are final. -/
theorem commit_staysFinal (hash : Bytes → Digest) (delta node : Nat) :
    (PermanentNode.commit hash delta).Keeps
      (Preserving fun db => db.heap.final node = true) := by
  have commits (index : Nat) : (onHeap (Heap.commit hash index)).Keeps
      (Preserving fun db => db.heap.final node = true) :=
    keeps_within (Heap.commit_staysFinal hash index) fun _ _ stays => stays
  refine keeps_bind (commits delta) fun _ => ?_
  refine keeps_bind requireOpen_keeps fun _ => keeps_bind keeps_read fun db => ?_
  refine keeps_bind (keeps_expect _ _) fun oldRoot => ?_
  refine keeps_bind (keeps_ofExcept _) fun id => ?_
  refine keeps_bind (keeps_ofExcept _) fun rootId => ?_
  refine keeps_ite (keeps_pure _) ?_
  refine keeps_bind (keeps_modify fun _ isFinal => isFinal) fun _ => ?_
  refine keeps_bind (keeps_ofExcept _) fun found => ?_
  cases found with
  | none => exact keeps_fail _
  | some entry =>
    refine keeps_bind (commits entry) fun _ => keeps_bind keeps_read fun _ => ?_
    exact keeps_bind (keeps_ofExcept _) fun _ => remove_staysFinal _ _ node

end PermanentNode

end Respublica.StateDb
