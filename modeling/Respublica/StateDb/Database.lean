import Mathlib.Data.Finset.Basic
import Respublica.StateDb.Delta

/-!
# The index of state nodes

`delta_index` knows the deltas that belong to nodes by id, which of them are root and
head, and the fork heads. A permanent node is a delta together with the index, so its
routines act on both. Deltas that are in no index are the temporary nodes.
-/

namespace Respublica.StateDb

open Foundation Effect Crypto

/-- The deltas and the index over them. The source orders the index by id; here it is in the order
of insertion. As long as ids are distinct, a lookup finds the same delta in any order. `remove`
queues the same nodes, but those with one parent in the order of the index. -/
structure Database where
  heap : Heap
  index : List Nat
  root : Option Nat
  head : Option Nat
  forkHeads : Finset Nat

namespace Database

/-- Nothing created yet. -/
def empty : Database := ⟨Forest.empty, [], none, none, ∅⟩

/-- Run a delta routine on the deltas of the database. -/
def onHeap {Value : Type} (routine : Effect Fault Heap Value) : Effect Fault Database Value :=
  Effect.within Database.heap (fun db heap => { db with heap := heap }) routine

def isOpen (db : Database) : Bool := db.root.isSome && db.head.isSome

/-- Every routine of an index that was closed throws. -/
def requireOpen : Effect Fault Database Unit := do
  let db ← Effect.read
  if db.isOpen then pure () else Effect.fail (.exception "database is not open")

/-- Look an id up among the given deltas. -/
def findAmong (heap : Heap) (id : StateNodeId) : List Nat → Except Fault (Option Nat)
  | [] => .ok none
  | candidate :: rest => do
      let own ← heap.id candidate
      if own = id then pure (some candidate) else findAmong heap id rest

def find (db : Database) (id : StateNodeId) : Except Fault (Option Nat) :=
  findAmong db.heap id db.index

/-- Insert into the index; a taken id leaves it as it is. -/
def insert (delta : Nat) : Effect Fault Database Bool := do
  let db ← Effect.read
  let id ← Effect.ofExcept (db.heap.id delta)
  match ← Effect.ofExcept (db.find id) with
  | some _ => pure false
  | none => do
      Effect.modify fun db => { db with index := db.index ++ [delta] }
      pure true

/-- Initialise a root whose revision is zero. -/
def runInit (init : Nat → Effect Fault Heap Unit) (rootDelta : Nat) : Effect Fault Heap Unit := do
  let heap ← Effect.read
  let revision ← Effect.ofExcept (heap.revision rootDelta)
  if revision = 0 then init rootDelta else pure ()

/-- `open`: a new root, initialised, finalized and indexed. -/
def openIndex (init : Nat → Effect Fault Heap Unit) : Effect Fault Database Unit := do
  let db ← Effect.read
  let rootDelta := db.heap.size
  onHeap (Effect.modify Heap.createRoot)
  onHeap (runInit init rootDelta)
  onHeap (Heap.finalize rootDelta)
  let _ ← insert rootDelta
  Effect.modify fun db => { db with
    forkHeads := Insert.insert rootDelta db.forkHeads
    root := some rootDelta
    head := some rootDelta }

/-- `reset`: the old root is emptied and a new one opened. The index and the fork heads are
left as they are. -/
def reset (init : Nat → Effect Fault Heap Unit) : Effect Fault Database Unit := do
  requireOpen
  let db ← Effect.read
  let root ← Effect.expect .nullDereference db.root
  onHeap (Heap.clear root)
  openIndex init

/-- `close`: the index and the pointers into it are dropped. Deltas live on while nodes of them
are held. -/
def close (db : Database) : Database :=
  { db with index := [], forkHeads := ∅, root := none, head := none }

def get (id : StateNodeId) : Effect Fault Database (Option Nat) := do
  requireOpen
  let db ← Effect.read
  Effect.ofExcept (db.find id)

/-- The first delta of a lineage whose revision does not exceed the given one; walking
off the root follows its null parent. -/
def ancestorAt (heap : Heap) (revision : UInt64) : List Nat → Except Fault Nat
  | [] => .error .nullDereference
  | delta :: ancestors => do
      let own ← heap.revision delta
      if revision < own then ancestorAt heap revision ancestors else pure delta

def atRevision (revision : UInt64) (childId : StateNodeId) : Effect Fault Database Nat := do
  requireOpen
  let db ← Effect.read
  let root ← Effect.expect .nullDereference db.root
  let rootRevision ← Effect.ofExcept (db.heap.revision root)
  if revision < rootRevision then
    Effect.fail (.exception "cannot ask for node with revision less than root.")
  else if revision = rootRevision then pure root
  else do
    let found ← get childId
    let start ← match found with
      | some delta => pure delta
      | none => Effect.expect .nullDereference db.head
    Effect.ofExcept (ancestorAt db.heap revision (db.heap.lineage start))

/-- Insert, throwing when the id is taken. -/
def add (delta : Nat) : Effect Fault Database Unit := do
  if ← insert delta then pure () else Effect.fail (.exception "could not add state delta")

/-- The fork resolution in use: among equal revisions the head stays. -/
def fifoComparator (_forkHeads : Finset Nat) (headBlock _newBlock : Nat) : Nat := headBlock

/-- `delta_index::finalize`: choose the head and maintain the fork heads. -/
def finalize (delta : Nat) : Effect Fault Database Unit := do
  requireOpen
  let db ← Effect.read
  let head ← Effect.expect .nullDereference db.head
  let revision ← Effect.ofExcept (db.heap.revision delta)
  let headRevision ← Effect.ofExcept (db.heap.revision head)
  let newHead :=
    if headRevision < revision then delta
    else if revision = headRevision then fifoComparator db.forkHeads head delta
    else head
  let remaining := match db.heap.parent? delta with
    | some parent => db.forkHeads.erase parent
    | none => db.forkHeads
  Effect.modify fun db => { db with
    head := some newHead
    forkHeads := Insert.insert newHead remaining }

/-- The ids of indexed deltas below a node, less a whitelist. -/
def childIds (heap : Heap) (parentId : StateNodeId) (whitelist : List StateNodeId) :
    List Nat → Except Fault (List StateNodeId)
  | [] => .ok []
  | delta :: rest => do
      let ownParent ← heap.parentId delta
      let ids ← childIds heap parentId whitelist rest
      if ownParent = parentId then do
        let id ← heap.id delta
        pure (if whitelist.contains id then ids else id :: ids)
      else pure ids

/-- The queue of `remove`, breadth first. More entries than indexed deltas mean that an
id was queued below itself, and then the queue never ends. -/
def removeQueue (db : Database) (headId : StateNodeId) (whitelist : List StateNodeId) :
    Nat → List StateNodeId → Except Fault (List StateNodeId)
  | _, [] => .ok []
  | 0, _ :: _ => .error .diverges
  | fuel + 1, id :: pending =>
    if id = headId then .error (.exception "cannot discard an ancestor of head")
    else do
      let below ← childIds db.heap id whitelist db.index
      let rest ← removeQueue db headId whitelist fuel (pending ++ below)
      pure (id :: rest)

/-- Erase queued nodes. The source erases an index entry and then follows the erased
iterator to drop the fork head. -/
def eraseQueued : List StateNodeId → Effect Fault Database Unit
  | [] => pure ()
  | id :: rest => do
      let db ← Effect.read
      match ← Effect.ofExcept (db.find id) with
      | none => eraseQueued rest
      | some delta => do
          Effect.modify fun db => { db with index := db.index.erase delta }
          Effect.fail .useAfterErase

/-- `delta_index::remove`. -/
def remove (delta : Nat) (whitelist : List StateNodeId) : Effect Fault Database Unit := do
  requireOpen
  let db ← Effect.read
  let root ← Effect.expect .nullDereference db.root
  let head ← Effect.expect .nullDereference db.head
  let id ← Effect.ofExcept (db.heap.id delta)
  let rootId ← Effect.ofExcept (db.heap.id root)
  if id = rootId then Effect.fail (.exception "cannot discard root node")
  else do
    let headId ← Effect.ofExcept (db.heap.id head)
    let queue ← Effect.ofExcept
      (db.removeQueue headId whitelist (db.index.length + 1) [id])
    eraseQueued queue
    match db.heap.parent? delta with
    | some parent => Effect.modify fun db =>
      { db with forkHeads := db.forkHeads.erase parent }
    | none => pure ()

/-- `delta_index::commit`: move the root, commit the delta that the index holds under the
id and drop what does not descend from it. -/
def commit (hash : Bytes → Digest) (delta : Nat) : Effect Fault Database Unit := do
  requireOpen
  let db ← Effect.read
  let oldRoot ← Effect.expect .nullDereference db.root
  let id ← Effect.ofExcept (db.heap.id delta)
  let rootId ← Effect.ofExcept (db.heap.id oldRoot)
  if id = rootId then pure ()
  else do
    Effect.modify fun db => { db with root := some delta }
    match ← Effect.ofExcept (db.find id) with
    | none => Effect.fail .useAfterErase
    | some entry => do
        onHeap (Heap.commit hash entry)
        let committed ← Effect.read
        let newRootId ← Effect.ofExcept (committed.heap.id delta)
        remove oldRoot [newRootId]

/-- An open index is left as it is. -/
theorem returns_requireOpen {db after : Database} {value : Unit} :
    requireOpen.Returns db value after ↔ db.isOpen = true ∧ after = db := by
  simp only [requireOpen, returns_bind, returns_read, returns_ite, returns_pure, not_returns_fail]
  constructor
  · rintro ⟨_, _, ⟨rfl, rfl⟩, opened⟩
    split at opened
    · rename_i isOpen
      exact ⟨isOpen, opened.2⟩
    · exact opened.elim
  · rintro ⟨isOpen, rfl⟩
    exact ⟨after, after, ⟨rfl, rfl⟩, by simp [isOpen]⟩

/-- Asking whether the database is open changes nothing. -/
theorem requireOpen_keeps {rel : Database → Database → Prop} [Std.Refl rel]
    [IsTrans Database rel] : requireOpen.Keeps rel :=
  keeps_bind keeps_read fun _ =>
    keeps_ite (keeps_pure _) (keeps_fail _)

/-- An insertion extends the index unless the id is found in it. -/
theorem insert_returns {db : Database} {delta : Nat} {id : StateNodeId} {taken : Option Nat}
    (named : db.heap.id delta = .ok id) (looked : db.find id = .ok taken) :
    (insert delta).Returns db taken.isNone { db with
      index := if taken.isSome then db.index else db.index ++ [delta] } := by
  simp only [insert, returns_bind, returns_read, returns_ofExcept]
  refine ⟨db, db, ⟨rfl, rfl⟩, id, db, ⟨named, rfl⟩, taken, db, ⟨looked, rfl⟩, ?_⟩
  cases taken with
  | none => simp
  | some found => simp

/-- An insertion that returned changed at most the index. -/
theorem heap_of_insert {delta : Nat} {db after : Database} {inserted : Bool}
    (gave : (insert delta).Returns db inserted after) :
    after.heap = db.heap ∧ after.root = db.root ∧ after.head = db.head ∧
      after.forkHeads = db.forkHeads ∧
      after.index = if inserted then db.index ++ [delta] else db.index := by
  simp only [insert, returns_bind, returns_read, returns_ofExcept] at gave
  obtain ⟨_, _, ⟨rfl, rfl⟩, id, _, ⟨-, rfl⟩, found, _, ⟨-, rfl⟩, rest⟩ := gave
  cases found with
  | some taken =>
    obtain ⟨rfl, rfl⟩ := returns_pure.mp rest
    exact ⟨rfl, rfl, rfl, rfl, rfl⟩
  | none =>
    simp only [returns_bind, returns_modify, returns_pure] at rest
    obtain ⟨_, _, rfl, rfl, rfl⟩ := rest
    exact ⟨rfl, rfl, rfl, rfl, rfl⟩

end Database

namespace PermanentNode

open Database

/-- Finalize a node's delta and let the index know. -/
def finalize (delta : Nat) : Effect Fault Database Unit := do
  onHeap (Heap.finalize delta)
  Database.finalize delta

def merkleRoot (hash : Bytes → Digest) (delta : Nat) : Effect Fault Database Digest :=
  onHeap (Heap.merkleRoot hash delta)

def discard (delta : Nat) : Effect Fault Database Unit := Database.remove delta []

/-- Commit a node: its delta first, then the index. -/
def commit (hash : Bytes → Digest) (delta : Nat) : Effect Fault Database Unit := do
  onHeap (Heap.commit hash delta)
  Database.commit hash delta

/-- Create an indexed child. -/
def makeChild (delta : Nat) (childId : StateNodeId) : Effect Fault Database Nat := do
  let child ← onHeap (Heap.makeChild delta childId)
  Database.add child
  pure child

/-- Create an indexed copy. -/
def clone (delta : Nat) (newId : StateNodeId) : Effect Fault Database Nat := do
  let copy ← onHeap (Heap.clone delta newId)
  Database.add copy
  pure copy

end PermanentNode

end Respublica.StateDb
