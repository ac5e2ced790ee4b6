import Respublica.Foundation.Effect
import Respublica.Foundation.Forest
import Respublica.StateDb.Backend

/-!
# State deltas

A `state_delta` holds what changed since its parent: a backend with stored objects
and the set of keys removed. Deltas point at their parents only, so the live deltas
form a forest, and a delta is named by its index there. A backend pointer can be
null: committing a delta takes the backend away from the old root.

Every routine below is the source's, one by one. What a routine does after following
a null pointer is not meaningful; only that it does not return is.
-/

namespace Respublica.StateDb

open Foundation Crypto

/-- The fields of a `state_delta`. Its parent pointer is kept by the heap. -/
structure Delta where
  backend : Option Backend
  removedObjects : Keys
  merkleRoot : Option Digest
  final : Bool

/-- All deltas that were created. -/
abbrev Heap := Forest Delta

namespace Heap

/-- `root()`: the parent pointer is null. -/
def root (heap : Heap) (index : Nat) : Bool := (heap.parent? index).isNone

/-- The delta behind a pointer. -/
def delta (index : Nat) : Effect Fault Heap Delta := do
  let heap ← Effect.read
  Effect.expect .nullDereference (heap.node? index)

/-- The backend of a delta, followed without a null check as the source does. -/
def backend (heap : Heap) (index : Nat) : Except Fault Backend :=
  match (heap.node? index).bind Delta.backend with
  | some backend => .ok backend
  | none => .error .nullDereference

/-- `get` along a lineage: the backend first, then nothing at a root or behind a
removal, and the parent otherwise. -/
def getAlong (heap : Heap) (key : Bytes) : List Nat → Except Fault (Option Bytes)
  | [] => .error .nullDereference
  | index :: ancestors =>
    match heap.node? index with
    | none => .error .nullDereference
    | some delta =>
      match delta.backend with
      | none => .error .nullDereference
      | some backend =>
        match backend.get key with
        | some value => .ok (some value)
        | none =>
          if heap.root index || delta.removedObjects.contains key then .ok none
          else heap.getAlong key ancestors

/-- The value a delta shows for a key. -/
def get (heap : Heap) (index : Nat) (key : Bytes) : Except Fault (Option Bytes) :=
  heap.getAlong key (heap.lineage index)

def final (heap : Heap) (index : Nat) : Bool := ((heap.node? index).map Delta.final).getD false

def id (heap : Heap) (index : Nat) : Except Fault StateNodeId := Backend.id <$> heap.backend index

def revision (heap : Heap) (index : Nat) : Except Fault UInt64 :=
  Backend.revision <$> heap.backend index

/-- The id of the parent, or the null id for a root. -/
def parentId (heap : Heap) (index : Nat) : Except Fault StateNodeId :=
  match heap.parent? index with
  | some parent => heap.id parent
  | none => .ok nullId

/-- What `put` and `remove` subtract for an object the parent shows. -/
def parentSize (heap : Heap) (index : Nat) (key : Bytes) : Except Fault Int :=
  match heap.parent? index with
  | none => .ok 0
  | some parent => do
      match ← heap.get parent key with
      | some value => pure (- Backend.objectSize key value)
      | none => pure 0

/-- Apply a change to the backend a delta holds. -/
def changeBackend (change : Backend → Backend) (delta : Delta) : Delta :=
  { delta with backend := delta.backend.map change }

/-- Store a value. The removed set is left alone. -/
def put (index : Nat) (key value : Bytes) : Effect Fault Heap Int := do
  let heap ← Effect.read
  if heap.final index then
    Effect.fail (.exception "cannot modify a final state delta")
  else do
    let size ← Effect.ofExcept (heap.parentSize index key)
    let backend ← Effect.ofExcept (heap.backend index)
    Effect.modify fun heap => heap.update index (changeBackend (Backend.put · key value))
    pure (size + backend.putSize key value)

/-- The size `remove` reports: what the own backend gave up or, when that is nothing,
the object the parent shows. -/
def removeSize (heap : Heap) (index : Nat) (key : Bytes) (own : Backend) : Except Fault Int :=
  if own.removeSize key = 0 then heap.parentSize index key else .ok (own.removeSize key)

/-- Drop a key from the backend and record it when a size was reported. -/
def removeKey (key : Bytes) (size : Int) (delta : Delta) : Delta :=
  { changeBackend (Backend.remove · key) delta with
    removedObjects := if size = 0 then delta.removedObjects else delta.removedObjects.insert key }

/-- Remove a key. -/
def remove (index : Nat) (key : Bytes) : Effect Fault Heap Int := do
  let heap ← Effect.read
  if heap.final index then
    Effect.fail (.exception "cannot modify a final state delta")
  else do
    let own ← Effect.ofExcept (heap.backend index)
    let size ← Effect.ofExcept (heap.removeSize index key own)
    Effect.modify fun heap => heap.update index (removeKey key size)
    pure size

/-- Take over the removals and then the objects of another delta. -/
def absorb (backend : Backend) (removed : Keys) (objects : Objects) : Backend :=
  objects.toList.foldl (fun target object => target.put object.1 object.2)
    (removed.toList.foldl Backend.remove backend)

/-- The removed set of a parent that is not a root, after a child is squashed. -/
def absorbRemoved (own removed : Keys) (objects : Objects) : Keys :=
  objects.toList.foldl (fun target object => target.erase object.1)
    (removed.toList.foldl (fun target key => target.insert key) own)

/-- What a parent becomes when a child is squashed into it. A root parent records no
removals. -/
def takeChild (isRoot : Bool) (removed : Keys) (objects : Objects) (delta : Delta) : Delta :=
  { changeBackend (absorb · removed objects) delta with
    removedObjects :=
      if isRoot then delta.removedObjects
      else absorbRemoved delta.removedObjects removed objects }

/-- What is left of a delta whose records are dropped. -/
def emptied (delta : Delta) : Delta :=
  { changeBackend (fun backend => { backend with map := ∅ }) delta with removedObjects := ∅ }

/-- Move everything a delta records into its parent. The parent's backend is followed
only when there is something to move. -/
def squash (index : Nat) : Effect Fault Heap Unit := do
  let heap ← Effect.read
  match heap.parent? index with
  | none => pure ()
  | some parent => do
      let child ← delta index
      let own ← Effect.expect .nullDereference child.backend
      if child.removedObjects.isEmpty && own.map.isEmpty then pure ()
      else do
        let _ ← Effect.ofExcept (heap.backend parent)
        Effect.modify fun heap => (heap.update parent
          (takeChild (heap.root parent) child.removedObjects own.map)).update index emptied

/-- Drop everything a delta records. -/
def clear (index : Nat) : Effect Fault Heap Unit := do
  let node ← delta index
  let _ ← Effect.expect .nullDereference node.backend
  Effect.modify fun heap => heap.update index emptied

/-- `squash` through a temporary node, which refuses a final parent. -/
def squashTemporary (index : Nat) : Effect Fault Heap Unit := do
  let heap ← Effect.read
  let parent ← Effect.expect .nullDereference (heap.parent? index)
  if heap.final parent then Effect.fail (.exception "parent state node is final")
  else squash index

/-- The merge of stored objects and removed keys in key order. Before each object come
the removed keys that are not behind it; a removed key contributes an empty value. -/
def merkleLeafs : List (Bytes × Bytes) → List Bytes → List Bytes
  | [], removed => removed.flatMap fun key => [key, []]
  | object :: objects, removed =>
    ((removed.takeWhile fun key => compare object.1 key != .lt).flatMap fun key => [key, []]) ++
      object.1 :: object.2 ::
        merkleLeafs objects (removed.dropWhile fun key => compare object.1 key != .lt)

/-- The cached Merkle root of a final delta. -/
def merkleRoot (hash : Bytes → Digest) (index : Nat) : Effect Fault Heap Digest := do
  let node ← delta index
  if !node.final then
    Effect.fail (.exception "cannot return merkle root of non-final node")
  else
    match node.merkleRoot with
    | some root => pure root
    | none => do
        let own ← Effect.expect .nullDereference node.backend
        let root := Crypto.merkleRoot hash
          (merkleLeafs own.map.toList node.removedObjects.toList)
        Effect.modify fun heap => heap.update index fun delta =>
          { delta with merkleRoot := some root }
        pure root

/-- A delta for a root that starts empty. -/
def createRoot (heap : Heap) : Heap :=
  heap.push none ⟨some (Backend.create nullId 0), ∅, none, false⟩

/-- An empty delta below one with the given backend; the null id stands for the id of
the parent. -/
def childOf (own : Backend) (childId : StateNodeId) : Delta :=
  ⟨some (Backend.create (if childId = nullId then own.id else childId) (own.revision + 1)),
    ∅, none, false⟩

def makeChild (index : Nat) (childId : StateNodeId) : Effect Fault Heap Nat := do
  let heap ← Effect.read
  let own ← Effect.ofExcept (heap.backend index)
  Effect.modify fun heap => heap.push (some index) (childOf own childId)
  pure heap.size

/-- The backend of a copy: another id when one is given, and the cached Merkle root. -/
def copyBackend (own : Backend) (newId : StateNodeId) (merkleRoot : Option Digest) : Backend :=
  { own with
    id := if newId = nullId then own.id else newId
    merkleRoot := merkleRoot.getD own.merkleRoot }

/-- Copy a delta under the same parent. -/
def clone (index : Nat) (newId : StateNodeId) : Effect Fault Heap Nat := do
  let heap ← Effect.read
  let node ← delta index
  let own ← Effect.expect .nullDereference node.backend
  Effect.modify fun heap => heap.push (heap.parent? index)
    { node with backend := some (copyBackend own newId node.merkleRoot) }
  pure heap.size

def finalize (index : Nat) : Effect Fault Heap Unit := do
  let _ ← delta index
  Effect.modify fun heap => heap.update index fun delta => { delta with final := true }

/-- Write the deltas of a path into a backend, the oldest first. Their backends are
left empty; their removed sets are not touched. -/
def drain : List Nat → Backend → Effect Fault Heap Backend
  | [], target => pure target
  | index :: younger, target => do
      let node ← delta index
      let own ← Effect.expect .nullDereference node.backend
      Effect.modify fun heap => heap.update index
        (changeBackend fun backend => { backend with map := ∅ })
      drain younger (absorb target node.removedObjects own.map)

/-- Make a delta the root: the old root's backend is taken away from it, filled with
the deltas in between and handed over. -/
def commit (hash : Bytes → Digest) (index : Nat) : Effect Fault Heap Unit := do
  let heap ← Effect.read
  if heap.root index then Effect.fail (.exception "cannot commit root")
  else
    match (heap.lineage index).reverse with
    | [] => Effect.fail .nullDereference
    | oldRoot :: path => do
        let rootDelta ← delta oldRoot
        Effect.modify fun heap => heap.update oldRoot fun delta => { delta with backend := none }
        let target ← Effect.expect .nullDereference rootDelta.backend
        let target ← drain path target
        let drained ← Effect.read
        let revision ← Effect.ofExcept (drained.revision index)
        let id ← Effect.ofExcept (drained.id index)
        let root ← merkleRoot hash index
        let target := { target with revision := revision, id := id, merkleRoot := root }
        Effect.modify fun heap => (heap.update index fun delta =>
          { delta with backend := some target, removedObjects := ∅ }).detach index

end Heap

end Respublica.StateDb
