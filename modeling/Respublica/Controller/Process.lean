import Respublica.Controller.Apply
import Respublica.StateDb.Database

/-!
# The controller

`controller::process` for blocks: a block is looked up, a node is created for it below its
predecessor, it is checked against that predecessor, applied to its node, and its node is
finalized. The node is created before the block is checked, and a block that fails a check
leaves it behind.

`controller::process` for transactions applies one on a temporary child of the head, and
`controller::read_program` runs a program on the head.
-/

namespace Respublica.Controller

open Foundation Crypto Program Protocol StateDb Context PermanentNode

/-- `state::head`. -/
structure HeadInfo where
  id : Digest
  height : UInt64
  previous : Digest
  lastIrreversibleBlock : UInt64
  stateMerkleRoot : Digest
  time : UInt64
deriving DecidableEq

/-- An object of the initial state. -/
structure GenesisEntry where
  space : ObjectSpace
  key : Bytes
  value : Bytes

namespace GenesisEntry

/-- Where an entry is stored. -/
def compoundKey (entry : GenesisEntry) : Bytes := makeCompoundKey entry.space entry.key

end GenesisEntry

variable (env : Env)

/-- Write the initial objects into a new root, each under a key of its own. -/
def writeEntries (root : Nat) : List GenesisEntry → Effect Fault Heap Unit
  | [] => pure ()
  | entry :: rest => do
      let heap ← Effect.read
      let existing ← Effect.ofExcept (heap.get root entry.compoundKey)
      if existing.isSome then
        Effect.fail (.exception "encountered unexpected object in initial state")
      else do
        let _ ← Heap.put root entry.compoundKey entry.value
        writeEntries root rest

/-- The initial state, which has to have the genesis key. -/
def writeGenesis (entries : List GenesisEntry) (root : Nat) : Effect Fault Heap Unit := do
  writeEntries root entries
  let heap ← Effect.read
  let key ← Effect.ofExcept
    (heap.get root (makeCompoundKey ObjectSpace.metadata (genesisKey env)))
  if key.isSome then pure ()
  else Effect.fail (.exception "could not find genesis public key in database")

/-- `controller::open`. -/
def openController (entries : List GenesisEntry) (reset : Bool) : Effect Fault Database Unit := do
  Database.openIndex (writeGenesis env entries)
  if reset then Database.reset (writeGenesis env entries) else pure ()

/-- Run a routine of a new context for a node. -/
def inContext {Value : Type} (node : Nat) (intent : Intent) (routine : Run Value) :
    Effect Fault Database Value :=
  Effect.within (fun db => create db.heap node intent)
    (fun db context => { db with heap := context.heap }) routine

/-- `execution_context::head` of a permanent node. The time and the last irreversible block
are left at their defaults. -/
def headInfo (node : Nat) : Effect Fault Database HeadInfo := do
  let db ← Effect.read
  let id ← Effect.ofExcept (db.heap.id node)
  let height ← Effect.ofExcept (db.heap.revision node)
  let previous ← Effect.ofExcept (db.heap.parentId node)
  let stateMerkleRoot ← merkleRoot env.crypto.hash node
  pure { id, height, previous, lastIrreversibleBlock := 0, stateMerkleRoot, time := 0 }

/-- The latest timestamp a block may have: five seconds from now, in milliseconds, compared as an
unsigned number. The clock is taken to count nanoseconds, as that of the usual libraries does, and
its count to be far enough from the end of its 64 bits for five seconds more. -/
def timeUpperBound (now : Int) : UInt64 := UInt64.ofInt ((now + 5000000000).tdiv 1000000)

/-- The final node a block builds on, or why it has none. A block that is known, or is the
root, answers with the code `ok`. -/
def findParent (block : Block) : Effect Fault Database (Result Nat) := do
  let blockNode ← Database.get block.id
  let parentNode ← Database.get block.previous
  let db ← Effect.read
  if blockNode.isSome then pure (.error (.controller .ok))
  else match parentNode with
    | none => do
        let root ← Effect.expect .nullDereference db.root
        let rootRevision ← Effect.ofExcept (db.heap.revision root)
        if block.height < rootRevision then
          pure (.error (.controller .preIrreversibilityBlock))
        else do
          let rootId ← Effect.ofExcept (db.heap.id root)
          if block.id ≠ rootId then pure (.error (.controller .unknownPreviousBlock))
          else pure (.error (.controller .ok))
    | some parent =>
      if db.heap.final parent then pure (.ok parent)
      else pure (.error (.controller .unknownPreviousBlock))

/-- The time of a block lies after the lower bound and not behind the upper bound. -/
def checkTime (block : Block) (lowerBound upperBound : UInt64) : Result Unit :=
  if upperBound < block.timestamp ∨ block.timestamp ≤ lowerBound then
    .error (.controller .timestampOutOfBounds)
  else .ok ()

/-- The checks of a block against its predecessor: the state it builds on, its height and its
time. The first block is checked for its height and time only. -/
def checkBlock (block : Block) (parent : Nat) (now : Int) : Effect Fault Database (Result Unit) :=
  if block.previous = nullId then
    if block.height ≠ 1 then pure (.error (.controller .unexpectedHeight))
    else pure (checkTime block 0 (timeUpperBound now))
  else do
    let stateMerkleRoot ← merkleRoot env.crypto.hash parent
    if block.stateMerkleRoot ≠ stateMerkleRoot then
      pure (.error (.controller .stateMerkleMismatch))
    else do
      let info ← headInfo env parent
      if block.height ≠ info.height + 1 then pure (.error (.controller .unexpectedHeight))
      else pure (checkTime block info.time (timeUpperBound now))

/-- `default_irreversible_threshold`. -/
def irreversibleThreshold : UInt64 := 60

/-- The revision that a node of the given revision makes irreversible. -/
def irreversibleBlock (revision : UInt64) : UInt64 :=
  if irreversibleThreshold < revision then revision - irreversibleThreshold else 0

/-- What follows when a block has been applied to its node. -/
def acceptBlock (block : Block) (node : Nat) (receipt : BlockReceipt) :
    Effect Fault Database BlockReceipt := do
  let applied ← Effect.read
  let revision ← Effect.ofExcept (applied.heap.revision node)
  finalize node
  let stateMerkleRoot ← merkleRoot env.crypto.hash node
  let db ← Effect.read
  let root ← Effect.expect .nullDereference db.root
  let rootRevision ← Effect.ofExcept (db.heap.revision root)
  if rootRevision < irreversibleBlock revision then do
    let irreversible ← Database.atRevision (irreversibleBlock revision) block.id
    commit env.crypto.hash irreversible
  else pure ()
  pure { receipt with stateMerkleRoot := stateMerkleRoot }

/-- Check a block against its predecessor and apply it to the node made for it. -/
def evaluateBlock (block : Block) (parent node : Nat) (now : Int) :
    Effect Fault Database (Result BlockReceipt) := do
  match ← checkBlock env block parent now with
  | .error error => pure (.error error)
  | .ok () =>
    match ← inContext node .blockApplication (applyBlock env block) with
    | .error error => pure (.error error)
    | .ok receipt => do
        let receipt ← acceptBlock env block node receipt
        pure (.ok receipt)

/-- `controller::process` of a block at a time of the clock. -/
def processBlock (block : Block) (now : Int) : Effect Fault Database (Result BlockReceipt) := do
  if ¬ block.validate env.crypto then pure (.error (.controller .malformedBlock))
  else
    match ← findParent block with
    | .error error => pure (.error error)
    | .ok parent => do
        let node ← makeChild parent block.id
        evaluateBlock env block parent node now

/-- The network the controller runs. -/
def networkId : Digest := env.crypto.hash "respublica".toUTF8.data.toList

/-- Apply a transaction on its own, against the limits of a block. -/
def applyAlone (tx : Transaction) : Run (Result TransactionReceipt) := do
  Effect.modify fun context => { context with
    meter := context.meter.setResourceLimits resourceLimits }
  applyTransaction env tx

/-- `controller::process` of a transaction. -/
def processTransaction (tx : Transaction) :
    Effect Fault Database (Result TransactionReceipt) := do
  if ¬ tx.validate env.crypto.hash then
    pure (.error (.controller .malformedTransaction))
  else if networkId env ≠ tx.networkId then
    pure (.error (.controller .networkIdMismatch))
  else do
    let db ← Effect.read
    let head ← Effect.expect .nullDereference db.head
    let node ← Database.onHeap (Heap.makeChild head nullId)
    inContext node .transactionApplication (applyAlone env tx)

/-- The limits of a read: so much compute, and nothing else. -/
def readLimits (computeBandwidthLimit : UInt64) : ResourceLimits :=
  ⟨⟨0, 0, computeBandwidthLimit⟩, ⟨0, 0, 0⟩⟩

/-- `controller::read_program`: a program is run on the head itself, in a context that is for
reading only. The limit is the controller's `_read_compute_bandwidth_limit`. -/
def readProgram (computeBandwidthLimit : UInt64) (account : Account) (input : ProgramInput) :
    Effect Fault Database (Result ProgramOutput) := do
  let db ← Effect.read
  let head ← Effect.expect .nullDereference db.head
  inContext head .readOnly do
    Effect.modify fun context => { context with
      meter := context.meter.setResourceLimits (readLimits computeBandwidthLimit) }
    runProgram env .relaxed account input.stdin input.arguments

end Respublica.Controller
