import Respublica.Controller.ExecutionContext

/-!
# Applying transactions and blocks

A transaction is applied in three phases. Its payer and payee are asked for their
authority, and its nonce is written and its size is charged, on the node of the block; its
operations then run on a child node that is squashed into the block's node unless one of
them fails. The phases are separate definitions here so that results can speak about the
states between them.
-/

namespace Respublica.Controller

open Foundation Crypto Program Protocol StateDb

/-- Continue after a value, and pass an error code on. -/
def andThen {First Second : Type} (first : Run (Result First))
    (next : First → Run (Result Second)) : Run (Result Second) := do
  match ← first with
  | .error error => pure (.error error)
  | .ok value => next value

/-- Turn a code that tests true into an error. -/
def unlessFailed (code : Run ErrorCode) : Run (Result Unit) := do
  let code ← code
  pure (if code.failed then .error code else .ok ())

namespace Context

/-- `default_account_resources`, which every account has. -/
def accountResources (_account : Account) : UInt64 := 1000000000

/-- The default limits and costs of a block. -/
def resourceLimits : ResourceLimits where
  limit := ⟨409600, 1048576, 100000000⟩
  cost := ⟨10, 5, 1⟩

/-- The stored nonce of an account; no nonce counts as zero. -/
def accountNonce (account : Account) : Run UInt64 := do
  match ← getState ObjectSpace.transactionNonce account.1 with
  | none => pure 0
  | some bytes =>
    if bytes.length < 8 then Effect.fail (.exception "byte span is too small")
    else pure (loadWord bytes)

/-- Store a nonce and then pay for the bytes. -/
def setAccountNonce (account : Account) (nonce : UInt64) : Run ErrorCode := do
  let size ← putState ObjectSpace.transactionNonce account.1 (storeWord nonce)
  onMeter (Meter.useDiskStorage (UInt64.ofInt size))

end Context

namespace Transaction

/-- A payee with any non-zero byte takes the nonce. -/
def usePayeeNonce (tx : Transaction) : Bool := tx.payee.1.any (· != 0)

/-- The account whose nonce a transaction advances. -/
def nonceAccount (tx : Transaction) : Account :=
  if usePayeeNonce tx then tx.payee else tx.payer

end Transaction

namespace Context

variable (env : Env)

/-- `check_authority` outside of any program. -/
def authority (account : Account) : Run (Result Bool) :=
  checkAuthority env.crypto (runProgram env) account

/-- Insist on the authority of an account. -/
def requireAuthority (account : Account) : Run (Result Unit) := do
  match ← authority env account with
  | .error error => pure (.error error)
  | .ok true => pure (.ok ())
  | .ok false => pure (.error (.controller .authorizationFailure))

/-- The first upload is signed with the user key of the program's id, later ones are
authorized by the program. The write is not metered. -/
def applyUploadProgram (id : Account) (bytecode : Bytes) : Run ErrorCode := do
  let existing ← getState ObjectSpace.programData id.1
  let owner := if existing.isSome then id else id.userAccount
  match ← requireAuthority env owner with
  | .error error => pure error
  | .ok () => do
      let _ ← putState ObjectSpace.programData id.1
        ((env.crypto.hash bytecode).1 ++ bytecode)
      pure (.controller .ok)

def applyCallProgram (id : Account) (input : ProgramInput) : Run ErrorCode := do
  match ← runProgram env .strict id input.stdin input.arguments with
  | .error error => pure error
  | .ok _ => pure (.controller .ok)

def applyOperation : Operation → Run ErrorCode
  | .uploadProgram id bytecode => applyUploadProgram env id bytecode
  | .callProgram id input => applyCallProgram env id input

/-- Operations in order, up to the first that fails. -/
def applyOperations : List Operation → Run ErrorCode
  | [] => pure (.controller .ok)
  | operation :: rest => do
      let code ← applyOperation env operation
      if code.failed then pure code else applyOperations rest

/-- Point the context at another state node. -/
def setStateNode (node : Nat) : Run Unit :=
  Effect.modify fun context => { context with stateNode := node }

/-- What starting a transaction sets: the transaction, no verified signers, and a session
over its resource limit. -/
def beginTransaction (tx : Transaction) (context : Context) : Context :=
  { context with
    transaction := some tx
    verifiedSignatures := []
    meter := { context.meter with session := some (Session.create tx.resourceLimit) } }

/-- The first phase: resources and authority of the payer and, if it takes the nonce, the
payee. -/
def authorizeTransaction (tx : Transaction) : Run (Result Unit) :=
  if accountResources tx.payer < tx.resourceLimit then
    pure (.error (.controller .insufficientResources))
  else
    andThen (requireAuthority env tx.payer) fun _ =>
      if Transaction.usePayeeNonce tx then
        requireAuthority env tx.payee
      else pure (.ok ())

/-- The second phase: the nonce and the network bandwidth. -/
def chargeTransaction (tx : Transaction) : Run (Result Unit) := do
  let nonce ← accountNonce (Transaction.nonceAccount tx)
  if nonce + 1 ≠ tx.nonce then pure (.error (.controller .invalidNonce))
  else
    andThen
      (unlessFailed (setAccountNonce (Transaction.nonceAccount tx) tx.nonce))
      fun _ => unlessFailed
        (onMeter (Meter.useNetworkBandwidth (UInt64.ofNat tx.size)))

/-- The third phase: the operations on a node of their own. -/
def executeTransaction (tx : Transaction) : Run ErrorCode := do
  let context ← Effect.read
  let transactionNode ← onHeap (Heap.makeChild context.stateNode nullId)
  setStateNode transactionNode
  let code ← applyOperations env tx.operations
  if code.failed then do
    setStateNode context.stateNode
    pure code
  else do
    onHeap (Heap.squashTemporary transactionNode)
    setStateNode context.stateNode
    pure (.controller .ok)

/-- The receipt of a transaction whose operations ended with a code, given the resources
remaining before it. -/
def transactionReceipt (tx : Transaction) (initial : ResourceState) (code : ErrorCode) :
    Run TransactionReceipt := do
  let context ← Effect.read
  Effect.modify fun context => { context with frames := [] }
  pure {
    id := tx.id
    reverted := code.failed
    payer := tx.payer
    payee := tx.payee
    frames := context.frames
    resourceLimit := tx.resourceLimit
    resourceUsed := (context.meter.session.map Session.usedResources).getD 0
    diskStorageUsed := initial.diskStorage - context.meter.remaining.diskStorage
    networkBandwidthUsed := initial.networkBandwidth - context.meter.remaining.networkBandwidth
    computeBandwidthUsed := initial.computeBandwidth - context.meter.remaining.computeBandwidth }

/-- The session expires with the routine that holds it. -/
def endSession (context : Context) : Context :=
  { context with meter := { context.meter with session := none } }

/-- Apply a transaction to the state node. -/
def applyTransaction (tx : Transaction) : Run (Result TransactionReceipt) :=
  Effect.ensuring endSession do
    let context ← Effect.read
    Effect.modify (beginTransaction tx)
    andThen (authorizeTransaction env tx) fun _ =>
      andThen (chargeTransaction tx) fun _ => do
        let code ← executeTransaction env tx
        let receipt ← transactionReceipt tx context.meter.remaining code
        pure (.ok receipt)

/-- Transactions in order, up to the first that is refused. -/
def applyTransactions : List Transaction → Run (Result (List TransactionReceipt))
  | [] => pure (.ok [])
  | tx :: rest =>
    andThen (applyTransaction env tx) fun receipt =>
      andThen (applyTransactions rest) fun receipts => pure (.ok (receipt :: receipts))

/-- The metadata key of the genesis public key. -/
def genesisKey : Bytes := (env.crypto.hash "object_key::genesis_key".toUTF8.data.toList).1

/-- Apply a block to the state node. The Merkle root is filled in by the controller. -/
def applyBlock (block : Block) : Run (Result BlockReceipt) := do
  Effect.modify fun context => { context with
    meter := context.meter.setResourceLimits resourceLimits }
  let start ← Effect.read
  match ← getState ObjectSpace.metadata (genesisKey env) with
  | none => Effect.fail (.exception "genesis address not found")
  | some key =>
    if key ≠ block.signer.publicKey.1 then pure (.error (.controller .invalidSignature))
    else
      andThen (applyTransactions env block.transactions) fun receipts => do
        let context ← Effect.read
        let used (field : ResourceState → UInt64) : UInt64 :=
          field start.meter.remaining - field context.meter.remaining
        Effect.modify fun context => { context with frames := [] }
        pure (.ok {
          id := block.id
          height := block.height
          frames := context.frames
          diskStorageUsed := used ResourceState.diskStorage
          networkBandwidthUsed := used ResourceState.networkBandwidth
          computeBandwidthUsed := used ResourceState.computeBandwidth
          stateMerkleRoot := SizedBytes.zero 32
          transactionReceipts := receipts
          diskStorageCharged := used ResourceState.diskStorage
          networkBandwidthCharged := used ResourceState.networkBandwidth
          computeBandwidthCharged := used ResourceState.computeBandwidth })

end Context

end Respublica.Controller
