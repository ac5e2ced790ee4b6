import Respublica.Protocol.Transaction

/-!
# Blocks

A block names its predecessor, carries the Merkle root of the state it builds on
and is signed over its own id.
-/

namespace Respublica.Protocol

open Foundation Crypto

/-- A signed list of transactions on top of a previous block. -/
structure Block where
  id : Digest
  previous : Digest
  height : UInt64
  timestamp : UInt64
  stateMerkleRoot : Digest
  transactions : List Transaction
  signer : Account
  signature : Signature
deriving DecidableEq

namespace Block

/-- Everything `make_id` feeds to the hasher for a block: of a transaction, its id
and its signers, but not their signatures. -/
def stream (block : Block) : Bytes :=
  block.previous.1 ++ storeWord block.height ++ storeWord block.timestamp ++
    block.stateMerkleRoot.1 ++
    (block.transactions.flatMap fun tx =>
      tx.id.1 ++ tx.authorizations.flatMap fun authorization =>
        authorization.signer.1) ++
    block.signer.1

/-- The block's id, recomputed. -/
def makeId (hash : Bytes → Digest) (block : Block) : Digest := hash block.stream

/-- The accounted size of a block in bytes. -/
def size (block : Block) : Nat :=
  block.id.1.length + block.previous.1.length + 8 + 8 + block.stateMerkleRoot.1.length +
    (block.transactions.map Transaction.size).sum + block.signer.1.length +
    block.signature.1.length

/-- The stateless checks of a block. -/
def validate (crypto : Primitives) (block : Block) : Bool :=
  block.height != 0 && block.timestamp != 0 && block.makeId crypto.hash == block.id &&
    block.signer.user && crypto.verify block.signer.publicKey block.signature block.id &&
    block.transactions.all (Transaction.validate crypto.hash)

end Block

/-- What applying a block reports. -/
structure BlockReceipt where
  id : Digest
  height : UInt64
  frames : List ProgramFrame
  diskStorageUsed : UInt64
  networkBandwidthUsed : UInt64
  computeBandwidthUsed : UInt64
  stateMerkleRoot : Digest
  transactionReceipts : List TransactionReceipt
  diskStorageCharged : UInt64
  networkBandwidthCharged : UInt64
  computeBandwidthCharged : UInt64
deriving DecidableEq

end Respublica.Protocol
