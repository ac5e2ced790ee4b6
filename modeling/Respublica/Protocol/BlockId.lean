import Mathlib.Data.Set.Function
import Respublica.Protocol.Block

/-!
# What a block id binds

The proposer signs a block's id only, so the id has to determine the block. The
head of the stream and the block's signer have fixed widths and are determined.
The transactions are not: their 32-byte ids and the 33-byte signers of their
authorizations follow each other without a count, so one stream can be cut into
transactions in several ways.
-/

namespace Respublica.Protocol

open Foundation Crypto

namespace Transaction

/-- The accounts that a transaction's authorizations name. -/
def signers (tx : Transaction) : List Account :=
  tx.authorizations.map Authorization.signer

/-- The bytes that a transaction contributes to a block's stream. -/
def entry (tx : Transaction) : Bytes :=
  tx.id.1 ++ tx.signers.flatMap fun signer => signer.1

/-- An entry has the id and 33 bytes for every signer. -/
theorem length_entry (tx : Transaction) :
    tx.entry.length = 32 + tx.signers.length * 33 := by
  have widths : (tx.signers.map fun signer => signer.1.length) =
      tx.signers.map fun _ => 33 :=
    List.map_congr_left fun signer _ => signer.2
  rw [entry, List.length_append, tx.id.2, List.length_flatMap, widths,
    List.map_const', List.sum_replicate_nat]

/-- What a block's id is meant to cover of a transaction: its id and the accounts
that authorize it. -/
def covered (tx : Transaction) : Digest × List Account :=
  (tx.id, tx.signers)

/-- One entry, cut off from its neighbours, determines what it covers: its length
gives the number of signers. -/
theorem covered_factorsThrough_entry : covered.FactorsThrough entry := by
  intro left right same
  have lengths := congrArg List.length same
  rw [length_entry, length_entry] at lengths
  have number : left.signers.length = right.signers.length := by omega
  obtain ⟨ids, signers⟩ := List.append_inj same (by rw [left.id.2, right.id.2])
  exact Prod.ext (Subtype.ext ids) (SizedBytes.eq_of_flatMap number signers)

end Transaction

namespace Block

/-- The fixed-width head of a block's stream. -/
def header (block : Block) : Bytes :=
  block.previous.1 ++ storeWord block.height ++ storeWord block.timestamp ++
    block.stateMerkleRoot.1

/-- How a block is cut into transactions: the number of signers of each. -/
def shape (block : Block) : List Nat :=
  block.transactions.map fun tx => tx.signers.length

/-- What a block's id is meant to cover of its transactions. -/
def contents (block : Block) : List (Digest × List Account) :=
  block.transactions.map Transaction.covered

theorem length_header (block : Block) : block.header.length = 80 := by
  simp [header, block.previous.2, block.stateMerkleRoot.2]

/-- The stream has the header, the entries and the signer. -/
theorem stream_eq (block : Block) :
    block.stream =
      block.header ++ block.transactions.flatMap Transaction.entry ++ block.signer.1 := by
  have entries : (fun tx : Transaction => tx.id.1 ++
      tx.authorizations.flatMap fun authorization => authorization.signer.1) =
        Transaction.entry := by
    funext tx
    rw [Transaction.entry, Transaction.signers, List.flatMap_map]
  rw [stream, entries, header]

variable {crypto : Primitives} {left right : Block}

/-- A valid block's id is the recomputed one. -/
theorem makeId_of_validate {block : Block} (valid : block.validate crypto = true) :
    block.makeId crypto.hash = block.id := by
  simp only [validate, Bool.and_eq_true, beq_iff_eq] at valid
  exact valid.1.1.1.2

/-- Equal streams have equal heads and signers, and their transactions feed equal
bytes. -/
theorem stream_split (same : left.stream = right.stream) :
    left.header = right.header ∧
      left.transactions.flatMap Transaction.entry =
        right.transactions.flatMap Transaction.entry ∧
      left.signer = right.signer := by
  rw [stream_eq, stream_eq] at same
  obtain ⟨upToSigner, signers⟩ := List.append_inj' same (by rw [left.signer.2, right.signer.2])
  obtain ⟨headers, entries⟩ := List.append_inj upToSigner (by rw [length_header, length_header])
  exact ⟨headers, entries, Subtype.ext signers⟩

/-- The header determines its four fields, because each has a fixed width. -/
theorem header_fields (same : left.header = right.header) :
    left.previous = right.previous ∧ left.height = right.height ∧
      left.timestamp = right.timestamp ∧ left.stateMerkleRoot = right.stateMerkleRoot := by
  obtain ⟨upToTimestamp, roots⟩ :=
    List.append_inj' same (by rw [left.stateMerkleRoot.2, right.stateMerkleRoot.2])
  obtain ⟨upToHeight, timestamps⟩ := List.append_inj' upToTimestamp (by simp)
  obtain ⟨previous, heights⟩ := List.append_inj' upToHeight (by simp)
  exact ⟨Subtype.ext previous, storeWord_injective heights, storeWord_injective timestamps,
    Subtype.ext roots⟩

/-- Blocks cut the same way with the same transaction bytes have the same contents. -/
theorem contents_eq_of_shape (shapes : left.shape = right.shape)
    (same : left.transactions.flatMap Transaction.entry =
      right.transactions.flatMap Transaction.entry) :
    left.contents = right.contents := by
  have widths (block : Block) : (block.transactions.map Transaction.entry).map List.length =
      block.shape.map fun number => 32 + number * 33 := by
    rw [shape, List.map_map, List.map_map]
    exact List.map_congr_left fun tx _ => tx.length_entry
  have entries := List.eq_iff_flatten_eq.mpr ⟨same, by rw [widths, widths, shapes]⟩
  have through (block : Block) : block.contents =
      (block.transactions.map Transaction.entry).map
        (Function.extend Transaction.entry Transaction.covered fun _ =>
          (SizedBytes.zero 32, [])) := by
    rw [List.map_map, Transaction.covered_factorsThrough_entry.extend_comp, contents]
  rw [through, through, entries]

/-- Equal contents have equal shapes. -/
theorem shape_eq_of_contents (same : left.contents = right.contents) :
    left.shape = right.shape := by
  have counted (block : Block) :
      block.shape = block.contents.map fun covered => covered.2.length := by
    rw [shape, contents, List.map_map]
    rfl
  rw [counted, counted, same]

/-- Of two valid blocks with one id, everything but the transactions is equal in any
case, and what is covered of the transactions is equal exactly when both blocks
are cut the same way. -/
theorem validate_binds_contents_iff {crypto : Primitives} {hashed : Set Bytes}
    (collisionFree : Set.InjOn crypto.hash hashed) {left right : Block}
    (leftMember : left.stream ∈ hashed) (rightMember : right.stream ∈ hashed)
    (leftValid : left.validate crypto = true) (rightValid : right.validate crypto = true)
    (same : left.id = right.id) :
    (left.previous = right.previous ∧ left.height = right.height ∧
        left.timestamp = right.timestamp ∧ left.stateMerkleRoot = right.stateMerkleRoot ∧
        left.signer = right.signer) ∧
      (left.contents = right.contents ↔ left.shape = right.shape) := by
  have hashes : left.makeId crypto.hash = right.makeId crypto.hash := by
    rw [makeId_of_validate leftValid, makeId_of_validate rightValid, same]
  obtain ⟨headers, entries, signers⟩ := stream_split (collisionFree leftMember rightMember hashes)
  obtain ⟨previous, heights, timestamps, roots⟩ := header_fields headers
  exact ⟨⟨previous, heights, timestamps, roots, signers⟩, shape_eq_of_contents,
    fun shapes => contents_eq_of_shape shapes entries⟩

/-- A transaction without operations whose authorizations name the given accounts. -/
def idle (hash : Bytes → Digest) (nonce : UInt64) (signers : List Account) : Transaction :=
  let draft : Transaction :=
    { id := SizedBytes.zero 32, networkId := SizedBytes.zero 32, resourceLimit := 1,
      payer := SizedBytes.zero 33, payee := SizedBytes.zero 33, nonce := nonce, operations := [],
      authorizations := signers.map fun signer => ⟨signer, SizedBytes.zero 64⟩ }
  { draft with id := draft.makeId hash }

/-- A first block with the given transactions. -/
def proposing (hash : Bytes → Digest) (transactions : List Transaction) : Block :=
  let draft : Block :=
    { id := SizedBytes.zero 32, previous := SizedBytes.zero 32, height := 1, timestamp := 1,
      stateMerkleRoot := SizedBytes.zero 32, transactions := transactions,
      signer := SizedBytes.zero 33, signature := SizedBytes.zero 64 }
  { draft with id := draft.makeId hash }

/-- Idle transactions are valid. -/
theorem idle_validate (hash : Bytes → Digest) (nonce : UInt64) (signers : List Account) :
    (idle hash nonce signers).validate hash = true := by
  simp [idle, Transaction.validate, Transaction.makeId, Transaction.stream, Transaction.header]

theorem signers_idle (hash : Bytes → Digest) (nonce : UInt64) (signers : List Account) :
    (idle hash nonce signers).signers = signers :=
  (List.map_map ..).trans (List.map_id signers)

/-- The id of a transaction does not depend on who authorizes it. -/
theorem id_idle (hash : Bytes → Digest) (nonce : UInt64) (signers : List Account) :
    (idle hash nonce signers).id = (idle hash nonce []).id :=
  rfl

/-- Blocks of valid transactions are valid if their signature is. -/
theorem proposing_validate {transactions : List Transaction}
    (accepted : crypto.verify (SizedBytes.zero 32) (SizedBytes.zero 64)
      (proposing crypto.hash transactions).id = true)
    (valid : ∀ tx ∈ transactions, tx.validate crypto.hash = true) :
    (proposing crypto.hash transactions).validate crypto = true := by
  simp only [validate, Bool.and_eq_true, beq_iff_eq, List.all_eq_true]
  exact ⟨⟨⟨⟨⟨rfl, rfl⟩, rfl⟩, rfl⟩, accepted⟩, valid⟩

/-- Blocks whose transactions feed the same bytes have one id. -/
theorem id_proposing_congr (hash : Bytes → Digest) {left right : List Transaction}
    (same : left.flatMap Transaction.entry = right.flatMap Transaction.entry) :
    (proposing hash left).id = (proposing hash right).id := by
  have streams : (proposing hash left).stream = (proposing hash right).stream := by
    rw [stream_eq, stream_eq]
    exact congrArg (fun bytes => (proposing hash []).header ++ bytes ++ (SizedBytes.zero 33).1) same
  exact congrArg hash streams

/-- Two blocks that differ in their signature only are bound to one another. -/
theorem validate_binds_contents_of_resigned :
    let crypto : Primitives := ⟨SizedBytes.fit 32, fun _ _ _ => true⟩
    let block := proposing crypto.hash [idle crypto.hash 1 [SizedBytes.zero 33]]
    let resigned := { block with signature := SizedBytes.fit 64 [1] }
    block.signature ≠ resigned.signature ∧ block.shape = resigned.shape ∧
      block.contents = resigned.contents := by
  intro crypto block resigned
  have collisionFree : Set.InjOn crypto.hash {block.stream} := Set.injOn_singleton _ _
  exact ⟨by decide, rfl, (validate_binds_contents_iff collisionFree rfl rfl (by decide)
    (by decide) rfl).2.mpr rfl⟩

/-- The account whose bytes are a digest and one zero byte. -/
def trailed (digest : Digest) : Account := ⟨digest.1 ++ [0], by simp [digest.2]⟩

/-- The account whose bytes are a zero byte and a digest: a user account. -/
def led (digest : Digest) : Account := ⟨0 :: digest.1, by simp [digest.2]⟩

/-- The first transaction is authorized by an account that spells the id of a third
one; the second has no authorization. -/
def signedFirst (hash : Bytes → Digest) : Block :=
  proposing hash [idle hash 0 [trailed (idle hash 2 []).id], idle hash 1 []]

/-- The third transaction stands in the place of the second, authorized by an account
that spells the second one's id. -/
def signedSecond (hash : Bytes → Digest) : Block :=
  proposing hash [idle hash 0 [], idle hash 2 [led (idle hash 1 []).id]]

/-- Under every hash both blocks have one id, one signature makes both valid, and
they differ in the signers of their first transaction. -/
theorem regrouped_blocks_share_id :
    (∀ crypto : Primitives, crypto.verify (SizedBytes.zero 32) (SizedBytes.zero 64)
          (signedFirst crypto.hash).id = true →
        (signedFirst crypto.hash).validate crypto = true ∧
          (signedSecond crypto.hash).validate crypto = true) ∧
      ∀ hash : Bytes → Digest, (signedFirst hash).id = (signedSecond hash).id ∧
        (signedFirst hash).contents ≠ (signedSecond hash).contents := by
  have share (hash : Bytes → Digest) : (signedFirst hash).id = (signedSecond hash).id := by
    apply id_proposing_congr
    simp [Transaction.entry, signers_idle, id_idle hash 0, id_idle hash 2, trailed, led]
  refine ⟨fun crypto accepted => ⟨?_, ?_⟩, fun hash => ⟨share hash, ?_⟩⟩
  · refine proposing_validate accepted ?_
    simp [idle_validate]
  · refine proposing_validate (share crypto.hash ▸ accepted) ?_
    simp [idle_validate]
  · intro same
    have shapes := shape_eq_of_contents same
    simp [shape, signedFirst, signedSecond, proposing, signers_idle] at shapes

end Block

end Respublica.Protocol
