import Mathlib.Algebra.BigOperators.Ring.List
import Mathlib.Algebra.Order.BigOperators.Group.List
import Mathlib.Algebra.Order.Group.Nat
import Respublica.Controller.History

/-!
# The size a transaction is charged for

A transaction is charged for the network bandwidth of `size`, which adds up the sizes of its
fields by hand. Compared with the bytes of all fields, one summand is off: authorizations enter
with their number, where each of them is a signer and a signature.
-/

namespace Respublica.Protocol

open Foundation

/-- The bytes of an authorization. -/
def Authorization.bytes (authorization : Authorization) : Bytes :=
  authorization.signer.1 ++ authorization.signature.1

/-- The bytes of all fields of a transaction, one behind the other. -/
def Transaction.bytes (tx : Transaction) : Bytes :=
  tx.id.1 ++ tx.stream ++ tx.authorizations.flatMap Authorization.bytes

/-- The bytes of all fields of a block, one behind the other. -/
def Block.bytes (block : Block) : Bytes :=
  block.id.1 ++ block.previous.1 ++ storeWord block.height ++ storeWord block.timestamp ++
    block.stateMerkleRoot.1 ++ block.transactions.flatMap Transaction.bytes ++ block.signer.1 ++
    block.signature.1

/-- The size of an authorization is the number of its bytes. -/
theorem Authorization.length_bytes (authorization : Authorization) :
    authorization.bytes.length = authorization.size := List.length_append

theorem Authorization.size_eq (authorization : Authorization) : authorization.size = 97 := by
  rw [size, authorization.signer.2, authorization.signature.2]

/-- The size of an operation is the number of its bytes. -/
theorem Operation.length_stream (operation : Operation) :
    operation.stream.length = operation.size := by
  cases operation with
  | uploadProgram id bytecode => exact List.length_append
  | callProgram id input =>
    simp only [stream, program, body, size, List.length_append, List.length_flatten]
    omega

/-- Of every authorization all bytes but one are left out. -/
theorem Transaction.length_bytes (tx : Transaction) :
    tx.bytes.length = tx.size + 96 * tx.authorizations.length := by
  have operations : (tx.operations.flatMap Operation.stream).length =
      (tx.operations.map Operation.size).sum := by
    rw [List.length_flatMap, List.map_congr_left fun operation _ => operation.length_stream]
  have authorizations : (tx.authorizations.flatMap Authorization.bytes).length =
      97 * tx.authorizations.length := by
    have each : tx.authorizations.map (fun authorization => authorization.bytes.length) =
        tx.authorizations.map fun _ => 97 :=
      List.map_congr_left fun authorization _ =>
        authorization.length_bytes.trans authorization.size_eq
    rw [List.length_flatMap, each, List.map_const', List.sum_replicate_nat, Nat.mul_comm]
  simp only [bytes, stream, header, size, List.length_append, length_storeWord, operations,
    authorizations]
  omega

/-- The size of a transaction counts all but its authorizations. -/
theorem Transaction.size_eq_iff (tx : Transaction) :
    tx.size = tx.bytes.length ↔ tx.authorizations = [] := by
  rw [tx.length_bytes, ← List.length_eq_zero_iff]
  omega

/-- The sizes of transactions add up to their bytes exactly when none of them is authorized by
anyone, since none is accounted with too much. -/
theorem Transaction.sum_size_eq_iff (transactions : List Transaction) :
    (transactions.map Transaction.size).sum = (transactions.flatMap Transaction.bytes).length ↔
      ∀ tx ∈ transactions, tx.authorizations = [] := by
  have total : (transactions.flatMap Transaction.bytes).length =
      (transactions.map Transaction.size).sum +
        96 * (transactions.map fun tx => tx.authorizations.length).sum := by
    rw [List.length_flatMap, List.map_congr_left fun tx _ => tx.length_bytes,
      List.sum_map_add, List.sum_map_mul_left]
  have missing : (transactions.map fun tx => tx.authorizations.length).sum = 0 ↔
      ∀ tx ∈ transactions, tx.authorizations = [] := by
    rw [List.sum_eq_zero_iff, List.forall_mem_map]
    simp only [List.length_eq_zero_iff]
  rw [total, ← missing]
  omega

/-- The size of a block is right if no transaction is authorized. -/
theorem Block.size_eq_iff (block : Block) :
    block.size = block.bytes.length ↔
      ∀ tx ∈ block.transactions, tx.authorizations = [] := by
  rw [← Transaction.sum_size_eq_iff]
  simp only [size, bytes, List.length_append, length_storeWord]
  omega

end Respublica.Protocol

namespace Respublica.Controller

open Foundation Effect Program Protocol

/-- Paying for storage uses no network bandwidth. -/
theorem Meter.network_of_useDiskStorage {bytes : UInt64} {before after : Meter} {code : ErrorCode}
    (gave : (useDiskStorage bytes).Returns before code after) :
    after.remaining.networkBandwidth = before.remaining.networkBandwidth := by
  obtain ⟨-, used⟩ | ⟨rfl, -⟩ := outcome_of_use gave
  · rw [used.remaining]
    rfl
  · rfl

/-- Network bandwidth that is not refused is taken. -/
theorem Meter.network_of_useNetworkBandwidth {bytes : UInt64} {before after : Meter}
    {code : ErrorCode} (gave : (useNetworkBandwidth bytes).Returns before code after)
    (well : code.failed = false) :
    before.remaining.networkBandwidth.toNat =
      after.remaining.networkBandwidth.toNat + bytes.toNat := by
  obtain ⟨-, used⟩ | ⟨rfl, refused⟩ := outcome_of_use gave
  · have available : bytes ≤ before.remaining.networkBandwidth :=
      networkBandwidth.le_of_not_tooMuch _ _ used.available
    have bound := UInt64.le_iff_toNat_le.mp available
    have left : after.remaining.networkBandwidth = before.remaining.networkBandwidth - bytes := by
      rw [used.remaining]
      rfl
    rw [left, UInt64.toNat_sub_of_le _ _ available]
    omega
  · cases refused with
    | limit _ => cases well
    | session _ _ => cases well

namespace Context

/-- A charge that goes well takes the size of the transaction from the network bandwidth. -/
theorem chargeTransaction_network {tx : Transaction} {before charged : Context}
    (charges : (chargeTransaction tx).Returns before (.ok ()) charged) :
    before.meter.remaining.networkBandwidth.toNat =
      charged.meter.remaining.networkBandwidth.toNat + tx.size % 2 ^ 64 := by
  obtain ⟨nonce, _, read, continued⟩ := returns_bind.mp charges
  obtain rfl := (accountNonce_unchanged read).symm
  split at continued
  · cases (returns_pure.mp continued).1
  obtain ⟨_, _, wrote, paid⟩ := returns_andThen_ok.mp continued
  obtain ⟨_, wrote, -⟩ := returns_unlessFailed.mp wrote
  obtain ⟨_, _, _, -, stores, rfl⟩ := returns_setAccountNonce.mp wrote
  obtain ⟨code, sent, well⟩ := returns_unlessFailed.mp paid
  obtain ⟨_, sends, rfl⟩ := returns_within.mp sent
  have succeeded : code.failed = false := by
    cases failed : code.failed with
    | false => rfl
    | true =>
      rw [failed] at well
      cases well
  have taken := Meter.network_of_useNetworkBandwidth sends succeeded
  rw [UInt64.toNat_ofNat'] at taken
  rw [← Meter.network_of_useDiskStorage stores]
  exact taken

end Context

open Context in
/-- The size of a transaction or of a block is the number of its bytes exactly when nobody
authorizes the transaction, or any transaction of the block. A transaction that fits in memory
is charged for its bytes under the same condition, whatever its other lists hold. -/
theorem network_size_is_real_iff (tx : Transaction) :
    (tx.size = tx.bytes.length ↔ tx.authorizations = []) ∧
      (∀ block : Block, block.size = block.bytes.length ↔
        ∀ included ∈ block.transactions, included.authorizations = []) ∧
      ∀ before charged : Context, tx.bytes.length < 2 ^ 64 →
        (chargeTransaction tx).Returns before (.ok ()) charged →
          (before.meter.remaining.networkBandwidth.toNat =
              charged.meter.remaining.networkBandwidth.toNat + tx.bytes.length ↔
            tx.authorizations = []) := by
  refine ⟨tx.size_eq_iff, Block.size_eq_iff, fun before charged inMemory charges => ?_⟩
  have taken := chargeTransaction_network charges
  have size := tx.length_bytes
  rw [Nat.mod_eq_of_lt (by omega)] at taken
  rw [← tx.size_eq_iff]
  omega

/-- The context in which a transaction is charged, in a block on an empty state. -/
def chargedFrom (tx : Transaction) : Context :=
  Context.beginTransaction tx (Context.blockOn [])

/-- A transaction with two operations that nobody authorizes. -/
def unsignedTransaction : Transaction :=
  { sampleTransaction (networkId .plain) 1
      [.uploadProgram Context.coin [1, 2, 3], .callProgram Context.coin ⟨[[4], [5, 6]], [7]⟩] with
    authorizations := [] }

/-- Every byte of its lists is charged for. -/
theorem network_size_is_real_iff_unsigned :
    unsignedTransaction.size = unsignedTransaction.bytes.length ∧
      ∃ charged, (Context.chargeTransaction unsignedTransaction).Returns
          (chargedFrom unsignedTransaction) (.ok ()) charged ∧
        (chargedFrom unsignedTransaction).meter.remaining.networkBandwidth.toNat =
          charged.meter.remaining.networkBandwidth.toNat + unsignedTransaction.bytes.length := by
  have charges : (Context.chargeTransaction unsignedTransaction).Returns
      (chargedFrom unsignedTransaction) (.ok ())
      (Context.chargeTransaction unsignedTransaction (chargedFrom unsignedTransaction)).2 :=
    returns_of_fst (by decide +kernel)
  obtain ⟨real, -, charge⟩ := network_size_is_real_iff unsignedTransaction
  exact ⟨real.mpr rfl, _, charges, (charge _ _ (by decide +kernel) charges).mpr rfl⟩

/-- A transaction with one authorization. -/
def signedTransaction : Transaction := sampleTransaction (networkId .plain) 1 []

/-- A block with that transaction alone. -/
def signedBlock : Block :=
  sampleBlock (SizedBytes.zero 32) 1 1000 (SizedBytes.zero 32) [signedTransaction]

/-- The transaction has 243 bytes and is charged for 147 of them; the block is accounted with 96
bytes too few as well. -/
theorem authorization_charged_as_one_byte :
    (signedTransaction.size = 147 ∧ signedTransaction.bytes.length = 243) ∧
      (signedBlock.size = 356 ∧ signedBlock.bytes.length = 452) ∧
      ∃ charged, (Context.chargeTransaction signedTransaction).Returns
          (chargedFrom signedTransaction) (.ok ()) charged ∧
        (chargedFrom signedTransaction).meter.remaining.networkBandwidth.toNat =
          charged.meter.remaining.networkBandwidth.toNat + 147 :=
  ⟨by decide +kernel, by decide +kernel, _, returns_of_fst (by decide +kernel),
    by decide +kernel⟩

end Respublica.Controller
