import Mathlib.Data.Set.Function
import Respublica.Protocol.Transaction

/-!
# What a transaction id binds

A signature covers a transaction's id only, so the id has to determine what the
transaction does. The header has fixed widths and is determined. The operations
are not: they enter the hash without a tag or a length, so an upload and a call
of the same program can feed the hasher the same bytes.

An injective map from byte strings to 32-byte digests does not exist. Results
here assume no collision among a set of strings of the reader's choice.
-/

namespace Respublica.Protocol.Transaction

open Foundation Crypto

/-- Two transactions ask for the same thing: they may differ in their `id` and in
their authorizations only. -/
structure SameMeaning (left right : Transaction) : Prop where
  networkId : left.networkId = right.networkId
  resourceLimit : left.resourceLimit = right.resourceLimit
  payer : left.payer = right.payer
  payee : left.payee = right.payee
  nonce : left.nonce = right.nonce
  operations : left.operations = right.operations

theorem length_header (tx : Transaction) : tx.header.length = 114 := by
  simp [header, tx.networkId.2, tx.payer.2, tx.payee.2]

/-- Every operation contributes at least the account it names. -/
theorem stream_operation_ne_nil (operation : Operation) : operation.stream ≠ [] := by
  intro empty
  have counted := congrArg List.length empty
  simp [Operation.stream, operation.program.2] at counted

/-- Equal streams have equal headers, and their operations feed equal bytes. -/
theorem stream_split {left right : Transaction} (same : left.stream = right.stream) :
    left.header = right.header ∧
      left.operations.flatMap Operation.stream = right.operations.flatMap Operation.stream :=
  List.append_inj same (by rw [length_header, length_header])

/-- The header determines its five fields, because each has a fixed width. -/
theorem header_fields {left right : Transaction} (same : left.header = right.header) :
    left.networkId = right.networkId ∧ left.resourceLimit = right.resourceLimit ∧
      left.payer = right.payer ∧ left.payee = right.payee ∧ left.nonce = right.nonce := by
  obtain ⟨upToPayee, nonces⟩ := List.append_inj' same (by simp)
  obtain ⟨upToPayer, payees⟩ := List.append_inj' upToPayee (by rw [left.payee.2, right.payee.2])
  obtain ⟨upToLimit, payers⟩ := List.append_inj' upToPayer (by rw [left.payer.2, right.payer.2])
  obtain ⟨networks, limits⟩ := List.append_inj' upToLimit (by simp)
  exact ⟨Subtype.ext networks, storeWord_injective limits, Subtype.ext payers,
    Subtype.ext payees, storeWord_injective nonces⟩

/-- The other kind of operation with the same hashed bytes. -/
def disguise : Operation → Operation
  | .uploadProgram id bytecode => .callProgram id ⟨[], bytecode⟩
  | .callProgram id input => .uploadProgram id (input.arguments.flatten ++ input.stdin)

theorem stream_disguise (operation : Operation) :
    (disguise operation).stream = operation.stream := by
  cases operation <;> simp [disguise, Operation.stream, Operation.program, Operation.body]

theorem disguise_ne (operation : Operation) : disguise operation ≠ operation := by
  cases operation <;> simp [disguise]

/-- A transaction without operations shares its stream only with transactions of
the same meaning. -/
theorem sameMeaning_of_no_operations {tx other : Transaction}
    (none : tx.operations = []) (same : tx.stream = other.stream) :
    SameMeaning tx other := by
  obtain ⟨headers, bytes⟩ := stream_split same
  obtain ⟨network, limit, payer, payee, nonce⟩ := header_fields headers
  refine ⟨network, limit, payer, payee, nonce, ?_⟩
  rw [none] at bytes ⊢
  match found : other.operations with
  | [] => rfl
  | first :: rest =>
    rw [found, List.flatMap_nil, List.flatMap_cons] at bytes
    exact absurd (List.append_eq_nil_iff.mp bytes.symm).1 (stream_operation_ne_nil first)

/-- A transaction with operations has a twin that hashes the same bytes and does
something else. -/
theorem exists_twin {tx : Transaction} (some : tx.operations ≠ []) :
    ∃ twin : Transaction, twin.stream = tx.stream ∧
      ¬ SameMeaning tx twin := by
  obtain ⟨first, rest, found⟩ := List.exists_cons_of_ne_nil some
  refine ⟨{ tx with operations := disguise first :: rest }, ?_, ?_⟩
  · simp only [stream, header, found, List.flatMap_cons, stream_disguise]
  · intro meaning
    have heads : first :: rest = disguise first :: rest := found ▸ meaning.operations
    exact disguise_ne first (List.cons.inj heads).1.symm

/-- The id binds the network, limit, payer, payee and nonce of every transaction,
and it binds the operations exactly when there are none. -/
theorem makeId_binds_meaning_iff {hash : Bytes → Digest} {hashed : Set Bytes}
    (collisionFree : Set.InjOn hash hashed) {tx : Transaction}
    (mem : tx.stream ∈ hashed) :
    (∀ other : Transaction, other.stream ∈ hashed → tx.makeId hash = other.makeId hash →
        tx.networkId = other.networkId ∧
          tx.resourceLimit = other.resourceLimit ∧ tx.payer = other.payer ∧
          tx.payee = other.payee ∧ tx.nonce = other.nonce) ∧
      ((∀ other : Transaction, other.stream ∈ hashed →
        tx.makeId hash = other.makeId hash → SameMeaning tx other) ↔
          tx.operations = []) := by
  refine ⟨?_, ?_, ?_⟩
  · intro other otherMember same
    exact header_fields (stream_split (collisionFree mem otherMember same)).1
  · intro binds
    by_contra some
    obtain ⟨twin, sameStream, different⟩ := exists_twin some
    refine different (binds twin (sameStream ▸ mem) ?_)
    rw [makeId, makeId, sameStream]
  · intro none other otherMember same
    exact sameMeaning_of_no_operations none (collisionFree mem otherMember same)

/-- A transaction with the given operations and nothing else set. -/
def carrying (operations : List Operation) : Transaction where
  id := SizedBytes.zero 32
  networkId := SizedBytes.zero 32
  resourceLimit := 0
  payer := SizedBytes.zero 33
  payee := SizedBytes.zero 33
  nonce := 0
  operations := operations
  authorizations := []

/-- The same for another network. -/
def carryingElsewhere : Transaction := { carrying [] with networkId := SizedBytes.fit 32 [1] }

/-- The hypotheses are met by a hash that keeps the first bytes, on the streams of two transactions
that differ there. -/
theorem makeId_binds_meaning_of_two_streams :
    (carrying []).operations = [] ∧ ∀ other : Transaction,
      other.stream ∈ ({(carrying []).stream, carryingElsewhere.stream} : Set Bytes) →
        (carrying []).makeId (SizedBytes.fit 32) = other.makeId (SizedBytes.fit 32) →
        SameMeaning (carrying []) other := by
  have collisionFree : Set.InjOn (SizedBytes.fit 32)
      ({(carrying []).stream, carryingElsewhere.stream} : Set Bytes) := by
    rw [Set.injOn_pair]
    exact fun same => absurd same (by decide)
  exact ⟨rfl, (makeId_binds_meaning_iff collisionFree (Set.mem_insert _ _)).2.mpr rfl⟩

/-- Uploading one byte of code and calling the same program with that byte as its
input have one id under every hash. -/
theorem upload_and_call_share_id :
    (∀ hash : Bytes → Digest,
      (carrying [.uploadProgram (Account.systemProgram []) [7]]).makeId hash =
        (carrying [.callProgram (Account.systemProgram []) ⟨[], [7]⟩]).makeId hash) ∧
      (carrying [.uploadProgram (Account.systemProgram []) [7]]).operations ≠
        (carrying [.callProgram (Account.systemProgram []) ⟨[], [7]⟩]).operations :=
  ⟨fun _ => rfl, by decide⟩

end Respublica.Protocol.Transaction
