import Mathlib.Algebra.GroupWithZero.Nat
import Respublica.Protocol.Account

/-!
# Operations and transactions

The wire records of the protocol, the byte stream that a transaction's id is the
hash of, and the stateless checks. `id` is a field like any other: `validate`
compares it with the recomputed one.
-/

namespace Respublica.Protocol

open Foundation Crypto

/-- What a program is started with: its argument strings and its standard input. -/
structure ProgramInput where
  arguments : List Bytes
  stdin : Bytes
deriving DecidableEq

/-- What a program leaves behind. -/
structure ProgramOutput where
  code : Int32
  stdout : Bytes
  stderr : Bytes
deriving DecidableEq

/-- The record of one program run: its input, its output, who ran and how deep. -/
structure ProgramFrame where
  input : ProgramInput
  output : ProgramOutput
  id : Account
  depth : Nat
deriving DecidableEq

/-- One step of a transaction. -/
inductive Operation where
  | uploadProgram (id : Account) (bytecode : Bytes)
  | callProgram (id : Account) (input : ProgramInput)
deriving DecidableEq

namespace Operation

/-- The program an operation names. -/
def program : Operation → Account
  | .uploadProgram id _ => id
  | .callProgram id _ => id

/-- What follows the program's id in the hashed stream: neither the kind of the
operation nor any length is part of it. -/
def body : Operation → Bytes
  | .uploadProgram _ bytecode => bytecode
  | .callProgram _ input => input.arguments.flatten ++ input.stdin

/-- The bytes an operation contributes to the transaction's id. -/
def stream (operation : Operation) : Bytes := operation.program.1 ++ operation.body

/-- The accounted size of an operation in bytes. -/
def size : Operation → Nat
  | .uploadProgram id bytecode => id.1.length + bytecode.length
  | .callProgram id input =>
    id.1.length + (input.arguments.map List.length).sum + input.stdin.length

/-- An operation has to name a program. -/
def validate (operation : Operation) : Bool := operation.program.program

end Operation

/-- A signed request to run operations. -/
structure Transaction where
  id : Digest
  networkId : Digest
  resourceLimit : UInt64
  payer : Account
  payee : Account
  nonce : UInt64
  operations : List Operation
  authorizations : List Authorization
deriving DecidableEq

namespace Transaction

/-- The fixed-width part of the hashed stream. -/
def header (tx : Transaction) : Bytes :=
  tx.networkId.1 ++ storeWord tx.resourceLimit ++ tx.payer.1 ++
    tx.payee.1 ++ storeWord tx.nonce

/-- Everything `make_id` feeds to the hasher, in order. -/
def stream (tx : Transaction) : Bytes :=
  tx.header ++ tx.operations.flatMap Operation.stream

/-- The transaction's id, recomputed. -/
def makeId (hash : Bytes → Digest) (tx : Transaction) : Digest :=
  hash tx.stream

/-- The accounted size of a transaction. Authorizations enter with their count
only. -/
def size (tx : Transaction) : Nat :=
  tx.id.1.length + tx.networkId.1.length + 8 + tx.payer.1.length +
    tx.payee.1.length + 8 + (tx.operations.map Operation.size).sum +
    tx.authorizations.length

/-- The stateless checks of a transaction. -/
def validate (hash : Bytes → Digest) (tx : Transaction) : Bool :=
  tx.resourceLimit != 0 && tx.makeId hash == tx.id &&
    tx.operations.all Operation.validate

end Transaction

/-- What applying a transaction reports. -/
structure TransactionReceipt where
  id : Digest
  reverted : Bool
  payer : Account
  payee : Account
  frames : List ProgramFrame
  resourceLimit : UInt64
  resourceUsed : UInt64
  diskStorageUsed : UInt64
  networkBandwidthUsed : UInt64
  computeBandwidthUsed : UInt64
deriving DecidableEq

end Respublica.Protocol
