import Respublica.Crypto.Hash

/-!
# Accounts

An account is a public key behind one prefix byte that says what stands behind
it. The source has two readings of "is a program": `account::program` accepts every
non-zero prefix, `account_view::program` tests the program bit only. Both are kept.
-/

namespace Respublica.Protocol

open Foundation Crypto

/-- What an account's prefix byte announces. -/
inductive AccountType where
  | user
  | program
  | nativeProgram
  | invalid
deriving DecidableEq

/-- The prefix byte of an account type. -/
def AccountType.prefixByte : AccountType → UInt8
  | .user => 0
  | .program => 1
  | .nativeProgram => 2
  | .invalid => 3

/-- One prefix byte and the 32 bytes of a public key. -/
abbrev Account := SizedBytes 33

namespace Account

/-- The prefix byte, `at( 0 )`. -/
def head (account : Account) : UInt8 := account.1.headD 0

/-- The public key behind the prefix. -/
def publicKey (account : Account) : PublicKey :=
  ⟨account.1.tail, by rw [List.length_tail, account.2]⟩

/-- `account_prefix_to_type` of the prefix. -/
def type (account : Account) : AccountType :=
  match account.head with
  | 0 => .user
  | 1 => .program
  | 2 => .nativeProgram
  | _ => .invalid

/-- `account::user`. -/
def user (account : Account) : Bool := account.head == AccountType.user.prefixByte

/-- `account::program`: any non-zero prefix. -/
def program (account : Account) : Bool := account.head != 0

/-- `account_view::program`: the program bit of the prefix. -/
def viewProgram (account : Account) : Bool :=
  (account.head &&& AccountType.program.prefixByte) != 0

/-- The same key behind another prefix. -/
def withPrefix (account : Account) (head : UInt8) : Account :=
  ⟨head :: account.1.tail, by rw [List.length_cons, List.length_tail, account.2]⟩

/-- `user_account` of an account. -/
def userAccount (account : Account) : Account := account.withPrefix AccountType.user.prefixByte

/-- The native program of a name: its first 32 bytes behind the native prefix. -/
def systemProgram (name : Bytes) : Account :=
  ⟨AccountType.nativeProgram.prefixByte :: (SizedBytes.fit 32 name).1, by
    rw [List.length_cons, (SizedBytes.fit 32 name).2]⟩

end Account

/-- A signer and its signature over a transaction's id. -/
structure Authorization where
  signer : Account
  signature : Signature
deriving DecidableEq

/-- The accounted size of an authorization in bytes. -/
def Authorization.size (authorization : Authorization) : Nat :=
  authorization.signer.1.length + authorization.signature.1.length

end Respublica.Protocol
