import Respublica.Foundation.Interaction
import Respublica.Protocol.Transaction
import Respublica.StateDb.Backend

/-!
# The interfaces programs run against

A program is an `Interaction`. Native programs are written against `system_interface`;
WebAssembly modules reach the chain through the host functions only, which offer less:
they can neither remove objects nor call programs. What a module does between its host
calls is up to the module.

Error codes keep their category, because callers treat the categories differently.
-/

namespace Respublica.Program

open Foundation Protocol

/-- `controller_errc`. -/
inductive ControllerErrc where
  | ok
  | authorizationFailure
  | invalidNonce
  | invalidSignature
  | malformedBlock
  | malformedTransaction
  | insufficientResources
  | unknownPreviousBlock
  | unexpectedHeight
  | blockStateError
  | stateMerkleMismatch
  | networkIdMismatch
  | timestampOutOfBounds
  | networkBandwidthLimitExceeded
  | computeBandwidthLimitExceeded
  | diskStorageLimitExceeded
  | preIrreversibilityBlock
  | invalidProgram
  | invalidEventName
  | invalidAccount
  | insufficientPrivileges
  | unknownOperation
  | readOnlyContext
  | stackOverflow
  | badFileDescriptor
  | unexpectedObject
  | insufficientSpace
deriving DecidableEq

/-- `program_errc`, the codes of native programs. -/
inductive ProgramErrc where
  | ok
  | unauthorized
  | invalidInstruction
  | insufficientBalance
  | insufficientSupply
  | invalidArgument
  | unexpectedObject
  | overflow
deriving DecidableEq

/-- `virtual_machine_errc`. -/
inductive VirtualMachineErrc where
  | ok
  | trapped
  | invalidArguments
  | executionEnvironmentFailure
  | functionLookupFailure
  | loadFailure
  | instantiateFailure
  | invalidPointer
  | invalidModule
  | invalidContext
  | entryPointNotFound
deriving DecidableEq

/-- A `std::error_code`: a value in one of the categories. A module's own exit code is a
category of its own. -/
inductive ErrorCode where
  | controller (code : ControllerErrc)
  | program (code : ProgramErrc)
  | virtualMachine (code : VirtualMachineErrc)
  | exited (code : Int32)
deriving DecidableEq

namespace ErrorCode

/-- The numeric value of a code. -/
def value : ErrorCode → Int
  | .controller code => code.ctorIdx
  | .program code => code.ctorIdx
  | .virtualMachine code => code.ctorIdx
  | .exited code => code.toInt

/-- A code tests true when its value is not zero, whatever its category. -/
def failed (code : ErrorCode) : Bool := code.value != 0

end ErrorCode

/-- `std::expected< T, std::error_code >`. -/
abbrev Result (Value : Type) := Except ErrorCode Value

inductive FileDescriptor where
  | stdin
  | stdout
  | stderr
deriving DecidableEq

/-- The calls of `system_interface`. -/
inductive SystemCall where
  | arguments
  | write (descriptor : FileDescriptor) (buffer : Bytes)
  | read (descriptor : FileDescriptor) (size : Nat)
  | getObject (id : UInt32) (key : Bytes)
  | getNextObject (id : UInt32) (key : Bytes)
  | getPrevObject (id : UInt32) (key : Bytes)
  | putObject (id : UInt32) (key value : Bytes)
  | removeObject (id : UInt32) (key : Bytes)
  | checkAuthority (account : Account)
  | getCaller
  | callProgram (account : Account) (stdin : Bytes) (arguments : List Bytes)
deriving DecidableEq

/-- What each call answers. A read answers the bytes it put at the start of the caller's
buffer; a span without bytes is the empty string. -/
abbrev SystemCall.Response : SystemCall → Type
  | .arguments => List Bytes
  | .write _ _ => ErrorCode
  | .read _ _ => ErrorCode × Bytes
  | .getObject _ _ => Bytes
  | .getNextObject _ _ => Bytes × Bytes
  | .getPrevObject _ _ => Bytes × Bytes
  | .putObject _ _ _ => ErrorCode
  | .removeObject _ _ => ErrorCode
  | .checkAuthority _ => Result Bool
  | .getCaller => Bytes
  | .callProgram _ _ _ => Result ProgramOutput

instance : (call : SystemCall) → DecidableEq call.Response
  | .arguments => inferInstanceAs (DecidableEq (List Bytes))
  | .write _ _ => inferInstanceAs (DecidableEq ErrorCode)
  | .read _ _ => inferInstanceAs (DecidableEq (ErrorCode × Bytes))
  | .getObject _ _ => inferInstanceAs (DecidableEq Bytes)
  | .getNextObject _ _ => inferInstanceAs (DecidableEq (Bytes × Bytes))
  | .getPrevObject _ _ => inferInstanceAs (DecidableEq (Bytes × Bytes))
  | .putObject _ _ _ => inferInstanceAs (DecidableEq ErrorCode)
  | .removeObject _ _ => inferInstanceAs (DecidableEq ErrorCode)
  | .checkAuthority _ => inferInstanceAs (DecidableEq (Result Bool))
  | .getCaller => inferInstanceAs (DecidableEq Bytes)
  | .callProgram _ _ _ => inferInstanceAs (DecidableEq (Result ProgramOutput))

/-- A native program. -/
abbrev NativeProgram (Value : Type) :=
  Interaction StateDb.Fault SystemCall SystemCall.Response Value

/-- The host functions a module can import, and the metering around them. -/
inductive HostCall where
  | arguments
  | write (descriptor : FileDescriptor) (buffer : Bytes)
  | read (descriptor : FileDescriptor) (size : Nat)
  | getCaller
  | getObject (id : UInt32) (key : Bytes)
  | putObject (id : UInt32) (key value : Bytes)
  | checkAuthority (account : Account)
  | getMeterTicks
  | useMeterTicks (ticks : UInt64)
deriving DecidableEq

abbrev HostCall.Response : HostCall → Type
  | .arguments => List Bytes
  | .write _ _ => ErrorCode
  | .read _ _ => ErrorCode × Bytes
  | .getCaller => Bytes
  | .getObject _ _ => Bytes
  | .putObject _ _ _ => ErrorCode
  | .checkAuthority _ => Result Bool
  | .getMeterTicks => UInt64
  | .useMeterTicks _ => ErrorCode

/-- The behaviour of a WebAssembly module. -/
abbrev UserProgram := Interaction StateDb.Fault HostCall HostCall.Response ErrorCode

end Respublica.Program
