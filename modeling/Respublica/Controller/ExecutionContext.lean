import Respublica.Controller.ResourceMeter
import Respublica.Program.Coin
import Respublica.Protocol.Block
import Respublica.StateDb.Delta
import Respublica.StateDb.ObjectSpace

/-!
# The execution context

An `execution_context` applies transactions to a state node and answers the calls of the
programs they run. Programs run in frames on a stack of bounded depth; a program's
authority is asked for by running the program, so running and asking are mutually
recursive. The recursion is on the room left on the stack.

`Env` is everything the repository does not define: the cryptographic primitives,
the behaviour of WebAssembly modules, and what the locals of the coin program hold before
they are written.
-/

namespace Respublica.Controller

open Foundation Crypto Program Protocol StateDb

/-- One running program. The span its input is read from is a position in `stdin`. -/
structure StackFrame where
  programId : Account
  arguments : List Bytes
  stdin : Bytes
  stdout : Bytes
  stderr : Bytes
  stdinOffset : Nat

/-- What a context may be used for. -/
inductive Intent where
  | readOnly
  | blockApplication
  | transactionApplication
  | blockProposal
deriving DecidableEq

/-- Which failures of a program its starter is shown as errors. -/
inductive Tolerance where
  | relaxed
  | strict
deriving DecidableEq

/-- The state of an execution context, with the deltas it works on. The top of the stack
comes first. -/
structure Context where
  heap : Heap
  stateNode : Nat
  stack : List StackFrame
  transaction : Option Transaction
  meter : Meter
  frames : List ProgramFrame
  intent : Intent
  verifiedSignatures : List Account

/-- What the repository leaves to others. -/
structure Env where
  crypto : Primitives
  runModule : (id bytecode : Bytes) → UserProgram
  locals : Context → Coin.Locals

/-- An environment the model can be evaluated in: a small hash, signatures that all verify,
and modules that exit at once. -/
def Env.plain : Env where
  crypto :=
    { hash := fun bytes => SizedBytes.fit 32 (littleEndian 8
        (bytes.foldl (fun digest byte => (digest * 31 + byte.toNat) % 2 ^ 64) 7))
      verify := fun _ _ _ => true }
  runModule := fun _ _ => .done (.exited 0)
  locals := fun _ => ⟨SizedBytes.zero 33, SizedBytes.zero 33, SizedBytes.zero 33⟩

/-- Routines of an execution context. -/
abbrev Run (Value : Type) := Effect Fault Context Value

/-- Starting a program: its account, standard input and arguments. -/
abbrev Runner := Tolerance → Account → Bytes → List Bytes → Run (Result ProgramOutput)

namespace Context

/-- `default_stack_limit`. -/
def stackLimit : Nat := 32

/-- A context for a state node. -/
def create (heap : Heap) (stateNode : Nat) (intent : Intent) : Context where
  heap := heap
  stateNode := stateNode
  stack := []
  transaction := none
  meter := Meter.create
  frames := []
  intent := intent
  verifiedSignatures := []

/-- Run a routine of the meter. -/
def onMeter {Value : Type} (routine : Effect Fault Meter Value) : Run Value :=
  Effect.within Context.meter (fun context meter => { context with meter := meter }) routine

/-- Work on the meter changes the meter alone. -/
theorem returns_onMeter {Value : Type} {routine : Effect Fault Meter Value} {before after : Context}
    {value : Value} : (onMeter routine).Returns before value after ↔
      ∃ meter, routine.Returns before.meter value meter ∧ after = { before with meter := meter } :=
  Effect.returns_within

/-- Run a routine on the deltas. -/
def onHeap {Value : Type} (routine : Effect Fault Heap Value) : Run Value :=
  Effect.within Context.heap (fun context heap => { context with heap := heap }) routine

/-- Read an object of the state node. -/
def getState (space : ObjectSpace) (key : Bytes) : Run (Option Bytes) := do
  let context ← Effect.read
  Effect.ofExcept (context.heap.get context.stateNode (makeCompoundKey space key))

/-- Write an object of the state node. -/
def putState (space : ObjectSpace) (key value : Bytes) : Run Int := do
  let context ← Effect.read
  onHeap (Heap.put context.stateNode (makeCompoundKey space key) value)

/-- Remove an object of the state node. -/
def removeState (space : ObjectSpace) (key : Bytes) : Run Int := do
  let context ← Effect.read
  onHeap (Heap.remove context.stateNode (makeCompoundKey space key))

/-- The compute charge of a system call. Its error code is dropped by every caller. -/
def chargeCall : Run Unit := do
  let _ ← onMeter (Meter.useComputeBandwidth 1)

def peekFrame : Run StackFrame := do
  let context ← Effect.read
  Effect.expect (.exception "stack is empty") context.stack.head?

def pushFrame (frame : StackFrame) : Run ErrorCode := do
  let context ← Effect.read
  if stackLimit ≤ context.stack.length then pure (.controller .stackOverflow)
  else do
    Effect.modify fun context => { context with stack := frame :: context.stack }
    pure (.controller .ok)

/-- Replace the frame on top. -/
def updateFrame (change : StackFrame → StackFrame) : Run Unit :=
  Effect.modify fun context => { context with stack := context.stack.modify 0 change }

def arguments : Run (List Bytes) := do
  let context ← Effect.read
  if context.stack.length = 0 then Effect.fail (.exception "stack is empty")
  else do
    chargeCall
    let frame ← peekFrame
    pure frame.arguments

def write (descriptor : FileDescriptor) (buffer : Bytes) : Run ErrorCode := do
  chargeCall
  match descriptor with
  | .stdout => do
      let _ ← peekFrame
      updateFrame fun frame => { frame with stdout := frame.stdout ++ buffer }
      pure (.controller .ok)
  | .stderr => do
      let _ ← peekFrame
      updateFrame fun frame => { frame with stderr := frame.stderr ++ buffer }
      pure (.controller .ok)
  | .stdin => pure (.controller .badFileDescriptor)

/-- Copy what is left of the input, up to the size of the buffer. -/
def read (descriptor : FileDescriptor) (size : Nat) : Run (ErrorCode × Bytes) := do
  chargeCall
  match descriptor with
  | .stdin => do
      let frame ← peekFrame
      let bytes := (frame.stdin.drop frame.stdinOffset).take size
      updateFrame fun frame => { frame with stdinOffset := frame.stdinOffset + bytes.length }
      pure (.controller .ok, bytes)
  | _ => pure (.controller .badFileDescriptor, [])

/-- The object space of the running program. -/
def createObjectSpace (id : UInt32) : Run ObjectSpace := do
  let frame ← peekFrame
  pure (ObjectSpace.ofProgram frame.programId id)

def getObject (id : UInt32) (key : Bytes) : Run Bytes := do
  chargeCall
  let space ← createObjectSpace id
  let object ← getState space key
  pure (object.getD [])

/-- `get_next_object` and `get_prev_object`: the state node never finds a neighbour. -/
def getNeighbour (id : UInt32) (_key : Bytes) : Run (Bytes × Bytes) := do
  chargeCall
  let _ ← createObjectSpace id
  pure ([], [])

/-- Write an object and then pay for it. -/
def putObject (id : UInt32) (key value : Bytes) : Run ErrorCode := do
  chargeCall
  let space ← createObjectSpace id
  let size ← putState space key value
  onMeter (Meter.useDiskStorage (UInt64.ofInt size))

/-- Remove an object and then pay for it. -/
def removeObject (id : UInt32) (key : Bytes) : Run ErrorCode := do
  chargeCall
  let space ← createObjectSpace id
  let size ← removeState space key
  onMeter (Meter.useDiskStorage (UInt64.ofInt size))

/-- The caller of a frame. The outermost frame has none; any other frame answers with its
own program. -/
def getCaller : Run Bytes := do
  chargeCall
  let context ← Effect.read
  if context.stack.length = 1 then pure []
  else do
    let frame ← peekFrame
    pure frame.programId.1

/-- Check authorizations from left to right until one is the account's. An authorization
that does not verify ends the scan with an error. -/
def scanAuthorizations (crypto : Primitives) (id : Digest) (account : Account) :
    List Authorization → Run (Result Bool)
  | [] => pure (.ok false)
  | authorization :: rest =>
    if crypto.verify authorization.signer.publicKey authorization.signature id then do
      Effect.modify fun context => { context with
        verifiedSignatures := context.verifiedSignatures ++ [authorization.signer] }
      if authorization.signer = account then pure (.ok true)
      else scanAuthorizations crypto id account rest
    else pure (.error (.controller .invalidSignature))

/-- A signature check: the signers verified so far, then the authorizations behind them. -/
def checkSignature (crypto : Primitives) (account : Account) : Run (Result Bool) := do
  let context ← Effect.read
  let tx ← Effect.expect (.exception "transaction required for check authority")
    context.transaction
  if context.verifiedSignatures.contains account then pure (.ok true)
  else do
    let unverified := tx.authorizations.drop context.verifiedSignatures.length
    scanAuthorizations crypto tx.id account unverified

/-- What the output of an authorize instruction says: one byte, read as a boolean. The source copies
the byte into a `bool`, which is undefined for bytes other than 0 and 1; they are taken for true, as
compilers do when they test the byte for zero. -/
def authorizeAnswer : Result ProgramOutput → Result Bool
  | .error error => .error error
  | .ok output =>
    match output.stdout with
    | [byte] => .ok (byte != 0)
    | _ => .error (.controller .unexpectedObject)

/-- Does an account authorize the transaction? Program accounts are asked by running their
authorize instruction on the state node in use, other accounts need a signature. -/
def checkAuthority (crypto : Primitives) (run : Runner) (account : Account) :
    Run (Result Bool) := do
  chargeCall
  let context ← Effect.read
  if context.intent = .readOnly then pure (.error (.controller .readOnlyContext))
  else if account.viewProgram then do
    let output ← run .strict account (littleEndian 4 0) []
    pure (authorizeAnswer output)
  else checkSignature crypto account

def callProgram (run : Runner) (account : Account) (stdin : Bytes) (arguments : List Bytes) :
    Run (Result ProgramOutput) := do
  chargeCall
  run .relaxed account stdin arguments

def getMeterTicks : Run UInt64 := do
  let context ← Effect.read
  pure context.meter.remainingComputeBandwidth

def useMeterTicks (ticks : UInt64) : Run ErrorCode := onMeter (Meter.useComputeBandwidth ticks)

/-- The answers to a native program. -/
def answerSystem (crypto : Primitives) (run : Runner) : (call : SystemCall) → Run call.Response
  | .arguments => arguments
  | .write descriptor buffer => write descriptor buffer
  | .read descriptor size => read descriptor size
  | .getObject id key => getObject id key
  | .getNextObject id key => getNeighbour id key
  | .getPrevObject id key => getNeighbour id key
  | .putObject id key value => putObject id key value
  | .removeObject id key => removeObject id key
  | .checkAuthority account => checkAuthority crypto run account
  | .getCaller => getCaller
  | .callProgram account stdin arguments => callProgram run account stdin arguments

/-- The answers to a module. -/
def answerHost (crypto : Primitives) (run : Runner) : (call : HostCall) → Run call.Response
  | .arguments => arguments
  | .write descriptor buffer => write descriptor buffer
  | .read descriptor size => read descriptor size
  | .getCaller => getCaller
  | .getObject id key => getObject id key
  | .putObject id key value => putObject id key value
  | .checkAuthority account => checkAuthority crypto run account
  | .getMeterTicks => getMeterTicks
  | .useMeterTicks ticks => useMeterTicks ticks

/-- What a `noexcept` function makes of an exception. -/
def terminating : Fault → Fault
  | .exception _ => .terminate
  | fault => fault

/-- The account of the coin program, the only entry of the program registry. -/
def coin : Account := Account.systemProgram [99, 111, 105, 110]

variable (env : Env)

def executeNativeProgram (run : Runner) (account : Account) : Run ErrorCode :=
  Effect.onFault terminating do
    if account = coin then do
      let context ← Effect.read
      Interaction.interpret (answerSystem env.crypto run)
        (Coin.run (env.locals context))
    else pure (.controller .invalidProgram)

/-- Run the module stored for an account. The stored object is the hash of the bytecode
and the bytecode. -/
def executeUserProgram (run : Runner) (account : Account) : Run ErrorCode :=
  Effect.onFault terminating do
    match ← getState ObjectSpace.programData account.1 with
    | none => pure (.controller .invalidProgram)
    | some object =>
      if object.length < 32 then Effect.fail .assertion
      else do
        let module_ := env.runModule (object.take 32) (object.drop 32)
        Interaction.interpret (answerHost env.crypto run) module_

/-- The program of a frame, by the type of its account. -/
def executeProgram (run : Runner) (account : Account) : Run ErrorCode :=
  match account.type with
  | .program => executeUserProgram env run account
  | .nativeProgram => executeNativeProgram env run account
  | _ => pure (.controller .invalidProgram)

/-- Does the starter of a program get an error code as the error of the run? An unknown
type of account is an error in any case. -/
def surfaces (tolerance : Tolerance) (account : Account) (code : ErrorCode) : Bool :=
  match tolerance, account.type, code with
  | _, .user, _ => true
  | _, .invalid, _ => true
  | .strict, _, code => code.failed
  | .relaxed, .program, .exited _ => false
  | .relaxed, .nativeProgram, .program _ => false
  | .relaxed, _, code => code.failed

/-- Drop the frame on top, as the frame guard does on every exit. -/
def popFrame (context : Context) : Context := { context with stack := context.stack.tail }

/-- Record a finished frame and return its output. -/
def recordFrame (account : Account) (stdin : Bytes) (arguments : List Bytes) (code : ErrorCode) :
    Run ProgramOutput := do
  let top ← peekFrame
  let output : ProgramOutput := ⟨Int32.ofInt code.value, top.stdout, top.stderr⟩
  Effect.modify fun context => { context with
    frames := context.frames ++ [⟨⟨arguments, stdin⟩, output, account, context.stack.length⟩] }
  pure output

/-- What a started program does in its frame. -/
def inOwnFrame (run : Runner) (tolerance : Tolerance) (account : Account) (stdin : Bytes)
    (arguments : List Bytes) : Run (Result ProgramOutput) := do
  let code ← executeProgram env run account
  if surfaces tolerance account code then pure (.error code)
  else do
    let output ← recordFrame account stdin arguments code
    pure (.ok output)

/-- Run a program in a frame of its own. The stack limit is reached before the room is. -/
def runProgramAt : Nat → Runner
  | 0 => fun _ _ _ _ => pure (.error (.controller .stackOverflow))
  | room + 1 => fun tolerance account stdin arguments => do
      let pushed ← pushFrame ⟨account, arguments, stdin, [], [], 0⟩
      if pushed.failed then pure (.error pushed)
      else Effect.ensuring popFrame do
        inOwnFrame env (runProgramAt room) tolerance account stdin arguments

/-- Room for more frames than the stack ever holds. -/
def fullRoom : Nat := stackLimit + 1

def runProgram : Runner := runProgramAt env fullRoom

end Context

/-- The answers a native program gets when so much room is left on the stack. -/
def answers (env : Env) (room : Nat) (call : SystemCall) : Run call.Response :=
  Context.answerSystem env.crypto (Context.runProgramAt env room) call

/-- Where the module of a program is stored. -/
def programKey (id : Account) : Bytes := makeCompoundKey ObjectSpace.programData id.1

/-- Where the coin supply is stored. -/
def supplyKey : Bytes :=
  makeCompoundKey (ObjectSpace.ofProgram Context.coin Coin.supplyId) []

/-- Where the coin balance of an account is stored. -/
def balanceKey (account : Account) : Bytes :=
  makeCompoundKey (ObjectSpace.ofProgram Context.coin Coin.balanceId) account.1

end Respublica.Controller
