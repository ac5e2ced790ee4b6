import Respublica.Vm.LinearMemory

/-!
# The imported functions

A module reaches the chain through twelve functions. The program context resolves the addresses it
is passed in the memory of the instance; when one of them is not good for what is behind it, the
function traps before the host is called. `host_api` then works with native pointers, which are
positions in the memory here, and calls the execution context.

The source checks some buffers for their first element only, so the host may leave the memory. That
is undefined and a fault here.
-/

namespace Respublica.Vm

open Foundation Effect Program Protocol Region Interaction

/-- A part of a module's run, in terms of the calls it makes. -/
abbrev HostProgram (Value : Type) :=
  Interaction StateDb.Fault HostCall HostCall.Response Value

/-- Issue one host call. -/
def call (request : HostCall) : HostProgram request.Response := Interaction.perform request

/-- Work on the memory of the instance. -/
def touch {Value : Type} : Except MemoryFault Value → HostProgram Value
  | .ok value => pure value
  | .error .outside => .stop .outOfBounds

/-- Work on the memory that stays inside goes on with its result. -/
theorem touch_bind {Value Result : Type} {work : Except MemoryFault Value} {value : Value}
    (inside : work = .ok value) (next : Value → HostProgram Result) :
    (touch work >>= next) = next value := by
  rw [inside]
  rfl

/-- The codes of `wasi_errc` that are used. -/
inductive WasiErrc where
  | success
  | badf
deriving DecidableEq

def WasiErrc.value : WasiErrc → Int
  | .success => 0
  | .badf => 8

/-- The code of an imported function, which may be of the WASI category. -/
inductive HostCode where
  | wasi (code : WasiErrc)
  | error (code : ErrorCode)
deriving DecidableEq

def HostCode.value : HostCode → Int
  | .wasi code => code.value
  | .error code => code.value

/-- `host_api::halts`: the code that ends a run, if it is one. -/
def halts : HostCode → Option ErrorCode
  | .error (.controller .insufficientResources) => some (.controller .insufficientResources)
  | .error (.controller .networkBandwidthLimitExceeded) =>
    some (.controller .networkBandwidthLimitExceeded)
  | .error (.controller .computeBandwidthLimitExceeded) =>
    some (.controller .computeBandwidthLimitExceeded)
  | .error (.controller .diskStorageLimitExceeded) => some (.controller .diskStorageLimitExceeded)
  | _ => none

/-- The imported functions, with the words they are passed. -/
inductive HostFunction where
  | wasiArgsGet (argv argvBuf : UInt32)
  | wasiArgsSizesGet (argc argvBufSize : UInt32)
  | wasiFdSeek (fd : UInt32) (offset : UInt64) (whence newOffset : UInt32)
  | wasiFdWrite (fd iovs iovsLen nwritten : UInt32)
  | wasiFdRead (fd iovs iovsLen nwritten : UInt32)
  | wasiFdClose (fd : UInt32)
  | wasiFdFdstatGet (fd flags : UInt32)
  | wasiProcExit (code : Int32)
  | respublicaGetCaller (retPtr retLen : UInt32)
  | respublicaGetObject (id keyPtr keyLen valuePtr valueLen : UInt32)
  | respublicaPutObject (id keyPtr keyLen valuePtr valueLen : UInt32)
  | respublicaCheckAuthority (accountPtr accountLen value : UInt32)

/-! `host_api`: the bodies of the imported functions. -/

namespace HostApi

/-- The loop of `host_api::wasi_args_get`. The index is that of the table. -/
def copyArguments (argv argvBuf index : Nat) :
    List Bytes → UInt32 → Bytes → Except MemoryFault Bytes
  | [], _, data => .ok data
  | argument :: rest, counter, data => do
      let data ← storeWord32 data (argv + 4 * index) counter
      let data ← copyTo data (argvBuf + counter.toNat) argument
      copyArguments argv argvBuf index rest (counter + UInt32.ofNat argument.length) data

/-- `host_api::wasi_args_get` for the given arguments, with the count it returns. -/
def argsGet (arguments : List Bytes) (argv argvBuf : Nat) (data : Bytes) :
    Except MemoryFault (Nat × Bytes) := do
  let index := 0
  let data ← copyArguments argv argvBuf index arguments 0 data
  pure (index, data)

/-- Add the address of the buffer to so many entries of the table. -/
def relocate (argv : Nat) (argvOffset : UInt32) : Nat → Nat → Bytes → Except MemoryFault Bytes
  | 0, _, data => .ok data
  | remaining + 1, entry, data => do
      let offset ← loadWord32 data (argv + 4 * entry)
      let data ← storeWord32 data (argv + 4 * entry) (offset + argvOffset)
      relocate argv argvOffset remaining (entry + 1) data

/-- `host_api::wasi_args_get` and the loop of `program_context::wasi_args_get` after it. -/
def passArguments (arguments : List Bytes) (argv argvBuf : Nat) (argvOffset : UInt32)
    (data : Bytes) : Except MemoryFault Bytes := do
  let (argc, data) ← argsGet arguments argv argvBuf data
  relocate argv argvOffset argc 0 data

/-- Add the sizes of arguments to a word of the memory. -/
def addSizes (argvBufSize : Nat) : List Bytes → Bytes → Except MemoryFault Bytes
  | [], data => .ok data
  | argument :: rest, data => do
      let size ← loadWord32 data argvBufSize
      let data ← storeWord32 data argvBufSize (size + UInt32.ofNat argument.length)
      addSizes argvBufSize rest data

/-- `host_api::wasi_args_sizes_get` for the given arguments. -/
def reportArguments (arguments : List Bytes) (argc argvBufSize : Nat) (data : Bytes) :
    Except MemoryFault Bytes := do
  let data ← storeWord32 data argc (UInt32.ofNat arguments.length)
  let data ← storeWord32 data argvBufSize 0
  addSizes argvBufSize arguments data

/-- Only two descriptors can be written; any other is refused as the standard input is. -/
def writtenDescriptor (descriptor : UInt32) : FileDescriptor :=
  if descriptor = 1 then .stdout else if descriptor = 2 then .stderr else .stdin

/-- Only the standard input can be read; any other descriptor is refused as the output is. -/
def readDescriptor (descriptor : UInt32) : FileDescriptor :=
  if descriptor = 0 then .stdin else .stdout

/-- Add the size of a vector to the word that counts the bytes. -/
def addCount (data : Bytes) (nwritten : Nat) (size : Nat) : Except MemoryFault Bytes := do
  let count ← loadWord32 data nwritten
  storeWord32 data nwritten (count + UInt32.ofNat size)

/-- The loop of `host_api::wasi_fd_write`. The count is added to what the memory holds. -/
def writeVectors (descriptor : FileDescriptor) (nwritten : Nat) :
    List IoVector → Bytes → HostProgram (HostCode × Bytes)
  | [], data => pure (.wasi .success, data)
  | iov :: rest, data => do
      let error ← call (.write descriptor (slice data iov.address iov.size))
      if error.failed then pure (.wasi .badf, data)
      else do
        let data ← touch (addCount data nwritten iov.size)
        writeVectors descriptor nwritten rest data

/-- The loop of `host_api::wasi_fd_read`. A vector counts with its size, however much was read. -/
def readVectors (descriptor : FileDescriptor) (nwritten : Nat) :
    List IoVector → Bytes → HostProgram (HostCode × Bytes)
  | [], data => pure (.wasi .success, data)
  | iov :: rest, data => do
      let (error, bytes) ← call (.read descriptor iov.size)
      if error.failed then pure (.wasi .badf, data)
      else do
        let data ← touch (copyTo data iov.address bytes)
        let data ← touch (addCount data nwritten iov.size)
        readVectors descriptor nwritten rest data

/-- `host_api::wasi_fd_read`, which clears the count. -/
def wasiFdRead (fd : UInt32) (nwritten : Nat) (iovs : List IoVector) (data : Bytes) :
    HostProgram (HostCode × Bytes) := do
  let data ← touch (storeWord32 data nwritten 0)
  readVectors (readDescriptor fd) nwritten iovs data

/-- The rights of a descriptor: `fd_read` for the input, `fd_write` for the outputs. -/
def wasiFdFdstatGet (fd : UInt32) (flags : Nat) (data : Bytes) :
    HostProgram (HostCode × Bytes) := do
  let held ← touch (loadWord32 data flags)
  if fd = 0 then do
    let data ← touch (storeWord32 data flags (held ||| 2))
    pure (.wasi .success, data)
  else if fd = 1 ∨ fd = 2 then do
    let data ← touch (storeWord32 data flags (held ||| 64))
    pure (.wasi .success, data)
  else pure (.wasi .badf, data)

/-- Copy bytes to a buffer, if they fit, and store how many there are. -/
def copyOut (bytes : Bytes) (retPtr retLen : Nat) (data : Bytes) :
    HostProgram (HostCode × Bytes) := do
  let size ← touch (loadWord32 data retLen)
  if size.toNat < bytes.length then pure (.error (.controller .insufficientSpace), data)
  else do
    let data ← touch (copyTo data retPtr bytes)
    let data ← touch (storeWord32 data retLen (UInt32.ofNat bytes.length))
    pure (.error (.controller .ok), data)

def respublicaCheckAuthority (account : Bytes) (value : Nat) (data : Bytes) :
    HostProgram (HostCode × Bytes) :=
  if account.length ≠ 33 then pure (.error (.controller .invalidAccount), data)
  else do
    match ← call (.checkAuthority (SizedBytes.fit 33 account)) with
    | .ok authorized => do
        let data ← touch (copyTo data value [if authorized then 1 else 0])
        pure (.error (.controller .ok), data)
    | .error error => pure (.error error, data)

end HostApi

/-! `program_context`: the addresses are resolved before the host is called. -/

/-- The memory and the place of an address in it that is good for so many bytes. -/
def onePointer (memory : Option Bytes) (ptr size : UInt32) : Option (Bytes × Nat) := do
  let data ← memory
  let place ← nativePointer memory ptr size
  pure (data, place)

/-- The memory and the places of two addresses. -/
def twoPointers (memory : Option Bytes) (first firstSize second secondSize : UInt32) :
    Option (Bytes × Nat × Nat) := do
  let (data, firstPtr) ← onePointer memory first firstSize
  let secondPtr ← nativePointer memory second secondSize
  pure (data, firstPtr, secondPtr)

/-- The memory and the places of a buffer and of the word with its size. -/
def sizedBuffer (memory : Option Bytes) (ptr len : UInt32) : Option (Bytes × Nat × Nat) := do
  let (data, lenPtr) ← onePointer memory len 4
  let bufferPtr ← nativePointer memory ptr (wordAt data lenPtr)
  pure (data, bufferPtr, lenPtr)

/-- The bytes of a key, and a buffer for the value. -/
def keyAndBuffer (memory : Option Bytes) (keyPtr keyLen valuePtr valueLen : UInt32) :
    Option (Bytes × Bytes × Nat × Nat) := do
  let (data, place) ← onePointer memory keyPtr keyLen
  let (_, valuePlace, lenPlace) ← sizedBuffer memory valuePtr valueLen
  pure (slice data place keyLen.toNat, data, valuePlace, lenPlace)

/-- The vectors of an array and the place of the count. -/
def vectorsAndCount (memory : Option Bytes) (iovs iovsLen nwritten : UInt32) :
    Except MemoryFault (Option (Bytes × List IoVector × Nat)) := do
  let vectors ← makeIovs memory iovs iovsLen
  match vectors, memory, nativePointer memory nwritten 4 with
  | .ok vectors, some data, some nwritten => pure (some (data, vectors, nwritten))
  | _, _, _ => pure none

/-- A host call on a memory that is there. -/
def onData (body : HostProgram (HostCode × Bytes)) : HostProgram (HostCode × Option Bytes) := do
  let (code, data) ← body
  pure (code, some data)

/-- A call succeeds on a memory that is there if it does so on the bytes of the memory. -/
theorem returns_onData {State : Type}
    {handler : (request : HostCall) → Effect StateDb.Fault State request.Response}
    {body : HostProgram (HostCode × Bytes)} {before after : State} {code : HostCode}
    {data : Bytes} :
    (interpret handler (onData body)).Returns before (code, some data) after ↔
      (interpret handler body).Returns before (code, data) after := by
  rw [onData, interpret_bind]
  constructor
  · intro gave
    obtain ⟨⟨_, _⟩, _, served, answered⟩ := returns_bind.mp gave
    obtain ⟨same, rfl⟩ := returns_pure.mp answered
    cases same
    exact served
  · exact fun served => returns_bind.mpr ⟨_, _, served, rfl⟩

/-- What an imported function calls, with its addresses resolved. There is nothing to call when one
of them is bad. -/
def resolve (memory : Option Bytes) :
    HostFunction → Except MemoryFault (Option (HostProgram (HostCode × Option Bytes)))
  | .wasiArgsGet argv argvBuf =>
    .ok ((twoPointers memory argv 4 argvBuf 1).map fun (data, argvPtr, argvBufPtr) => onData do
      let arguments ← call .arguments
      let data ← touch (HostApi.passArguments arguments argvPtr argvBufPtr argvBuf data)
      pure (.wasi .success, data))
  | .wasiArgsSizesGet argc argvBufSize =>
    .ok ((twoPointers memory argc 4 argvBufSize 4).map fun (data, argcPtr, sizePtr) => onData do
      let arguments ← call .arguments
      let data ← touch (HostApi.reportArguments arguments argcPtr sizePtr data)
      pure (.wasi .success, data))
  | .wasiFdSeek _ _ whence newOffset =>
    .ok ((twoPointers memory whence 1 newOffset 1).map fun _ => pure (.wasi .success, memory))
  | .wasiFdWrite fd iovs iovsLen nwritten =>
    (vectorsAndCount memory iovs iovsLen nwritten).map
      (Option.map fun (data, vectors, nwritten) =>
        onData (HostApi.writeVectors (HostApi.writtenDescriptor fd) nwritten vectors data))
  | .wasiFdRead fd iovs iovsLen nwritten =>
    (vectorsAndCount memory iovs iovsLen nwritten).map
      (Option.map fun (data, vectors, nwritten) =>
        onData (HostApi.wasiFdRead fd nwritten vectors data))
  | .wasiFdClose _ => .ok (some (pure (.wasi .success, memory)))
  | .wasiFdFdstatGet fd flags =>
    .ok ((onePointer memory flags 4).map fun (data, flags) =>
      onData (HostApi.wasiFdFdstatGet fd flags data))
  | .wasiProcExit _ => .ok (some (pure (.error (.virtualMachine .ok), memory)))
  | .respublicaGetCaller retPtr retLen =>
    .ok ((sizedBuffer memory retPtr retLen).map fun (data, retPtr, retLen) => onData do
      let caller ← call .getCaller
      HostApi.copyOut caller retPtr retLen data)
  | .respublicaGetObject id keyPtr keyLen valuePtr valueLen =>
    .ok ((keyAndBuffer memory keyPtr keyLen valuePtr valueLen).map
      fun (key, data, valuePtr, valueLen) => onData do
        let object ← call (.getObject id key)
        HostApi.copyOut object valuePtr valueLen data)
  | .respublicaPutObject id keyPtr keyLen valuePtr valueLen =>
    .ok ((twoPointers memory keyPtr keyLen valuePtr valueLen).map
      fun (data, key, value) => onData do
        let error ← call (.putObject id (slice data key keyLen.toNat)
          (slice data value valueLen.toNat))
        pure (.error error, data))
  | .respublicaCheckAuthority accountPtr accountLen value =>
    .ok ((twoPointers memory accountPtr accountLen value 1).map fun (data, account, value) =>
      onData (HostApi.respublicaCheckAuthority (slice data account accountLen.toNat) value data))

/-! The word that counts bytes -/

/-- A word in the memory is increased, and the memory is as before apart from it. -/
theorem HostApi.addCount_inside {data : Bytes} {nwritten : Nat} (size : Nat)
    (inside : nwritten + 4 ≤ data.length) :
    ∃ counted, addCount data nwritten size = .ok counted ∧ counted.length = data.length ∧
      wordAt counted nwritten = wordAt data nwritten + UInt32.ofNat size ∧
      ∀ position, position < nwritten ∨ nwritten + 4 ≤ position →
        counted[position]? = data[position]? := by
  obtain ⟨counted, storing, width, word, same⟩ :=
    storeWord32_inside (wordAt data nwritten + UInt32.ofNat size) inside
  refine ⟨counted, ?_, width, wordAt_eq_of_slice word, same⟩
  rw [addCount, loadWord32_inside inside]
  exact storing

/-- A memory with one vector of two bytes: its array, the count, and from the vector on some
bytes. -/
def oneVector (count : UInt8) (bytes : Bytes) : Bytes :=
  [12, 0, 0, 0, 2, 0, 0, 0, count, 0, 0, 0] ++ bytes

/-- The two bytes are added to what the count was. -/
theorem addCount_oneVector (bytes : Bytes) :
    HostApi.addCount (oneVector 0 bytes) 8 2 = .ok (oneVector 2 bytes) ∧
      HostApi.addCount (oneVector 5 bytes) 8 2 = .ok (oneVector 7 bytes) := by
  have loaded : loadWord32 (oneVector 0 bytes) 8 = .ok 0 := rfl
  have stored : storeWord32 (oneVector 0 bytes) 8 2 = .ok (oneVector 2 bytes) := rfl
  have loadedFive : loadWord32 (oneVector 5 bytes) 8 = .ok 5 := rfl
  have storedSeven : storeWord32 (oneVector 5 bytes) 8 7 = .ok (oneVector 7 bytes) := rfl
  rw [HostApi.addCount, HostApi.addCount, loaded, loadedFive]
  exact ⟨stored, storedSeven⟩

/-! Which calls the imported functions make -/

/-- Calls other than those of the metering. -/
def IsService : HostCall → Prop
  | .getMeterTicks => False
  | .useMeterTicks _ => False
  | _ => True

section Issues

theorem touch_issues {Value : Type} (result : Except MemoryFault Value) :
    (touch result).Issues IsService := by
  rcases result with ⟨⟨⟩⟩ | value <;> exact trivial

/-- A service and what follows it issue services. -/
theorem call_issues {Value : Type} {request : HostCall} (service : IsService request)
    {next : request.Response → HostProgram Value}
    (issues : ∀ answer, (next answer).Issues IsService) :
    (call request >>= next).Issues IsService :=
  issues_bind (issues_perform service) issues

/-- Work on the memory makes no calls. -/
theorem touch_bind_issues {Value Result : Type} {result : Except MemoryFault Value}
    {next : Value → HostProgram Result} (issues : ∀ value, (next value).Issues IsService) :
    (touch result >>= next).Issues IsService :=
  issues_bind (touch_issues result) issues

/-- Writing vectors issues services. -/
theorem writeVectors_issues (descriptor : FileDescriptor) (nwritten : Nat) (iovs : List IoVector)
    (data : Bytes) : (HostApi.writeVectors descriptor nwritten iovs data).Issues IsService := by
  induction iovs generalizing data with
  | nil => exact trivial
  | cons iov rest ih =>
    exact call_issues (by trivial) fun _ => issues_ite trivial (touch_bind_issues ih)

/-- Reading vectors issues services. -/
theorem readVectors_issues (descriptor : FileDescriptor) (nwritten : Nat) (iovs : List IoVector)
    (data : Bytes) : (HostApi.readVectors descriptor nwritten iovs data).Issues IsService := by
  induction iovs generalizing data with
  | nil => exact trivial
  | cons iov rest ih =>
    exact call_issues (by trivial) fun _ => issues_ite trivial
      (touch_bind_issues fun _ => touch_bind_issues ih)

theorem copyOut_issues (bytes : Bytes) (retPtr retLen : Nat) (data : Bytes) :
    (HostApi.copyOut bytes retPtr retLen data).Issues IsService :=
  touch_bind_issues fun _ => issues_ite trivial
    (touch_bind_issues fun _ => touch_bind_issues fun _ => trivial)

theorem respublicaCheckAuthority_issues (account : Bytes) (value : Nat) (data : Bytes) :
    (HostApi.respublicaCheckAuthority account value data).Issues IsService := by
  refine issues_ite trivial (call_issues (by trivial) fun answer => ?_)
  cases answer with
  | ok authorized => exact touch_bind_issues fun _ => trivial
  | error error => exact trivial

theorem onData_issues {body : HostProgram (HostCode × Bytes)} (issues : body.Issues IsService) :
    (onData body).Issues IsService :=
  issues_bind issues fun _ => trivial

/-- The imported functions leave the metering to the program context. -/
theorem resolve_issues {memory : Option Bytes} {function : HostFunction}
    {body : HostProgram (HostCode × Option Bytes)}
    (resolved : resolve memory function = .ok (some body)) : body.Issues IsService := by
  have made {Found : Type} {found : Option Found}
      {make : Found → HostProgram (HostCode × Option Bytes)} (same : found.map make = some body)
      (issues : ∀ value, (make value).Issues IsService) : body.Issues IsService := by
    obtain ⟨value, -, rfl⟩ := Option.map_eq_some_iff.mp same
    exact issues value
  cases function with
  | wasiArgsGet argv argvBuf =>
    exact made (Except.ok.inj resolved) fun _ => onData_issues
      (call_issues (by trivial) fun _ => touch_bind_issues fun _ => trivial)
  | wasiArgsSizesGet argc argvBufSize =>
    exact made (Except.ok.inj resolved) fun _ => onData_issues
      (call_issues (by trivial) fun _ => touch_bind_issues fun _ => trivial)
  | wasiFdSeek fd offset whence newOffset => exact made (Except.ok.inj resolved) fun _ => trivial
  | wasiFdWrite fd iovs iovsLen nwritten =>
    obtain ⟨found, -, same⟩ := map_eq_ok.mp resolved
    exact made same fun _ => onData_issues (writeVectors_issues _ _ _ _)
  | wasiFdRead fd iovs iovsLen nwritten =>
    obtain ⟨found, -, same⟩ := map_eq_ok.mp resolved
    exact made same fun _ => onData_issues (touch_bind_issues (readVectors_issues _ _ _))
  | wasiFdFdstatGet fd flags =>
    exact made (Except.ok.inj resolved) fun _ => onData_issues (touch_bind_issues fun _ =>
      issues_ite (touch_bind_issues fun _ => trivial) (issues_ite
        (touch_bind_issues fun _ => trivial) trivial))
  | respublicaGetCaller retPtr retLen =>
    exact made (Except.ok.inj resolved) fun _ => onData_issues
      (call_issues (by trivial) fun _ => copyOut_issues _ _ _ _)
  | respublicaGetObject id keyPtr keyLen valuePtr valueLen =>
    exact made (Except.ok.inj resolved) fun _ => onData_issues
      (call_issues (by trivial) fun _ => copyOut_issues _ _ _ _)
  | respublicaPutObject id keyPtr keyLen valuePtr valueLen =>
    exact made (Except.ok.inj resolved) fun _ => onData_issues
      (call_issues (by trivial) fun _ => trivial)
  | respublicaCheckAuthority accountPtr accountLen value =>
    exact made (Except.ok.inj resolved) fun _ => onData_issues
      (respublicaCheckAuthority_issues _ _ _)
  | wasiFdClose fd =>
    obtain rfl := Option.some.inj (Except.ok.inj resolved)
    exact trivial
  | wasiProcExit code =>
    obtain rfl := Option.some.inj (Except.ok.inj resolved)
    exact trivial

end Issues

end Respublica.Vm
