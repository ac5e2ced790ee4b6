import Respublica.Controller.ComputeMetering
import Respublica.Controller.Frame

/-!
# Input and output of a program

A program reads its input and writes its outputs with `fd_read` and `fd_write`, through I/O vectors
in its memory, and finds the number of bytes in a word of the memory whose address it passes.

`fd_write` adds to what that word holds already. `fd_read` clears it first, but counts a vector with
its whole size, however much of it was filled, so a read at the end of the input cannot be told from
a read before it. In a session in which the word is zero before each write and no read asks for more
than is left, and in which vectors and word do not overlap, all counts are right.

Between two calls a program may change its memory as it likes, so each call of a session brings the
memory it is made with. The call itself is what the host API makes of it in an execution context;
left out is only the settlement of fizzy's ticks around it.
-/

namespace Respublica.Controller

open Foundation Effect Program Protocol Region Vm Interaction Context HostApi

namespace StackFrame

/-- `execution_context::write`, without its charge. -/
def write (descriptor : FileDescriptor) (buffer : Bytes) (frame : StackFrame) : Option StackFrame :=
  match descriptor with
  | .stdout => some { frame with stdout := frame.stdout ++ buffer }
  | .stderr => some { frame with stderr := frame.stderr ++ buffer }
  | .stdin => none

/-- `execution_context::read`, without its charge, with the bytes it copies. -/
def read (descriptor : FileDescriptor) (size : Nat) (frame : StackFrame) :
    Option (Bytes × StackFrame) :=
  match descriptor with
  | .stdin =>
    let bytes := (frame.stdin.drop frame.stdinOffset).take size
    some (bytes, { frame with stdinOffset := frame.stdinOffset + bytes.length })
  | _ => none

end StackFrame

namespace Context

variable {context mid : Context} {frame : StackFrame} {callers : List StackFrame}

theorem stack_of_chargeCall (paid : chargeCall.Returns context () mid) :
    mid.stack = context.stack := by
  rw [eq_of_chargeCall paid]

/-- The frame on top is read and replaced. -/
theorem stack_of_change {Value : Type} {change : StackFrame → StackFrame → StackFrame}
    {answer : StackFrame → Value} {value : Value} (stack : context.stack = frame :: callers)
    (gave : Effect.Returns (do
      let frame ← peekFrame
      updateFrame (change frame)
      pure (answer frame) : Run Value) context value mid) :
    mid.stack = change frame frame :: callers ∧ value = answer frame := by
  simp only [updateFrame, returns_bind, returns_peekFrame, returns_modify, returns_pure] at gave
  obtain ⟨top, _, ⟨found, rfl⟩, _, _, rfl, rfl, rfl⟩ := gave
  rw [stack, List.head?_cons, Option.some.injEq] at found
  subst found
  exact ⟨by rw [stack]; rfl, rfl⟩

variable {descriptor : FileDescriptor} {code : ErrorCode}

/-- A write changes the frame on top as `StackFrame.write` says. -/
theorem write_returns {buffer : Bytes} (stack : context.stack = frame :: callers)
    (gave : (write descriptor buffer).Returns context code mid) :
    mid.stack = (frame.write descriptor buffer).getD frame :: callers ∧
      code.failed = (frame.write descriptor buffer).isNone := by
  obtain ⟨_, charged, paid, gave⟩ := returns_bind.mp gave
  have same := (stack_of_chargeCall paid).trans stack
  cases descriptor with
  | stdin =>
    obtain ⟨rfl, rfl⟩ := returns_pure.mp gave
    exact ⟨same, rfl⟩
  | stdout =>
    obtain ⟨changed, rfl⟩ := stack_of_change same gave
    exact ⟨changed, rfl⟩
  | stderr =>
    obtain ⟨changed, rfl⟩ := stack_of_change same gave
    exact ⟨changed, rfl⟩

/-- A read changes the frame on top, and copies, as `StackFrame.read` says. -/
theorem read_returns {size : Nat} {bytes : Bytes} (stack : context.stack = frame :: callers)
    (gave : (read descriptor size).Returns context (code, bytes) mid) :
    ∃ after, mid.stack = after :: callers ∧
      (bytes, after) = (frame.read descriptor size).getD ([], frame) ∧
      code.failed = (frame.read descriptor size).isNone := by
  obtain ⟨_, charged, paid, gave⟩ := returns_bind.mp gave
  have same := (stack_of_chargeCall paid).trans stack
  cases descriptor with
  | stdin =>
    obtain ⟨changed, answered⟩ := stack_of_change same gave
    obtain ⟨rfl, rfl⟩ := Prod.mk.inj answered
    exact ⟨_, changed, rfl, rfl⟩
  | stdout =>
    obtain ⟨answered, rfl⟩ := returns_pure.mp gave
    obtain ⟨rfl, rfl⟩ := Prod.mk.inj answered
    exact ⟨_, same, rfl, rfl⟩
  | stderr =>
    obtain ⟨answered, rfl⟩ := returns_pure.mp gave
    obtain ⟨rfl, rfl⟩ := Prod.mk.inj answered
    exact ⟨_, same, rfl, rfl⟩

end Context

namespace Stream

/-! Sessions -/

inductive Direction where
  | input
  | output
deriving DecidableEq

/-- A call, with the memory it is made with. -/
structure Call where
  direction : Direction
  fd : UInt32
  iovs : UInt32
  iovsLen : UInt32
  nwritten : UInt32
  data : Bytes

/-- The vectors that a call describes. -/
def Call.vectors (call : Call) : List IoVector :=
  vectorsAt call.data call.iovsLen.toNat call.iovs.toNat

/-- The size of all vectors of a call. -/
def Call.size (call : Call) : Nat := (call.vectors.map IoVector.size).sum

/-- The imported function that a call is for, with its arguments. -/
def Call.function (call : Call) : HostFunction :=
  match call.direction with
  | .input => .wasiFdRead call.fd call.iovs call.iovsLen call.nwritten
  | .output => .wasiFdWrite call.fd call.iovs call.iovsLen call.nwritten

variable {crypto : Crypto.Primitives} {run : Runner}

/-- A call that a context serves with success, and what it leaves behind in the memory and in the
frame on top of the stack. -/
structure Exchange (crypto : Crypto.Primitives) (run : Runner) where
  call : Call
  before : StackFrame
  data : Bytes
  after : StackFrame
  succeeded : ∃ context mid callers body,
    context.stack = before :: callers ∧ mid.stack = after :: callers ∧
      resolve (some call.data) call.function = .ok (some body) ∧
      (interpret (answerHost crypto run) body).Returns context
        (.wasi .success, some data) mid

/-- The bytes of vectors in a memory. -/
def gather (data : Bytes) (vectors : List IoVector) : Bytes :=
  vectors.flatMap fun iov => slice data iov.address iov.size

namespace Exchange

/-- The count that the call stores. -/
def counted (exchange : Exchange crypto run) : Nat :=
  (wordAt exchange.data exchange.call.nwritten.toNat).toNat

/-- How many bytes the call transferred. -/
def transferred (exchange : Exchange crypto run) : Nat :=
  match exchange.call.direction with
  | .input => exchange.after.stdinOffset - exchange.before.stdinOffset
  | .output =>
    exchange.after.stdout.length - exchange.before.stdout.length +
      (exchange.after.stderr.length - exchange.before.stderr.length)

/-- The bytes in the vectors of a read, cut to its count. -/
def delivered (exchange : Exchange crypto run) : Bytes :=
  match exchange.call.direction with
  | .input => (gather exchange.data exchange.call.vectors).take exchange.counted
  | .output => []

/-- The bytes in the vectors of a write to a stream. -/
def written (stream : FileDescriptor) (exchange : Exchange crypto run) : Bytes :=
  match exchange.call.direction with
  | .input => []
  | .output =>
    if writtenDescriptor exchange.call.fd = stream then
      gather exchange.call.data exchange.call.vectors
    else []

end Exchange

/-- Successful calls, one after the other. -/
inductive Session (start : StackFrame) : List (Exchange crypto run) → StackFrame → Prop where
  | nil : Session start [] start
  | snoc {exchanges : List (Exchange crypto run)} {exchange : Exchange crypto run} :
      Session start exchanges exchange.before →
        Session start (exchanges ++ [exchange]) exchange.after

/-- What a session is to observe, from a frame that was just pushed. -/
structure Orderly (stdin : Bytes) (exchanges : List (Exchange crypto run)) (frame : StackFrame) :
    Prop where
  counts : ∀ exchange ∈ exchanges, exchange.counted = exchange.transferred
  input : exchanges.flatMap Exchange.delivered = stdin.take frame.stdinOffset
  exhausted : ∀ exchange ∈ exchanges, exchange.call.direction = .input →
    exchange.before.stdinOffset = stdin.length → exchange.counted = 0
  output : frame.stdout = exchanges.flatMap (Exchange.written .stdout)
  errors : frame.stderr = exchanges.flatMap (Exchange.written .stderr)

/-- The conditions of a call: vectors and count do not overlap and their size can be counted; before
a write the count is zero; and a read asks for no more than is left. -/
structure Fair (call : Call) (frame : StackFrame) : Prop where
  countable : call.size < 2 ^ 32
  beside : ∀ iov ∈ call.vectors, Apart iov.address iov.size call.nwritten.toNat 4
  clear : call.direction = .output → wordAt call.data call.nwritten.toNat = 0
  distinct : call.direction = .input →
    call.vectors.Pairwise fun iov other => Apart iov.address iov.size other.address other.size
  available : call.direction = .input → frame.stdinOffset + call.size ≤ frame.stdin.length

/-! One call -/

/-- What is written goes to its stream. -/
theorem write_eq (descriptor : FileDescriptor) (bytes : Bytes) (frame : StackFrame)
    (writable : (frame.write descriptor bytes).isNone = false) :
    (frame.write descriptor bytes).getD frame = { frame with
      stdout := frame.stdout ++ if descriptor = .stdout then bytes else []
      stderr := frame.stderr ++ if descriptor = .stderr then bytes else [] } := by
  cases descriptor with
  | stdin => cases writable
  | stdout => simp [StackFrame.write]
  | stderr => simp [StackFrame.write]

/-- The bytes that are left are read as far as the buffer goes. -/
theorem read_eq {size : Nat} {frame : StackFrame}
    (available : frame.stdinOffset + size ≤ frame.stdin.length) :
    frame.read .stdin size = some (slice frame.stdin frame.stdinOffset size,
      { frame with stdinOffset := frame.stdinOffset + size }) := by
  have advance := congrArg (frame.stdinOffset + ·) (length_slice available)
  simpa only [StackFrame.read, slice, Option.some.injEq, Prod.mk.injEq, true_and,
    StackFrame.mk.injEq] using advance

section Vectors

variable {descriptor : FileDescriptor} {nwritten : Nat} {data after : Bytes} {frame : StackFrame}
  {context mid : Context} {callers : List StackFrame}

section

variable (count : nwritten + 4 ≤ data.length)
include count

/-- One vector is written, and counted. -/
theorem writeVectors_cons {iov : IoVector} {rest : List IoVector}
    (stack : context.stack = frame :: callers)
    (success : (interpret (answerHost crypto run)
      (writeVectors descriptor nwritten (iov :: rest) data)).Returns context
      (.wasi .success, after) mid) :
    ∃ stored wrote, (interpret (answerHost crypto run)
        (writeVectors descriptor nwritten rest stored)).Returns wrote
        (.wasi .success, after) mid ∧
      wrote.stack = { frame with
        stdout := frame.stdout ++
          if descriptor = .stdout then slice data iov.address iov.size else []
        stderr := frame.stderr ++
          if descriptor = .stderr then slice data iov.address iov.size else [] } :: callers ∧
      addCount data nwritten iov.size = .ok stored ∧ descriptor ≠ .stdin := by
  obtain ⟨stored, counting, -⟩ := addCount_inside iov.size count
  rw [writeVectors, interpret_bind, Vm.call, interpret_perform]
    at success
  obtain ⟨error, wrote, writes, success⟩ := returns_bind.mp success
  obtain ⟨top, failed⟩ := write_returns stack writes
  cases fails : error.failed with
  | true =>
    rw [fails, if_pos rfl] at success
    cases (returns_pure.mp success).1
  | false =>
    rw [fails] at failed
    rw [fails, if_neg Bool.false_ne_true, counting] at success
    refine ⟨stored, wrote, success, ?_, counting, ?_⟩
    · rw [top, write_eq descriptor _ frame failed.symm]
    · rintro rfl
      cases failed

/-- A successful loop over vectors beside the count writes all of them and adds their sizes. -/
theorem writeVectors_success {vectors : List IoVector}
    (beside : ∀ iov ∈ vectors, Apart iov.address iov.size nwritten 4)
    (stack : context.stack = frame :: callers)
    (success : (interpret (answerHost crypto run)
      (writeVectors descriptor nwritten vectors data)).Returns context
      (.wasi .success, after) mid) :
    wordAt after nwritten =
        wordAt data nwritten + UInt32.ofNat (vectors.map IoVector.size).sum ∧
      mid.stack = { frame with
        stdout := frame.stdout ++ if descriptor = .stdout then gather data vectors else []
        stderr := frame.stderr ++ if descriptor = .stderr then gather data vectors else [] } ::
          callers := by
  induction vectors generalizing data frame context with
  | nil =>
    obtain ⟨same, rfl⟩ := returns_pure.mp success
    cases same
    simp [gather, stack]
  | cons iov rest ih =>
    obtain ⟨first, others⟩ := List.forall_mem_cons.mp beside
    obtain ⟨stored, wrote, success, top, counting, -⟩ := writeVectors_cons count stack success
    obtain ⟨counted, counts, width, word, same⟩ := addCount_inside iov.size count
    cases counting.symm.trans counts
    obtain ⟨total, written⟩ := ih (by omega) others top success
    -- The count is beside the vectors, so they are read as they were before.
    have unchanged : gather stored rest = gather data rest := by
      exact List.flatMap_congr fun other mem => storeWord32_apart same (others other mem)
    refine ⟨?_, ?_⟩
    · rw [total, word, List.map_cons, List.sum_cons, UInt32.ofNat_add, UInt32.add_assoc]
    · rw [written, unchanged]
      simp only [gather, List.flatMap_cons, List.append_assoc]
      split <;> split <;> simp

/-- Only nothing can be written to the input. -/
theorem writeVectors_stdin {vectors : List IoVector} (stack : context.stack = frame :: callers)
    (success : (interpret (answerHost crypto run)
      (writeVectors .stdin nwritten vectors data)).Returns context
      (.wasi .success, after) mid) : vectors = [] := by
  cases vectors with
  | nil => rfl
  | cons iov rest =>
    obtain ⟨_, _, -, -, -, writable⟩ := writeVectors_cons count stack success
    exact absurd rfl writable

/-- One vector is filled, and counted. -/
theorem readVectors_cons {iov : IoVector} {rest : List IoVector} (inside : iov.Inside data)
    (beside : Apart iov.address iov.size nwritten 4)
    (available : frame.stdinOffset + iov.size ≤ frame.stdin.length)
    (stack : context.stack = frame :: callers)
    (success : (interpret (answerHost crypto run)
      (readVectors descriptor nwritten (iov :: rest) data)).Returns context
      (.wasi .success, after) mid) :
    ∃ stored moved, (interpret (answerHost crypto run)
        (readVectors descriptor nwritten rest stored)).Returns moved
        (.wasi .success, after) mid ∧
      moved.stack = { frame with stdinOffset := frame.stdinOffset + iov.size } :: callers ∧
      stored.length = data.length ∧
      wordAt stored nwritten = wordAt data nwritten + UInt32.ofNat iov.size ∧
      slice stored iov.address iov.size = slice frame.stdin frame.stdinOffset iov.size ∧
      ∀ start size, Apart start size nwritten 4 → Apart start size iov.address iov.size →
        slice stored start size = slice data start size := by
  have filled : (slice frame.stdin frame.stdinOffset iov.size).length = iov.size :=
    length_slice available
  have fits : iov.address + (slice frame.stdin frame.stdinOffset iov.size).length ≤
      data.length := by rwa [filled]
  have copying := copyTo_inside fits
  have width := length_patch fits
  have kept : wordAt (patch data iov.address (slice frame.stdin frame.stdinOffset iov.size))
      nwritten = wordAt data nwritten := by
    rw [wordAt, slice_patch_of_apart fits (by rwa [filled]), wordAt]
  obtain ⟨stored, counting, widthStored, word, same⟩ := addCount_inside iov.size
    (show nwritten + 4 ≤ _ by rwa [width])
  rw [readVectors, interpret_bind, Vm.call, interpret_perform]
    at success
  obtain ⟨⟨error, bytes⟩, moved, reads, success⟩ := returns_bind.mp success
  obtain ⟨top, stackMoved, answered, failed⟩ := read_returns stack reads
  have worked : error.failed = false := by
    cases fails : error.failed with
    | false => rfl
    | true =>
      simp only [fails, if_true] at success
      cases (returns_pure.mp success).1
  rw [worked] at failed
  cases descriptor with
  | stdout => cases failed
  | stderr => cases failed
  | stdin =>
    rw [read_eq available] at answered
    obtain ⟨rfl, rfl⟩ := Prod.mk.inj answered
    simp only [worked, Bool.false_eq_true, if_false] at success
    rw [touch_bind copying, touch_bind counting] at success
    refine ⟨stored, moved, success, stackMoved, widthStored.trans width, by rw [word, kept], ?_,
      ?_⟩
    · have copied := slice_patch fits
      rw [filled] at copied
      rw [storeWord32_apart same beside, copied]
    · intro start size apartCount apartVector
      rw [storeWord32_apart same apartCount, slice_patch_of_apart fits]
      rw [filled, Apart]
      rw [Apart] at apartVector
      omega

/-- A successful loop over vectors apart from each other and from the count fills all of them, if so
much is left of the input, and adds their sizes. -/
theorem readVectors_success {vectors : List IoVector} (inside : ∀ iov ∈ vectors, iov.Inside data)
    (beside : ∀ iov ∈ vectors, Apart iov.address iov.size nwritten 4)
    (distinct : vectors.Pairwise fun iov other => Apart iov.address iov.size other.address
      other.size)
    (available : frame.stdinOffset + (vectors.map IoVector.size).sum ≤ frame.stdin.length)
    (stack : context.stack = frame :: callers)
    (success : (interpret (answerHost crypto run)
      (readVectors descriptor nwritten vectors data)).Returns context
      (.wasi .success, after) mid) :
    wordAt after nwritten =
        wordAt data nwritten + UInt32.ofNat (vectors.map IoVector.size).sum ∧
      mid.stack = { frame with
        stdinOffset := frame.stdinOffset + (vectors.map IoVector.size).sum } :: callers ∧
      gather after vectors =
        slice frame.stdin frame.stdinOffset (vectors.map IoVector.size).sum ∧
      ∀ start size, Apart start size nwritten 4 →
        (∀ iov ∈ vectors, Apart start size iov.address iov.size) →
          slice after start size = slice data start size := by
  induction vectors generalizing data frame context with
  | nil =>
    obtain ⟨same, rfl⟩ := returns_pure.mp success
    cases same
    simp [gather, slice_zero, stack]
  | cons iov rest ih =>
    obtain ⟨firstInside, othersInside⟩ := List.forall_mem_cons.mp inside
    obtain ⟨firstBeside, othersBeside⟩ := List.forall_mem_cons.mp beside
    obtain ⟨firstDistinct, othersDistinct⟩ := List.pairwise_cons.mp distinct
    rw [List.map_cons, List.sum_cons] at available ⊢
    obtain ⟨stored, advanced, success, top, width, word, filled, same⟩ := readVectors_cons count
      firstInside firstBeside (by omega) stack success
    have insideStored : ∀ other ∈ rest, other.Inside stored := fun other mem => by
      rw [IoVector.Inside, width]
      exact othersInside other mem
    obtain ⟨total, moved, gathered, kept⟩ := ih (by omega) insideStored othersBeside
      othersDistinct (by simpa only [Nat.add_assoc] using available) top success
    refine ⟨?_, ?_, ?_, fun start size apartCount apartVectors => ?_⟩
    · rw [total, word, UInt32.ofNat_add, UInt32.add_assoc]
    · rw [moved]
      simp only [Nat.add_assoc]
    · -- Later vectors do not overwrite this one.
      have first : slice after iov.address iov.size =
          slice frame.stdin frame.stdinOffset iov.size :=
        (kept _ _ firstBeside firstDistinct).trans filled
      rw [slice_add, ← first, ← gathered]
      rfl
    · obtain ⟨apartFirst, apartOthers⟩ := List.forall_mem_cons.mp apartVectors
      rw [kept start size apartCount apartOthers, same start size apartCount apartFirst]

end

/-- Vectors and a count are found only if they lie in the memory. -/
theorem vectorsAndCount_found {iovs iovsLen nwritten : UInt32} {found : Bytes × List IoVector × Nat}
    (success : vectorsAndCount (some data) iovs iovsLen nwritten = .ok (some found)) :
    nwritten.toNat + 4 ≤ data.length ∧ Described data iovs.toNat iovsLen.toNat ∧
      found = (data, vectorsAt data iovsLen.toNat iovs.toNat, nwritten.toNat) := by
  obtain ⟨result, made, success⟩ := bind_eq_ok.mp success
  cases result with
  | error error => cases success
  | ok vectors =>
    obtain ⟨described, rfl⟩ := described_of_makeIovs made
    cases pointer : nativePointer (some data) nwritten 4 with
    | none =>
      rw [pointer] at success
      cases success
    | some address =>
      obtain ⟨inside, rfl⟩ := nativePointer_eq_some_iff.mp pointer
      rw [pointer] at success
      cases success
      exact ⟨inside, described, rfl⟩

end Vectors

/-- The bytes gathered are as many as the vectors say. -/
theorem length_gather {data : Bytes} {vectors : List IoVector}
    (inside : ∀ iov ∈ vectors, iov.Inside data) :
    (gather data vectors).length = (vectors.map IoVector.size).sum := by
  rw [gather, List.length_flatMap]
  exact congrArg List.sum (List.map_congr_left fun iov mem => length_slice (inside iov mem))

namespace Exchange

/-- A call that appends what it writes, moves the input by what it delivers, and counts the bytes of
both. -/
structure Exact (exchange : Exchange crypto run) (moved : Nat) : Prop where
  after : exchange.after = { exchange.before with
    stdout := exchange.before.stdout ++ exchange.written .stdout
    stderr := exchange.before.stderr ++ exchange.written .stderr
    stdinOffset := exchange.before.stdinOffset + moved }
  delivered : exchange.delivered = slice exchange.before.stdin exchange.before.stdinOffset moved
  counts : exchange.counted = exchange.transferred
  remaining : exchange.call.direction = .input →
    exchange.before.stdinOffset + exchange.counted ≤ exchange.before.stdin.length

variable {exchange : Exchange crypto run}

/-- A count that does not wrap is the size. -/
theorem counted_eq_size (countable : exchange.call.size < 2 ^ 32)
    (total : wordAt exchange.data exchange.call.nwritten.toNat =
      0 + UInt32.ofNat exchange.call.size) : exchange.counted = exchange.call.size := by
  rw [counted, total, UInt32.zero_add, UInt32.toNat_ofNat', Nat.mod_eq_of_lt countable]

/-- A fair write is exact. -/
theorem exact_of_output (output : exchange.call.direction = .output)
    (fair : Fair exchange.call exchange.before) : exchange.Exact 0 := by
  obtain ⟨context, mid, callers, body, stack, left, resolved, served⟩ := exchange.succeeded
  simp only [Call.function, output, resolve] at resolved
  obtain ⟨_, located, made⟩ := map_eq_ok.mp resolved
  obtain ⟨_, rfl, rfl⟩ := Option.map_eq_some_iff.mp made
  obtain ⟨count, described, rfl⟩ := vectorsAndCount_found located
  have success := returns_onData.mp served
  obtain ⟨total, top⟩ := writeVectors_success count fair.beside stack success
  have final := (List.cons.inj (left.symm.trans top)).1
  rw [fair.clear output] at total
  have length : (gather exchange.call.data exchange.call.vectors).length = exchange.call.size :=
    length_gather described.buffers
  refine ⟨?_, ?_, ?_, ?_⟩
  · rw [final]
    simp only [written, output, Call.vectors, Nat.add_zero]
  · simp only [delivered, output, slice_zero]
  · rw [counted_eq_size fair.countable total, ← length]
    simp only [transferred, output, final]
    cases descriptor : writtenDescriptor exchange.call.fd with
    | stdin =>
      rw [descriptor] at success
      have empty : exchange.call.vectors = [] := writeVectors_stdin count stack success
      simp [empty, gather]
    | stdout => simp [Call.vectors]
    | stderr => simp [Call.vectors]
  · rw [output]
    rintro ⟨⟩

/-- A fair read is exact. -/
theorem exact_of_input (input : exchange.call.direction = .input)
    (fair : Fair exchange.call exchange.before) : exchange.Exact exchange.call.size := by
  obtain ⟨context, mid, callers, body, stack, left, resolved, served⟩ := exchange.succeeded
  simp only [Call.function, input, resolve] at resolved
  obtain ⟨_, located, made⟩ := map_eq_ok.mp resolved
  obtain ⟨_, rfl, rfl⟩ := Option.map_eq_some_iff.mp made
  obtain ⟨count, described, rfl⟩ := vectorsAndCount_found located
  have success := returns_onData.mp served
  obtain ⟨cleared, clearing, width, word, -⟩ := storeWord32_inside 0 count
  rw [wasiFdRead, touch_bind clearing] at success
  have inside : ∀ iov ∈ exchange.call.vectors, iov.Inside cleared := fun iov mem => by
    rw [IoVector.Inside, width]
    exact described.buffers iov mem
  obtain ⟨total, top, gathered, -⟩ := readVectors_success (by omega) inside fair.beside
    (fair.distinct input) (fair.available input) stack success
  have final := (List.cons.inj (left.symm.trans top)).1
  rw [wordAt_eq_of_slice word] at total
  have counted := counted_eq_size fair.countable total
  have length : (gather exchange.data exchange.call.vectors).length = exchange.call.size := by
    rw [gathered]
    exact length_slice (fair.available input)
  refine ⟨?_, ?_, ?_, ?_⟩
  · rw [final]
    simp [written, input, Call.size, Call.vectors]
  · simp only [delivered, input]
    rw [counted, ← length, List.take_length, length]
    exact gathered
  · rw [counted]
    simp [transferred, input, final, Call.size, Call.vectors]
  · rw [counted]
    exact fair.available

/-- Every fair call is exact. -/
theorem exact_of_fair (fair : Fair exchange.call exchange.before) :
    ∃ moved, exchange.Exact moved := by
  cases direction : exchange.call.direction with
  | input => exact ⟨_, exact_of_input direction fair⟩
  | output => exact ⟨_, exact_of_output direction fair⟩

end Exchange

/-! Whole sessions -/

theorem Session.single (exchange : Exchange crypto run) :
    Session exchange.before [exchange] exchange.after := by
  have session : Session exchange.before ([] ++ [exchange]) exchange.after := .snoc .nil
  exact session

/-- No fair call changes the input. -/
theorem Session.stdin_eq {start frame : StackFrame} {exchanges : List (Exchange crypto run)}
    (session : Session start exchanges frame)
    (fair : ∀ exchange ∈ exchanges, Fair exchange.call exchange.before) :
    frame.stdin = start.stdin := by
  induction session with
  | nil => rfl
  | @snoc exchanges exchange session ih =>
    obtain ⟨earlier, last⟩ := List.forall_mem_append.mp fair
    obtain ⟨moved, step⟩ := Exchange.exact_of_fair (last exchange (List.mem_singleton_self _))
    rw [step.after]
    exact ih earlier

/-- A program whose calls are fair finds all counts right, is given its input once and in order, and
leaves behind what it wrote, in order. -/
theorem streams_orderly {programId : Account} {arguments : List Bytes} {stdin : Bytes}
    {exchanges : List (Exchange crypto run)} {frame : StackFrame}
    (session : Session ⟨programId, arguments, stdin, [], [], 0⟩ exchanges frame)
    (fair : ∀ exchange ∈ exchanges, Fair exchange.call exchange.before) :
    Orderly stdin exchanges frame := by
  induction session with
  | nil => exact ⟨by simp, by simp, by simp, rfl, rfl⟩
  | @snoc exchanges exchange session ih =>
    obtain ⟨earlier, last⟩ := List.forall_mem_append.mp fair
    obtain ⟨moved, step⟩ := Exchange.exact_of_fair (last exchange (List.mem_singleton_self _))
    have orderly := ih earlier
    have same : exchange.before.stdin = stdin := session.stdin_eq earlier
    refine ⟨?_, ?_, ?_, ?_, ?_⟩
    · exact List.forall_mem_append.mpr ⟨orderly.counts, List.forall_mem_singleton.mpr step.counts⟩
    · rw [List.flatMap_append, orderly.input, List.flatMap_singleton, step.delivered, step.after,
        same, List.take_add]
      rfl
    · refine List.forall_mem_append.mpr ⟨orderly.exhausted, List.forall_mem_singleton.mpr ?_⟩
      intro input exhausted
      have remaining := step.remaining input
      rw [same] at remaining
      omega
    · rw [List.flatMap_append, ← orderly.output, List.flatMap_singleton, step.after]
    · rw [List.flatMap_append, ← orderly.errors, List.flatMap_singleton, step.after]

/-- A frame as it is pushed, with some input. -/
def pushed (stdin : Bytes) : StackFrame := ⟨SizedBytes.zero 33, [], stdin, [], [], 0⟩

/-- A context with a frame on its stack and a thousand ticks, of which some are used. -/
def inFrame (ticks : UInt64) (frame : StackFrame) : Context :=
  { usedTicks ticks with stack := [frame] }

/-- The rest of a memory of one page behind its first vector. -/
def empty : Bytes := List.replicate 65522 0

/-- Calls of a context without other programs. -/
abbrev PlainExchange := Exchange Env.plain.crypto (runProgram .plain)

/-- A call with the vector of `oneVector` is fair if its count is zero and so much is left. -/
theorem fair_oneVector {direction : Direction} {fd : UInt32} {bytes : Bytes} {frame : StackFrame}
    (available : direction = .input → frame.stdinOffset + 2 ≤ frame.stdin.length) :
    Fair ⟨direction, fd, 0, 1, 8, oneVector 0 bytes⟩ frame := by
  have vectors : Call.vectors ⟨direction, fd, 0, 1, 8, oneVector 0 bytes⟩ = [⟨12, 2⟩] := rfl
  have size : Call.size ⟨direction, fd, 0, 1, 8, oneVector 0 bytes⟩ = 2 := rfl
  refine ⟨?_, ?_, fun _ => rfl, fun _ => ?_, ?_⟩
  · rw [size]
    decide
  · rw [vectors]
    exact List.forall_mem_singleton.mpr (.inr (Nat.le_refl 12))
  · rw [vectors]
    exact List.pairwise_singleton _ _
  · rwa [size]

section Samples

variable {bytes filled : Bytes} {frame moved : StackFrame}

/-- The array, the vector and the count lie in the memory. -/
theorem resolve_oneVector (count first second : UInt8) (rest : Bytes) :
    resolve (some (oneVector count ([first, second] ++ rest))) (.wasiFdRead 0 0 1 8) =
        .ok (some (onData (wasiFdRead 0 8 [⟨12, 2⟩] (oneVector count ([first, second] ++ rest))))) ∧
      resolve (some (oneVector count ([first, second] ++ rest))) (.wasiFdWrite 1 0 1 8) =
        .ok (some (onData (writeVectors .stdout 8 [⟨12, 2⟩]
          (oneVector count ([first, second] ++ rest))))) :=
  ⟨rfl, rfl⟩

/-- The vector is written, and counted. -/
theorem oneVector_written {count total : UInt8} (rest : Bytes) (frame : StackFrame)
    (counted : addCount (oneVector count ([104, 105] ++ rest)) 8 2 =
      .ok (oneVector total ([104, 105] ++ rest))) :
    (interpret (answerHost Env.plain.crypto (runProgram .plain)) (onData
        (writeVectors .stdout 8 [⟨12, 2⟩] (oneVector count ([104, 105] ++ rest))))).Returns
      (inFrame 0 frame) (.wasi .success, some (oneVector total ([104, 105] ++ rest)))
      (inFrame 1 { frame with stdout := frame.stdout ++ [104, 105] }) := by
  simp only [writeVectors, counted]
  rfl

/-- The vector is filled with what is read, and counted. -/
theorem oneVector_filled (rest : Bytes)
    (reads : (Context.read .stdin 2).Returns (inFrame 0 frame) (.controller .ok, bytes)
      (inFrame 1 moved))
    (copied : copyTo (oneVector 0 ([0, 0] ++ rest)) 12 bytes = .ok (oneVector 0 filled)) :
    (interpret (answerHost Env.plain.crypto (runProgram .plain))
      (onData (wasiFdRead 0 8 [⟨12, 2⟩] (oneVector 0 ([0, 0] ++ rest))))).Returns
      (inFrame 0 frame) (.wasi .success, some (oneVector 2 filled)) (inFrame 1 moved) := by
  have cleared : storeWord32 (oneVector 0 ([0, 0] ++ rest)) 8 0 =
      .ok (oneVector 0 ([0, 0] ++ rest)) := rfl
  rw [returns_onData, wasiFdRead, touch_bind cleared, readVectors,
    interpret_bind, Vm.call, interpret_perform]
  refine returns_bind.mpr ⟨(.controller .ok, bytes), inFrame 1 moved, reads, ?_⟩
  simp only [copied]
  rw [if_neg (by decide), touch_bind rfl, touch_bind (addCount_oneVector filled).1]
  rfl

/-- Two bytes fill the vector, and none leave it as it is. -/
theorem copyTo_oneVector (rest : Bytes) :
    copyTo (oneVector 0 ([0, 0] ++ rest)) 12 [104, 105] =
        .ok (oneVector 0 ([104, 105] ++ rest)) ∧
      copyTo (oneVector 0 ([0, 0] ++ rest)) 12 [] = .ok (oneVector 0 ([0, 0] ++ rest)) :=
  ⟨rfl, rfl⟩

end Samples

def someRead : PlainExchange where
  call := ⟨.input, 0, 0, 1, 8, oneVector 0 ([0, 0] ++ empty)⟩
  before := pushed [104, 105, 33]
  data := oneVector 2 ([104, 105] ++ empty)
  after := { pushed [104, 105, 33] with stdinOffset := 2 }
  succeeded := by
    have reads : (Context.read .stdin 2).Returns (inFrame 0 (pushed [104, 105, 33]))
        (.controller .ok, [104, 105])
        (inFrame 1 { pushed [104, 105, 33] with stdinOffset := 2 }) := rfl
    exact ⟨_, _, _, _, rfl, rfl, (resolve_oneVector 0 0 0 empty).1,
      oneVector_filled empty reads (copyTo_oneVector empty).1⟩

def someWrite : PlainExchange where
  call := ⟨.output, 1, 0, 1, 8, oneVector 0 ([104, 105] ++ empty)⟩
  before := { pushed [104, 105, 33] with stdinOffset := 2 }
  data := oneVector 2 ([104, 105] ++ empty)
  after := { pushed [104, 105, 33] with stdinOffset := 2, stdout := [104, 105] }
  succeeded := ⟨_, _, _, _, rfl, rfl, (resolve_oneVector 0 104 105 empty).2,
    oneVector_written empty _ (addCount_oneVector _).1⟩

/-- A read and a write of the session are in order. -/
theorem someCalls_orderly : Orderly [104, 105, 33] [someRead, someWrite] someWrite.after := by
  have session : Session (pushed [104, 105, 33]) ([someRead] ++ [someWrite]) someWrite.after :=
    .snoc (.single someRead)
  refine streams_orderly session (List.forall_mem_cons.mpr ⟨?_, List.forall_mem_singleton.mpr ?_⟩)
  · exact fair_oneVector fun _ => by decide
  · exact fair_oneVector nofun

/-- A write with a count that is not zero. -/
def dirtyWrite : PlainExchange where
  call := ⟨.output, 1, 0, 1, 8, oneVector 5 ([104, 105] ++ empty)⟩
  before := pushed []
  data := oneVector 7 ([104, 105] ++ empty)
  after := { pushed [] with stdout := [104, 105] }
  succeeded := ⟨_, _, _, _, rfl, rfl, (resolve_oneVector 5 104 105 empty).2,
    oneVector_written empty _ (addCount_oneVector _).2⟩

/-- A read with nothing left of the input. -/
def exhaustedRead : PlainExchange where
  call := ⟨.input, 0, 0, 1, 8, oneVector 0 ([0, 0] ++ empty)⟩
  before := pushed []
  data := oneVector 2 ([0, 0] ++ empty)
  after := pushed []
  succeeded := by
    have reads : (Context.read .stdin 2).Returns (inFrame 0 (pushed [])) (.controller .ok, [])
        (inFrame 1 (pushed [])) := rfl
    exact ⟨_, _, _, _, rfl, rfl, (resolve_oneVector 0 0 0 empty).1,
      oneVector_filled empty reads (copyTo_oneVector empty).2⟩

/-- A count cell that is not zero is added to, and a read at the end counts what it does not
deliver. -/
theorem bytes_not_counted :
    (Session (pushed []) [dirtyWrite] dirtyWrite.after ∧ dirtyWrite.counted = 7 ∧
      dirtyWrite.transferred = 2 ∧ ¬ Orderly [] [dirtyWrite] dirtyWrite.after) ∧
    Session (pushed []) [exhaustedRead] exhaustedRead.after ∧ exhaustedRead.counted = 2 ∧
      exhaustedRead.transferred = 0 ∧ ¬ Orderly [] [exhaustedRead] exhaustedRead.after := by
  refine ⟨⟨.single dirtyWrite, rfl, rfl, fun orderly => ?_⟩,
    .single exhaustedRead, rfl, rfl, fun orderly => ?_⟩
  · exact absurd (orderly.counts dirtyWrite (List.mem_singleton_self _)) (by decide)
  · exact absurd (orderly.counts exhaustedRead (List.mem_singleton_self _)) (by decide)

end Stream

end Respublica.Controller
