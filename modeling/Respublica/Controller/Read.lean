import Respublica.Controller.LinkedChain

/-!
# Reading a program

`controller::read_program` runs a program on the head. The head is final, and writing to a
final delta throws, below functions that are `noexcept`. So a read comes back exactly when its
program stores nothing, and the database is the same afterwards in any case.

A `Reading` is what a program sees of a read: objects that do not change, its arguments and
input, and the ticks that are left. It answers every call but those that store, and the context
of a read answers as its reading does.
-/

namespace Respublica.Controller

open Foundation Effect Program Protocol StateDb Context Meter

/-- What a program sees when it is read. -/
structure Reading where
  objects : UInt32 → Bytes → Option Bytes
  arguments : List Bytes
  input : Bytes
  ticks : UInt64

namespace Reading

/-- A read of an account from its start. -/
def start (view : Bytes → Option Bytes) (account : Account) (input : ProgramInput)
    (ticks : UInt64) : Reading where
  objects := fun id key => view (makeCompoundKey (ObjectSpace.ofProgram account id) key)
  arguments := input.arguments
  input := input.stdin
  ticks := ticks

/-- Ticks are taken when there are so many. -/
def charge (reading : Reading) (ticks : UInt64) : Reading :=
  if reading.ticks < ticks then reading else { reading with ticks := reading.ticks - ticks }

/-- What taking ticks answers. -/
def chargeCode (reading : Reading) (ticks : UInt64) : ErrorCode :=
  if reading.ticks < ticks then .controller .computeBandwidthLimitExceeded else .controller .ok

theorem charge_objects (reading : Reading) (ticks : UInt64) :
    (reading.charge ticks).objects = reading.objects := by
  rw [charge]
  split <;> rfl

theorem charge_arguments (reading : Reading) (ticks : UInt64) :
    (reading.charge ticks).arguments = reading.arguments := by
  rw [charge]
  split <;> rfl

theorem charge_input (reading : Reading) (ticks : UInt64) :
    (reading.charge ticks).input = reading.input := by
  rw [charge]
  split <;> rfl

/-- Output is taken, and not seen again. -/
def writeCode : FileDescriptor → ErrorCode
  | .stdin => .controller .badFileDescriptor
  | _ => .controller .ok

def read (reading : Reading) (size : Nat) : FileDescriptor → (ErrorCode × Bytes) × Reading
  | .stdin => ((.controller .ok, reading.input.take size),
      { reading.charge 1 with input := reading.input.drop size })
  | _ => ((.controller .badFileDescriptor, []), reading.charge 1)

/-- The answers to a module. Nothing can be stored. -/
def answerHost : (call : HostCall) → Reading → Option (call.Response × Reading)
  | .arguments, reading => some (reading.arguments, reading.charge 1)
  | .write descriptor _, reading => some (writeCode descriptor, reading.charge 1)
  | .read descriptor size, reading => some (reading.read size descriptor)
  | .getCaller, reading => some ([], reading.charge 1)
  | .getObject id key, reading => some ((reading.objects id key).getD [], reading.charge 1)
  | .putObject _ _ _, _ => none
  | .checkAuthority _, reading => some (.error (.controller .readOnlyContext), reading.charge 1)
  | .getMeterTicks, reading => some (reading.ticks, reading)
  | .useMeterTicks ticks, reading => some (reading.chargeCode ticks, reading.charge ticks)

/-- The answers to a native program that runs no other program. -/
def answerSystem : (call : SystemCall) → Reading → Option (call.Response × Reading)
  | .arguments, reading => some (reading.arguments, reading.charge 1)
  | .write descriptor _, reading => some (writeCode descriptor, reading.charge 1)
  | .read descriptor size, reading => some (reading.read size descriptor)
  | .getObject id key, reading => some ((reading.objects id key).getD [], reading.charge 1)
  | .getNextObject _ _, reading => some (([], []), reading.charge 1)
  | .getPrevObject _ _, reading => some (([], []), reading.charge 1)
  | .putObject _ _ _, _ => none
  | .removeObject _ _, _ => none
  | .checkAuthority _, reading => some (.error (.controller .readOnlyContext), reading.charge 1)
  | .getCaller, reading => some ([], reading.charge 1)
  | .callProgram _ _ _, _ => none

end Reading

/-! What the coin program can answer to a read. -/

namespace Reading

open Coin

/-- A stored word has eight bytes, or there is none. -/
def WellSized (object : Option Bytes) : Prop :=
  (object.getD []).length = 0 ∨ (object.getD []).length = 8

instance (object : Option Bytes) : Decidable (WellSized object) := by
  unfold WellSized
  infer_instance

/-- The word an object holds. -/
def wordAt (object : Option Bytes) : UInt64 :=
  if (object.getD []).length = 0 then 0 else loadWord (object.getD [])

/-- The requests that store nothing: a mint is refused when the supply would overflow, a
transfer or burn because nobody has authority in a read. -/
def Answerable (objects : UInt32 → Bytes → Option Bytes) : Request → Prop
  | .totalSupply => WellSized (objects supplyId [])
  | .balanceOf account => WellSized (objects balanceId account.1)
  | .mint _ value => WellSized (objects supplyId []) ∧
        maxWord - value < wordAt (objects supplyId [])
  | _ => True

/-- The request that an input is for the coin program. -/
def requested (locals : Locals) (reading : Reading) : Option Request :=
  ((readRequest locals).evaluate answerSystem reading).map Prod.fst

theorem evaluate_call (request : SystemCall) (reading : Reading) :
    (call request).evaluate answerSystem reading = answerSystem request reading :=
  Interaction.evaluate_perform request reading

/-- Reading into a buffer goes well and leaves the objects. -/
theorem evaluate_readOver (buffer : Bytes) (reading : Reading) :
    ∃ bytes left, (readOver buffer).evaluate answerSystem reading = some (bytes, left) ∧
      left.objects = reading.objects := by
  rw [readOver, Interaction.evaluate_bind, evaluate_call]
  exact ⟨_, _, rfl, charge_objects reading 1⟩

/-- An account is read from the input. -/
theorem evaluate_readAccount (local_ : Account) (reading : Reading) :
    ∃ account left, (readAccount local_).evaluate answerSystem reading = some (account, left) ∧
      left.objects = reading.objects := by
  obtain ⟨bytes, left, evaluated, same⟩ := evaluate_readOver local_.1 reading
  rw [readAccount, Interaction.evaluate_bind, evaluated]
  exact ⟨_, left, rfl, same⟩

/-- A value is read from the input. -/
theorem evaluate_readValue (reading : Reading) :
    ∃ value left, readValue.evaluate answerSystem reading = some (value, left) ∧
      left.objects = reading.objects := by
  obtain ⟨bytes, left, evaluated, same⟩ := evaluate_readOver (storeWord 0) reading
  rw [readValue, Interaction.evaluate_bind, evaluated]
  exact ⟨_, left, rfl, same⟩

/-- Every input is a request. -/
theorem evaluate_readRequest (locals : Locals) (reading : Reading) :
    ∃ request left, (readRequest locals).evaluate answerSystem reading = some (request, left) ∧
      left.objects = reading.objects := by
  obtain ⟨bytes, first, evaluated, same⟩ := evaluate_readOver (littleEndian 4 0) reading
  have instruction : readInstruction.evaluate answerSystem reading =
      some (fromLittleEndian (bytes.take 4), first) := by
    rw [readInstruction, Interaction.evaluate_bind, evaluated]
    rfl
  rw [readRequest, Interaction.evaluate_bind, instruction, Option.bind_some]
  simp only
  split
  all_goals try exact ⟨_, first, rfl, same⟩
  · obtain ⟨account, left, read, kept⟩ := evaluate_readAccount locals.account first
    rw [Interaction.evaluate_bind, read]
    exact ⟨_, left, rfl, kept.trans same⟩
  · obtain ⟨source, second, readSource, keptSource⟩ := evaluate_readAccount locals.source first
    obtain ⟨target, third, readTarget, keptTarget⟩ := evaluate_readAccount locals.target second
    obtain ⟨value, left, readLast, keptLast⟩ := evaluate_readValue third
    rw [Interaction.evaluate_bind, readSource, Option.bind_some, Interaction.evaluate_bind,
      readTarget, Option.bind_some, Interaction.evaluate_bind, readLast]
    exact ⟨_, left, rfl, keptLast.trans (keptTarget.trans (keptSource.trans same))⟩
  · obtain ⟨target, second, readTarget, keptTarget⟩ := evaluate_readAccount locals.target first
    obtain ⟨value, left, readLast, keptLast⟩ := evaluate_readValue second
    rw [Interaction.evaluate_bind, readTarget, Option.bind_some, Interaction.evaluate_bind,
      readLast]
    exact ⟨_, left, rfl, keptLast.trans (keptTarget.trans same)⟩
  · obtain ⟨source, second, readSource, keptSource⟩ := evaluate_readAccount locals.source first
    obtain ⟨value, left, readLast, keptLast⟩ := evaluate_readValue second
    rw [Interaction.evaluate_bind, readSource, Option.bind_some, Interaction.evaluate_bind,
      readLast]
    exact ⟨_, left, rfl, keptLast.trans (keptSource.trans same)⟩

/-- A stored word is read when it is well sized. -/
theorem evaluate_storedWord (id : UInt32) (key : Bytes) (reading : Reading) :
    (storedWord id key).evaluate answerSystem reading =
      if WellSized (reading.objects id key) then
        some (wordAt (reading.objects id key), reading.charge 1)
      else none := by
  rw [storedWord, Interaction.evaluate_bind, evaluate_call, answerSystem, Option.bind_some]
  by_cases empty : ((reading.objects id key).getD []).length = 0
  · simp [WellSized, wordAt, empty]
  · by_cases word : ((reading.objects id key).getD []).length = 8
    · simp [WellSized, wordAt, word]
    · simp [WellSized, empty, word]

/-- Writing out does not stop. -/
theorem evaluate_writeOut (bytes : Bytes) (reading : Reading) :
    ((writeOut bytes).evaluate answerSystem reading).isSome = true := by
  rw [writeOut, Interaction.evaluate_bind, evaluate_call]
  rfl

/-- Storing stops. -/
theorem evaluate_storeObject (id : UInt32) (key : Bytes) (word : UInt64) (reading : Reading) :
    (storeObject id key word).evaluate answerSystem reading = none := by
  rw [storeObject, Interaction.evaluate_bind, evaluate_call]
  rfl

/-- Nobody has authority in a read. -/
theorem evaluate_permitted (source : Account) (reading : Reading) :
    (permitted source).evaluate answerSystem reading =
      some (false, (reading.charge 1).charge 1) := by
  have caller : source.1 ≠ [] := fun empty => by
    have sized := source.2
    rw [empty] at sized
    exact absurd sized (by decide)
  rw [permitted, Interaction.evaluate_bind, evaluate_call, answerSystem, Option.bind_some]
  simp only [if_neg caller]
  rw [Interaction.evaluate_bind, evaluate_call]
  rfl

/-- What is guarded by authority is refused. -/
theorem evaluate_guarded (source : Account) (action : NativeProgram ErrorCode) (reading : Reading) :
    (Interaction.evaluate answerSystem (do
      if ← permitted source then action else pure (.program .unauthorized)) reading).isSome := by
  rw [Interaction.evaluate_bind, evaluate_permitted]
  rfl

/-- A query of a stored word is answered when the word is well sized. -/
theorem evaluate_query (id : UInt32) (key : Bytes) (reading : Reading) :
    (Interaction.evaluate answerSystem (do
      let word ← storedWord id key
      writeOut (storeWord word)) reading).isSome ↔ WellSized (reading.objects id key) := by
  rw [Interaction.evaluate_bind, evaluate_storedWord]
  by_cases sized : WellSized (reading.objects id key)
  · rw [if_pos sized, Option.bind_some]
    exact iff_of_true (evaluate_writeOut _ _) sized
  · simp [sized]

/-- A mint is refused, or it stores. -/
theorem evaluate_mint (target : Account) (value : UInt64) (reading : Reading) :
    ((mint target value).evaluate answerSystem reading).isSome ↔
      WellSized (reading.objects supplyId []) ∧
        maxWord - value < wordAt (reading.objects supplyId []) := by
  rw [mint, totalSupply, Interaction.evaluate_bind, evaluate_storedWord]
  by_cases sized : WellSized (reading.objects supplyId [])
  · rw [if_pos sized, Option.bind_some]
    by_cases overflows : maxWord - value < wordAt (reading.objects supplyId [])
    · simp [sized, overflows]
    · have stores (word : UInt64 × Reading) : Interaction.evaluate answerSystem (do
          storeObject supplyId [] (wordAt (reading.objects supplyId []) + value)
          storeObject balanceId target.1 (word.1 + value)
          pure (.program .ok : ErrorCode)) word.2 = none := by
        rw [Interaction.evaluate_bind, evaluate_storeObject]
        rfl
      simp only [if_neg overflows, Interaction.evaluate_bind (balanceOf target), stores]
      simp [overflows]
  · simp [sized]

/-- The coin program executes the answerable requests. -/
theorem evaluate_execute (request : Request) (reading : Reading) :
    ((execute request).evaluate answerSystem reading).isSome ↔
      Answerable reading.objects request := by
  cases request with
  | totalSupply => exact evaluate_query supplyId [] reading
  | balanceOf account => exact evaluate_query balanceId account.1 reading
  | mint target value => exact evaluate_mint target value reading
  | transfer source target value =>
    refine iff_of_true ?_ trivial
    rw [execute, transfer]
    split
    · rfl
    · exact evaluate_guarded source _ reading
  | burn source value => exact iff_of_true (evaluate_guarded source _ reading) trivial
  | unknown => exact iff_of_true rfl trivial
  | authorize => exact iff_of_true (evaluate_writeOut _ reading) trivial
  | name => exact iff_of_true (evaluate_writeOut _ reading) trivial
  | symbol => exact iff_of_true (evaluate_writeOut _ reading) trivial
  | decimals => exact iff_of_true (evaluate_writeOut _ reading) trivial

/-- The coin program comes to its end when what is requested is answerable. -/
theorem evaluate_coin (locals : Locals) (reading : Reading) :
    ((Coin.run locals).evaluate answerSystem reading).isSome ↔
      ∀ request ∈ requested locals reading, Answerable reading.objects request := by
  obtain ⟨request, left, evaluated, same⟩ := evaluate_readRequest locals reading
  rw [Coin.run, Interaction.evaluate_bind, evaluated, Option.bind_some, evaluate_execute, same,
    requested, evaluated]
  simp

end Reading

/-- A context for reading shows a reading to the program of its only frame. -/
structure Shows (heap : Heap) (head : Nat) (account : Account) (context : Context)
    (reading : Reading) : Prop where
  deltas : context.heap = heap
  stateNode : context.stateNode = head
  intent : context.intent = .readOnly
  session : context.meter.session = none
  ticks : context.meter.remaining.computeBandwidth = reading.ticks
  objects : ∀ id key, heap.get head (makeCompoundKey (ObjectSpace.ofProgram account id) key) =
    .ok (reading.objects id key)
  frame : ∃ frame, context.stack = [frame] ∧ frame.programId = account ∧
    frame.arguments = reading.arguments ∧ frame.stdin.drop frame.stdinOffset = reading.input

namespace Shows

variable {heap : Heap} {head : Nat} {account : Account} {context : Context} {reading : Reading}

section

variable (shown : Shows heap head account context reading)
include shown

/-- Taking ticks answers as the reading does. -/
theorem useMeterTicks (ticks : UInt64) :
    ∃ mid, (useMeterTicks ticks).Returns context (reading.chargeCode ticks) mid ∧
      Shows heap head account mid (reading.charge ticks) := by
  have inContext {code : ErrorCode} {meter : Meter}
      (used : (use computeBandwidth ticks).Returns context.meter code meter) :
      (Context.useMeterTicks ticks).Returns context code { context with meter := meter } :=
    Context.returns_onMeter.mpr ⟨meter, used, rfl⟩
  have used := use_unpaid computeBandwidth shown.session ticks
  have compares : computeBandwidth.tooMuch ticks
      (computeBandwidth.read context.meter.remaining) = decide (reading.ticks < ticks) := by
    rw [← shown.ticks]
    rfl
  rw [compares] at used
  rw [Reading.chargeCode, Reading.charge]
  by_cases short : reading.ticks < ticks
  · rw [if_pos (decide_eq_true short)] at used
    rw [if_pos short, if_pos short]
    exact ⟨context, inContext used, shown⟩
  · rw [if_neg (by simpa using short)] at used
    rw [if_neg short, if_neg short]
    refine ⟨_, inContext used, shown.deltas, shown.stateNode, shown.intent, shown.session, ?_,
      shown.objects, shown.frame⟩
    exact congrArg (· - ticks) shown.ticks

/-- A tick is charged. -/
theorem chargeCall :
    ∃ mid, chargeCall.Returns context () mid ∧
      Shows heap head account mid (reading.charge 1) := by
  obtain ⟨mid, used, shownAfter⟩ := shown.useMeterTicks 1
  exact ⟨mid, returns_bind.mpr ⟨_, _, used, returns_pure.mpr ⟨rfl, rfl⟩⟩, shownAfter⟩

/-- The frame on top is that of the program that is read. -/
theorem peekFrame :
    ∃ frame, peekFrame.Returns context frame context ∧ frame.programId = account ∧
      frame.arguments = reading.arguments ∧
      frame.stdin.drop frame.stdinOffset = reading.input := by
  obtain ⟨frame, stack, program, arguments, input⟩ := shown.frame
  refine ⟨frame, ?_, program, arguments, input⟩
  rw [Effect.Returns, Context.peekFrame, read_bind, stack]
  rfl

/-- A change of the frame that moves its input leaves the rest shown. -/
theorem updateFrame (change : StackFrame → StackFrame) (left : Bytes)
    (program : ∀ frame, (change frame).programId = frame.programId)
    (arguments : ∀ frame, (change frame).arguments = frame.arguments)
    (input : ∀ frame : StackFrame, frame.stdin.drop frame.stdinOffset = reading.input →
      (change frame).stdin.drop (change frame).stdinOffset = left) :
    ∃ mid, (updateFrame change).Returns context () mid ∧
      Shows heap head account mid { reading with input := left } := by
  refine ⟨_, returns_modify.mpr rfl, shown.deltas, shown.stateNode, shown.intent,
    shown.session, shown.ticks, shown.objects, ?_⟩
  obtain ⟨frame, stack, isProgram, hasArguments, hasInput⟩ := shown.frame
  exact ⟨change frame, by simp [stack], (program frame).trans isProgram,
    (arguments frame).trans hasArguments, input frame hasInput⟩

/-- The arguments are passed on. -/
theorem arguments :
    ∃ mid, arguments.Returns context reading.arguments mid ∧
      Shows heap head account mid (reading.charge 1) := by
  obtain ⟨mid, charged, shownAfter⟩ := shown.chargeCall
  obtain ⟨frame, peeked, -, given, -⟩ := shownAfter.peekFrame
  obtain ⟨only, stack, -⟩ := shown.frame
  refine ⟨mid, ?_, shownAfter⟩
  rw [Effect.Returns, Context.arguments, read_bind, if_neg (by simp [stack]),
    charged.bind_eq, peeked.bind_eq, given, Reading.charge_arguments]
  rfl

/-- Output is written without effect on the reading. -/
theorem write (descriptor : FileDescriptor)
    (buffer : Bytes) :
    ∃ mid, (write descriptor buffer).Returns context (Reading.writeCode descriptor)
        mid ∧ Shows heap head account mid (reading.charge 1) := by
  obtain ⟨charged, charges, shownCharged⟩ := shown.chargeCall
  obtain ⟨frame, peeked, -⟩ := shownCharged.peekFrame
  cases descriptor with
  | stdin =>
    refine ⟨charged, ?_, shownCharged⟩
    rw [Effect.Returns, Context.write, charges.bind_eq]
    rfl
  | stdout =>
    obtain ⟨mid, updated, shownAfter⟩ := shownCharged.updateFrame
      (fun frame => { frame with stdout := frame.stdout ++ buffer }) _ (fun _ => rfl)
        (fun _ => rfl) fun _ same => same
    refine ⟨mid, ?_, shownAfter⟩
    rw [Effect.Returns, Context.write, charges.bind_eq]
    exact (peeked.bind_eq _).trans (updated.bind_eq _)
  | stderr =>
    obtain ⟨mid, updated, shownAfter⟩ := shownCharged.updateFrame
      (fun frame => { frame with stderr := frame.stderr ++ buffer }) _ (fun _ => rfl)
        (fun _ => rfl) fun _ same => same
    refine ⟨mid, ?_, shownAfter⟩
    rw [Effect.Returns, Context.write, charges.bind_eq]
    exact (peeked.bind_eq _).trans (updated.bind_eq _)

/-- Input is read as the reading reads it. -/
theorem read (descriptor : FileDescriptor)
    (size : Nat) :
    ∃ mid, (read descriptor size).Returns context (reading.read size descriptor).1
        mid ∧ Shows heap head account mid (reading.read size descriptor).2 := by
  obtain ⟨charged, charges, shownCharged⟩ := shown.chargeCall
  obtain ⟨frame, peeked, -, -, input⟩ := shownCharged.peekFrame
  rw [Reading.charge_input] at input
  cases descriptor with
  | stdin =>
    obtain ⟨mid, updated, shownAfter⟩ := shownCharged.updateFrame
      (fun frame => { frame with
        stdinOffset := frame.stdinOffset + (reading.input.take size).length })
      (reading.input.drop size) (fun _ => rfl) (fun _ => rfl) fun frame same => by
        rw [Reading.charge_input] at same
        simp only [← List.drop_drop, same, List.length_take]
        rcases Nat.le_total size reading.input.length with short | long
        · rw [Nat.min_eq_left short]
        · rw [Nat.min_eq_right long, List.drop_length, List.drop_eq_nil_of_le long]
    refine ⟨mid, ?_, shownAfter⟩
    rw [Effect.Returns, Context.read, charges.bind_eq]
    refine (peeked.bind_eq _).trans ?_
    simp only [input]
    exact updated.bind_eq _
  | stdout => exact ⟨charged, charges.bind_eq _, shownCharged⟩
  | stderr => exact ⟨charged, charges.bind_eq _, shownCharged⟩

theorem createObjectSpace (id : UInt32) :
    (createObjectSpace id).Returns context (ObjectSpace.ofProgram account id) context := by
  obtain ⟨frame, peeked, rfl, -⟩ := shown.peekFrame
  exact peeked.bind_eq _

/-- The objects are those of the head. -/
theorem getObject (id : UInt32) (key : Bytes) :
    ∃ mid, (getObject id key).Returns context ((reading.objects id key).getD [])
        mid ∧ Shows heap head account mid (reading.charge 1) := by
  obtain ⟨mid, charged, shownAfter⟩ := shown.chargeCall
  have found : (getState (ObjectSpace.ofProgram account id) key).Returns mid
      (reading.objects id key) mid := by
    rw [Effect.Returns, getState, read_bind, shownAfter.deltas,
      shownAfter.stateNode, shown.objects id key]
    rfl
  refine ⟨mid, ?_, shownAfter⟩
  rw [Effect.Returns, Context.getObject, charged.bind_eq,
    (shownAfter.createObjectSpace id).bind_eq, found.bind_eq]
  rfl

theorem getNeighbour (id : UInt32)
    (key : Bytes) :
    ∃ mid, (getNeighbour id key).Returns context ([], []) mid ∧
      Shows heap head account mid (reading.charge 1) := by
  obtain ⟨mid, charged, shownAfter⟩ := shown.chargeCall
  refine ⟨mid, ?_, shownAfter⟩
  rw [Effect.Returns, Context.getNeighbour, charged.bind_eq,
    (shownAfter.createObjectSpace id).bind_eq]
  rfl

/-- A read has no caller. -/
theorem getCaller :
    ∃ mid, getCaller.Returns context [] mid ∧
      Shows heap head account mid (reading.charge 1) := by
  obtain ⟨mid, charged, shownAfter⟩ := shown.chargeCall
  obtain ⟨frame, stack, -⟩ := shownAfter.frame
  refine ⟨mid, ?_, shownAfter⟩
  rw [Effect.Returns, Context.getCaller, charged.bind_eq, read_bind, if_pos (by simp [stack])]
  rfl

/-- Nobody has authority in a read. -/
theorem checkAuthority (crypto : Crypto.Primitives) (run : Runner) (asked : Account) :
    ∃ mid, (checkAuthority crypto run asked).Returns context
        (.error (.controller .readOnlyContext)) mid ∧
      Shows heap head account mid (reading.charge 1) := by
  obtain ⟨mid, charged, shownAfter⟩ := shown.chargeCall
  refine ⟨mid, ?_, shownAfter⟩
  rw [Effect.Returns, Context.checkAuthority, charged.bind_eq, read_bind, if_pos shownAfter.intent]
  rfl

theorem getMeterTicks :
    Context.getMeterTicks.Returns context reading.ticks context := by
  rw [Effect.Returns, Context.getMeterTicks, read_bind, remainingComputeBandwidth,
    remainingOf, shown.session, ← shown.ticks]
  rfl

/-- An object is not changed when the change of the head does not return. -/
theorem not_completes_change (id : UInt32)
    (routine : ObjectSpace → Nat → Effect Fault Heap Int) {next : Int → Run ErrorCode}
    (stuck : ¬ (routine (ObjectSpace.ofProgram account id) head).Completes heap) :
    ¬ Effect.Completes (do
      Context.chargeCall
      let space ← Context.createObjectSpace id
      let size ← Effect.read >>= fun context =>
        onHeap (routine space context.stateNode)
      next size) context := by
  obtain ⟨mid, charged, shownAfter⟩ := shown.chargeCall
  rw [charged.completes_bind, (shownAfter.createObjectSpace id).completes_bind]
  refine not_completes_bind ?_
  rw [Effect.Returns.completes_bind (returns_read.mpr ⟨rfl, rfl⟩), onHeap,
    completes_within, shownAfter.deltas, shownAfter.stateNode]
  exact stuck

section

variable (isFinal : heap.final head = true)
include isFinal

/-- A put does not complete. -/
theorem putObject (id : UInt32) (key value : Bytes) :
    ¬ (putObject id key value).Completes context := by
  refine shown.not_completes_change id
    (fun space node => Heap.put node (makeCompoundKey space key) value) ?_
  rintro ⟨size, after, stored⟩
  exact absurd isFinal (Bool.not_eq_true _ ▸ (Heap.returns_put.mp stored).1)

/-- Nor does a removal. -/
theorem removeObject (id : UInt32) (key : Bytes) :
    ¬ (removeObject id key).Completes context := by
  refine shown.not_completes_change id
    (fun space node => Heap.remove node (makeCompoundKey space key)) ?_
  rintro ⟨size, after, removed⟩
  exact absurd isFinal (Bool.not_eq_true _ ▸ (Heap.returns_remove.mp removed).1)

variable {crypto : Crypto.Primitives} {run : Runner}

/-- A module is answered as its reading answers, and where that does not the host faults. -/
theorem completes_module (program : UserProgram) :
    (Interaction.interpret (answerHost crypto run) program).Completes context ↔
      (program.evaluate Reading.answerHost reading).isSome := by
  refine program.issues_any.completes_iff ?_ ?_ shown
  · intro request _ state view response left shown given
    cases request with
    | putObject id key value => cases given
    | arguments => cases given; exact shown.arguments
    | write descriptor buffer => cases given; exact shown.write descriptor buffer
    | read descriptor size =>
      have answered := shown.read descriptor size
      rw [Option.some.inj given] at answered
      exact answered
    | getCaller => cases given; exact shown.getCaller
    | getObject id key => cases given; exact shown.getObject id key
    | checkAuthority asked => cases given; exact shown.checkAuthority crypto run asked
    | getMeterTicks => cases given; exact ⟨state, shown.getMeterTicks, shown⟩
    | useMeterTicks ticks => cases given; exact shown.useMeterTicks ticks
  · intro request _ state view shown given
    cases request with
    | putObject id key value => exact shown.putObject isFinal id key value
    | _ => cases given

/-- The same for the coin program, which runs no other program. -/
theorem completes_coin (locals : Coin.Locals) :
    (Interaction.interpret (answerSystem crypto run) (Coin.run locals)).Completes
        context ↔ ((Coin.run locals).evaluate Reading.answerSystem reading).isSome := by
  refine (Coin.run_issues locals).completes_iff ?_ ?_ shown
  · intro request _ state view response left shown given
    cases request with
    | putObject id key value => cases given
    | removeObject id key => cases given
    | callProgram called stdin arguments => cases given
    | arguments => cases given; exact shown.arguments
    | write descriptor buffer => cases given; exact shown.write descriptor buffer
    | read descriptor size =>
      have answered := shown.read descriptor size
      rw [Option.some.inj given] at answered
      exact answered
    | getCaller => cases given; exact shown.getCaller
    | getObject id key => cases given; exact shown.getObject id key
    | getNextObject id key => cases given; exact shown.getNeighbour id key
    | getPrevObject id key => cases given; exact shown.getNeighbour id key
    | checkAuthority asked => cases given; exact shown.checkAuthority crypto run asked
  · intro request inside state view shown given
    cases request with
    | putObject id key value => exact shown.putObject isFinal id key value
    | removeObject id key => exact shown.removeObject isFinal id key
    | callProgram called stdin arguments => exact absurd inside id
    | _ => cases given

end

end

end Shows

section Read

variable {env : Env} {heap : Heap} {head : Nat} {limit : UInt64}
  {account : Account} {input : ProgramInput}

/-- The context a program is read in. -/
def readContext (heap : Heap) (head : Nat) (limit : UInt64) (account : Account)
    (input : ProgramInput) : Context :=
  { create heap head .readOnly with
    meter := create.setResourceLimits (readLimits limit)
    stack := [⟨account, input.arguments, input.stdin, [], [], 0⟩] }

/-- A new context shows what is to be read. -/
theorem shows_readContext (backed : heap.Backed) (inside : head < heap.size) :
    Shows heap head account (readContext heap head limit account input)
      (Reading.start (heap.view head) account input limit) :=
  ⟨rfl, rfl, rfl, rfl, rfl, fun _ _ => Heap.get_of_backed backed inside _, _, rfl, rfl, rfl, rfl⟩

/-- The program of an account can be read with an input: run on what the head shows, its module
comes to its end and stores nothing, or it is the coin program and the request is answerable.
For accounts that are no programs there is nothing to run. -/
def Readable (env : Env) (heap : Heap) (head : Nat) (limit : UInt64)
    (account : Account) (input : ProgramInput) : Prop :=
  match account.type with
  | .program => ∀ object ∈ heap.view head (programKey account), 32 ≤ object.length ∧
      ((env.runModule (object.take 32) (object.drop 32)).evaluate Reading.answerHost
        (Reading.start (heap.view head) account input limit)).isSome
  | .nativeProgram => account = coin → ∀ request ∈ Reading.requested
      (env.locals (readContext heap head limit account input))
      (Reading.start (heap.view head) account input limit),
      Reading.Answerable (Reading.start (heap.view head) account input limit).objects request
  | _ => True

/-- Reading a module completes if a pure reader gets through it. -/
theorem completes_executeUserProgram {run : Runner} (backed : heap.Backed)
    (isFinal : heap.final head = true) :
    (executeUserProgram env run account).Completes
        (readContext heap head limit account input) ↔
      ∀ object ∈ heap.view head (programKey account), 32 ≤ object.length ∧
        ((env.runModule (object.take 32) (object.drop 32)).evaluate Reading.answerHost
          (Reading.start (heap.view head) account input limit)).isSome := by
  have inside := Heap.lt_size_of_final isFinal
  have found : (getState ObjectSpace.programData account.1).Returns
      (readContext heap head limit account input) (heap.view head (programKey account))
      (readContext heap head limit account input) := by
    refine returns_bind.mpr ⟨_, _, returns_read.mpr ⟨rfl, rfl⟩, ?_⟩
    exact returns_ofExcept.mpr ⟨Heap.get_of_backed backed inside _, rfl⟩
  rw [executeUserProgram, completes_onFault, found.completes_bind]
  cases heap.view head (programKey account) with
  | none => exact iff_of_true (completes_pure _) (by simp)
  | some object =>
    simp only [Option.mem_def, Option.some.injEq, forall_eq']
    by_cases short : object.length < 32
    · rw [if_pos short]
      exact iff_of_false (not_completes_fail _) fun sized => by omega
    · rw [if_neg short, (shows_readContext backed inside).completes_module isFinal]
      exact (and_iff_right (Nat.not_lt.mp short)).symm

/-- Reading a native program completes unless coin is to store something. -/
theorem completes_executeNativeProgram {run : Runner} (backed : heap.Backed)
    (isFinal : heap.final head = true) :
    (executeNativeProgram env run account).Completes
        (readContext heap head limit account input) ↔
      (account = coin → ∀ request ∈ Reading.requested
        (env.locals (readContext heap head limit account input))
        (Reading.start (heap.view head) account input limit),
        Reading.Answerable (Reading.start (heap.view head) account input limit).objects
          request) := by
  have inside := Heap.lt_size_of_final isFinal
  rw [executeNativeProgram, completes_onFault]
  by_cases isCoin : account = coin
  · rw [if_pos isCoin, Effect.Returns.completes_bind (returns_read.mpr ⟨rfl, rfl⟩),
      (shows_readContext backed inside).completes_coin isFinal, Reading.evaluate_coin]
    exact ⟨fun answerable _ => answerable, fun answerable => answerable isCoin⟩
  · rw [if_neg isCoin]
    exact iff_of_true (completes_pure _) fun same => absurd same isCoin

/-- A program ends its run in the context of a read exactly when it can be read. -/
theorem completes_executeProgram {run : Runner} (backed : heap.Backed)
    (isFinal : heap.final head = true) :
    (executeProgram env run account).Completes
        (readContext heap head limit account input) ↔
      Readable env heap head limit account input := by
  unfold executeProgram Readable
  cases account.type with
  | program => exact completes_executeUserProgram backed isFinal
  | nativeProgram => exact completes_executeNativeProgram backed isFinal
  | user => exact iff_of_true (completes_pure _) trivial
  | invalid => exact iff_of_true (completes_pure _) trivial

/-- What follows in the frame of a program returns. -/
theorem completes_inOwnFrame {room : Nat} {tolerance : Tolerance} {stdin : Bytes}
    {arguments : List Bytes} {context : Context}
    (top : (context.stack.map StackFrame.programId).head? = some account) :
    (inOwnFrame env (runProgramAt env room) tolerance account stdin arguments).Completes context ↔
      (executeProgram env (runProgramAt env room) account).Completes context := by
  refine completes_bind fun code mid executed => ?_
  by_cases surfaces : surfaces tolerance account code
  · rw [if_pos surfaces]
    exact completes_pure _
  · rw [if_neg surfaces]
    have permitted (program : Account) : Permits (fun _ => True) program := fun _ _ => trivial
    have frame := (executeProgram_frame (fun _ => permitted account) (fun _ => permitted account)
      (checkAuthority_modules (fun other _ => permitted other) room)
      (runProgramAt_frame (fun other _ => permitted other) (permitted _) room
        .relaxed)).of_returns executed top
    obtain ⟨program, rest, stack⟩ : ∃ program rest, mid.stack = program :: rest := by
      cases stack : mid.stack with
      | nil =>
        rw [← frame.programs, stack] at top
        cases top
      | cons program rest => exact ⟨program, rest, rfl⟩
    have peeked : peekFrame.Returns mid program mid := by
      rw [Effect.Returns, peekFrame, read_bind, stack]
      rfl
    exact ⟨_, _, returns_bind.mpr ⟨_, _, peeked.bind_eq _, rfl⟩⟩

/-- A read completes if it is readable. -/
theorem completes_runProgram (backed : heap.Backed) (isFinal : heap.final head = true) :
    (runProgram env .relaxed account input.stdin input.arguments).Completes
        { readContext heap head limit account input with stack := [] } ↔
      Readable env heap head limit account input := by
  have entered : runProgram env .relaxed account input.stdin input.arguments
        { readContext heap head limit account input with stack := [] } =
      Effect.ensuring popFrame (inOwnFrame env
        (runProgramAt env stackLimit) .relaxed account input.stdin
        input.arguments) (readContext heap head limit account input) := by
    rw [runProgram, fullRoom, runProgramAt_succ]
    exact if_neg (by simp [stackLimit])
  rw [completes_congr entered, completes_ensuring, completes_inOwnFrame rfl,
    completes_executeProgram backed isFinal]

/-- While the state node is final, it stays and no delta is written. -/
def Unwritten (before after : Context) : Prop :=
  before.heap.final before.stateNode = true →
    after.heap = before.heap ∧ after.stateNode = before.stateNode

instance : Std.Refl Unwritten := ⟨fun _ _ => ⟨rfl, rfl⟩⟩

instance : IsTrans Context Unwritten where
  trans _ _ _ earlier later := fun isFinal => by
    obtain ⟨heap, stateNode⟩ := earlier isFinal
    obtain ⟨heapLater, stateNodeLater⟩ := later (by rw [heap, stateNode]; exact isFinal)
    exact ⟨heapLater.trans heap, stateNodeLater.trans stateNode⟩

/-- No run of a program writes when the state node is final. -/
theorem unwritten_endures (env : Env) : Endures env Unwritten := by
  have overlooks : Overlooks Unwritten :=
    ⟨fun _ _ _ _ => ⟨rfl, rfl⟩, fun _ _ _ _ => ⟨rfl, rfl⟩, fun _ _ _ => ⟨rfl, rfl⟩⟩
  refine ⟨overlooks.meter, fun _ _ _ => ⟨rfl, rfl⟩, overlooks.record,
    checkSignature_kept (fun _ _ _ => ⟨rfl, rfl⟩) env.crypto,
    putObject_kept overlooks fun _ _ _ =>
      payment_kept (fun _ isFinal => ⟨?_, rfl⟩) fun _ _ _ => ⟨rfl, rfl⟩,
    removeObject_kept overlooks fun _ _ =>
      payment_kept (fun _ isFinal => ⟨?_, rfl⟩) fun _ _ _ => ⟨rfl, rfl⟩⟩
  · exact congrArg Prod.snd (Heap.put_of_final isFinal _ _)
  · exact congrArg Prod.snd (Heap.remove_of_final isFinal _)

/-- A read on a final head does not change the database, whatever comes of it. -/
theorem readProgram_unchanged {db : Database} (isHead : db.head = some head)
    (isFinal : db.heap.final head = true) :
    (readProgram env limit account input db).2 = db := by
  have kept := (unwritten_endures env).runProgramAt fullRoom .relaxed account
    input.stdin input.arguments
    { readContext db.heap head limit account input with stack := [] } isFinal
  rw [readProgram, read_bind, isHead, expect_bind]
  exact congrArg (fun heap => { db with heap := heap }) kept.1

/-- So does `read_program`. -/
theorem completes_readProgram {db : Database} (backed : db.heap.Backed)
    (isHead : db.head = some head) (isFinal : db.heap.final head = true) :
    (readProgram env limit account input).Completes db ↔
      Readable env db.heap head limit account input := by
  have limited : Effect.Returns (Effect.modify fun context : Context => { context with
      meter := context.meter.setResourceLimits (readLimits limit) } : Run Unit)
      (create db.heap head .readOnly) ()
      { readContext db.heap head limit account input with stack := [] } := rfl
  rw [← completes_runProgram backed isFinal, readProgram,
    Effect.Returns.completes_bind (returns_read.mpr ⟨rfl, rfl⟩), isHead]
  refine (Effect.Returns.completes_bind (returns_expect.mpr ⟨rfl, rfl⟩)).trans ?_
  rw [inContext, completes_within]
  exact limited.completes_bind

end Read

/-- In every state that a controller reaches over arbitrary blocks and transactions, a read
leaves the database as it is on every exit; and it comes back with an output or an error exactly
when its program can be read. -/
theorem read_safe_iff_readable {env : Env} {entries : List GenesisEntry}
    {history : List (Nat × Block)} {db : Database}
    (run : ProcessRun env entries history db) (limit : UInt64) (account : Account)
    (input : ProgramInput) :
    ∃ head, db.head = some head ∧
      (readProgram env limit account input db).2 = db ∧
      ((readProgram env limit account input).Completes db ↔
        Readable env db.heap head limit account input) := by
  have rooted := run.chained.tracked.rooted
  obtain ⟨head, isHead, isFinal⟩ := rooted.head
  exact ⟨head, isHead, readProgram_unchanged isHead isFinal,
    completes_readProgram rooted.backed isHead isFinal⟩

/-- The query for the supply of the coin. -/
def supplyQuery : ProgramInput := ⟨[], littleEndian 4 4⟩

/-- The supply can be read from a controller that was only opened. -/
theorem read_safe_iff_readable_supply :
    (readProgram .plain 1000 coin supplyQuery).Completes sampleGenesis ∧
      ∃ head, sampleGenesis.head = some head ∧
        (readProgram .plain 1000 coin supplyQuery sampleGenesis).2 = sampleGenesis ∧
        Readable .plain sampleGenesis.heap head 1000 coin supplyQuery := by
  have completes : (readProgram .plain 1000 coin supplyQuery).Completes sampleGenesis := by
    refine ⟨.ok ⟨0, storeWord 0, []⟩, _, returns_of_fst ?_⟩
    decide +kernel
  obtain ⟨head, isHead, unchanged, readable⟩ := read_safe_iff_readable
    run_sampleGenesis 1000 coin supplyQuery
  exact ⟨completes, head, isHead, unchanged, readable.mp completes⟩

/-- A request to mint five coins. -/
def mintQuery : ProgramInput := ⟨[], littleEndian 4 7 ++ sampleSigner.1 ++ storeWord 5⟩

/-- Reading the coin program with a mint ends the process: the write to the final head throws
below `execute_native_program`. -/
theorem minting_read_terminates :
    ProcessRun .plain sampleEntries [] sampleGenesis ∧
      (readProgram .plain 1000 coin mintQuery sampleGenesis).1 = .error .terminate :=
  ⟨run_sampleGenesis, by decide +kernel⟩

end Respublica.Controller
