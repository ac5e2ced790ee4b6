import Respublica.Controller.Kept
import Respublica.StateDb.Confined

/-!
# What running programs can change

However programs behave, a run writes to the state node only, under the object keys of
programs that can run in it; the stack is as before when the run is over, and the meter
only goes down. This holds on every exit, exceptions included.

A call's effect depends on whose frame is on top, so the relation kept inside a frame is
conditional on that frame. The induction is on the room left on the stack; inside one
frame it is the induction over interactions.
-/

namespace Respublica.Controller

open Foundation Effect Program Protocol StateDb

/-- What the state node of a context shows. -/
def Context.view (context : Context) : Bytes → Option Bytes :=
  context.heap.view context.stateNode

/-- A context is as before, up to the records of the state node for the given keys, the
contents of stack frames, a meter that went down, recorded frames and verified signers. -/
structure Frame (writes : Bytes → Prop) (before after : Context) : Prop where
  stateNode : after.stateNode = before.stateNode
  heap : Heap.Confined writes before.stateNode before.heap after.heap
  programs : after.stack.map StackFrame.programId = before.stack.map StackFrame.programId
  transaction : after.transaction = before.transaction
  intent : after.intent = before.intent
  meter : Meter.Spent before.meter after.meter

namespace Frame

variable {writes : Bytes → Prop}

instance : Std.Refl (Frame writes) :=
  ⟨fun _ => ⟨rfl, Std.Refl.refl _, rfl, rfl, rfl, Std.Refl.refl _⟩⟩

instance : IsTrans Context (Frame writes) :=
  ⟨fun _ _ _ left right =>
    ⟨right.stateNode.trans left.stateNode,
      IsTrans.trans _ _ _ left.heap (left.stateNode ▸ right.heap),
      right.programs.trans left.programs, right.transaction.trans left.transaction,
      right.intent.trans left.intent, IsTrans.trans _ _ _ left.meter right.meter⟩⟩

variable {before after : Context}

/-- The state node shows what it showed under all other keys. -/
theorem view (frame : Frame writes before after) {key : Bytes} (outside : ¬ writes key) :
    after.view key = before.view key := by
  rw [Context.view, Context.view, frame.stateNode, frame.heap.view outside]

/-- A frame inside a pushed stack frame is one around it. -/
theorem popped {frame : StackFrame}
    (inside : Frame writes { before with stack := frame :: before.stack } after) :
    Frame writes before after.popFrame :=
  ⟨inside.stateNode, inside.heap, by
    have programs := congrArg List.tail inside.programs
    simpa [Context.popFrame] using programs, inside.transaction, inside.intent, inside.meter⟩

end Frame

/-- The keys under which a program stores its objects. -/
def Permits (writes : Bytes → Prop) (program : Account) : Prop :=
  ∀ id key, writes (makeCompoundKey (ObjectSpace.ofProgram program id) key)

/-- A frame kept while the given program is on top of the stack. -/
def FrameIn (program : Account) (writes : Bytes → Prop) (before after : Context) : Prop :=
  (before.stack.map StackFrame.programId).head? = some program → Frame writes before after

namespace FrameIn

variable {program : Account} {writes : Bytes → Prop}

instance : Std.Refl (FrameIn program writes) := ⟨fun _ _ => Std.Refl.refl _⟩

instance : IsTrans Context (FrameIn program writes) :=
  ⟨fun _ _ _ left right top => by
    have first := left top
    have second := right (first.programs ▸ top)
    exact IsTrans.trans _ _ _ first second⟩

end FrameIn

namespace Context

variable {writes : Bytes → Prop} {program : Account}

/-- Frames overlook the meter and the contents of stack frames. -/
theorem frame_overlooks : Overlooks (Frame writes) where
  meter _ _ spared := ⟨rfl, Std.Refl.refl _, rfl, rfl, rfl, spared.spent⟩
  contents context change same := by
    refine ⟨rfl, Std.Refl.refl _, ?_, rfl, rfl, Std.Refl.refl _⟩
    cases context.stack <;> simp [same]
  record _ _ := ⟨rfl, Std.Refl.refl _, rfl, rfl, rfl, Std.Refl.refl _⟩

theorem frameIn_overlooks : Overlooks (FrameIn program writes) :=
  ⟨fun _ _ spared _ => frame_overlooks.meter _ _ spared,
    fun _ _ same _ => frame_overlooks.contents _ _ same,
    fun _ _ _ => frame_overlooks.record _ _⟩

variable {Value : Type} {space : ObjectSpace} {key : Bytes} {id : UInt32} {run : Runner}
  {account : Account}

theorem onMeter_frame {routine : Effect Fault Meter Value} (spends : routine.Keeps Meter.Spent) :
    (onMeter routine).Keeps (Frame writes) :=
  fun before => ⟨rfl, Std.Refl.refl _, rfl, rfl, rfl, spends before.meter⟩

theorem chargeCall_frame : chargeCall.Keeps (Frame writes) := chargeCall_kept frame_overlooks

/-- A call's charge changes nothing but the meter. -/
theorem eq_of_chargeCall {before after : Context} {result : Unit}
    (gave : chargeCall.Returns before result after) :
    after = { before with meter := after.meter } := by
  simp only [chargeCall, onMeter, returns_bind, returns_within, returns_pure] at gave
  obtain ⟨_, _, ⟨meter, -, rfl⟩, -, rfl⟩ := gave
  rfl

/-- A routine on the deltas of the state node that is confined keeps the frame. -/
theorem onNode_frame {routine : Nat → Effect Fault Heap Value}
    (confined : ∀ node, (routine node).Keeps (Heap.Confined writes node)) :
    Effect.Keeps (Frame writes) (do
      let context ← Effect.read
      onHeap (routine context.stateNode)) := by
  intro before
  exact ⟨rfl, confined before.stateNode before.heap, rfl, rfl, rfl, Std.Refl.refl _⟩

/-- A write stays in the frame of its key. -/
theorem putState_frame (value : Bytes) (inside : writes (makeCompoundKey space key)) :
    (putState space key value).Keeps (Frame writes) :=
  onNode_frame fun _ => Heap.put_confined value inside

theorem removeState_frame (inside : writes (makeCompoundKey space key)) :
    (removeState space key).Keeps (Frame writes) :=
  onNode_frame fun _ => Heap.remove_confined inside

/-- Every kept frame is kept in any program. -/
theorem frameIn {routine : Run Value} (keeps : routine.Keeps (Frame writes)) :
    routine.Keeps (FrameIn program writes) :=
  fun before _ => keeps before

theorem returns_peekFrame {frame : StackFrame} {before after : Context} :
    peekFrame.Returns before frame after ↔ before.stack.head? = some frame ∧ after = before := by
  simp only [peekFrame, returns_bind, returns_read, returns_expect]
  constructor
  · rintro ⟨_, _, ⟨rfl, rfl⟩, found, rfl⟩
    exact ⟨found, rfl⟩
  · rintro ⟨found, rfl⟩
    exact ⟨after, after, ⟨rfl, rfl⟩, found, rfl⟩

/-- What is read of the state is what it shows. -/
theorem view_of_getState {found : Option Bytes} {before after : Context}
    (gave : (getState space key).Returns before found after) :
    after = before ∧ before.view (makeCompoundKey space key) = found := by
  simp only [getState, returns_bind, returns_read, returns_ofExcept] at gave
  obtain ⟨_, _, ⟨rfl, rfl⟩, got, rfl⟩ := gave
  exact ⟨rfl, Heap.view_of_get got⟩

/-- The object space made in a frame is that of the program on top. -/
theorem returns_createObjectSpace {before after : Context}
    (top : (before.stack.map StackFrame.programId).head? = some program)
    (gave : (createObjectSpace id).Returns before space after) :
    space = ObjectSpace.ofProgram program id ∧ after = before := by
  simp only [createObjectSpace, returns_bind, returns_peekFrame, returns_pure] at gave
  obtain ⟨frame, _, ⟨found, rfl⟩, rfl, rfl⟩ := gave
  rw [List.head?_map, found] at top
  exact ⟨by rw [← Option.some.inj top], rfl⟩

/-- A write to an object space of the running program, followed by its metering. -/
theorem onObject_frame {routine : ObjectSpace → Run ErrorCode}
    (keeps : (routine (ObjectSpace.ofProgram program id)).Keeps (Frame writes)) :
    Effect.Keeps (FrameIn program writes) (do
      chargeCall
      let space ← createObjectSpace id
      routine space) := by
  refine keeps_bind (frameIn chargeCall_frame) fun _ before top => ?_
  refine related_bind ?_ fun space mid created => ?_
  · exact createObjectSpace_kept id before
  · obtain ⟨rfl, rfl⟩ := returns_createObjectSpace top created
    exact keeps mid

/-- Programs write where they are permitted to. -/
theorem putObject_frame (permits : Permits writes program) (id : UInt32) (key value : Bytes) :
    (putObject id key value).Keeps (FrameIn program writes) :=
  onObject_frame (keeps_bind (putState_frame value (permits id key)) fun _ =>
    onMeter_frame (Meter.use_spends _ _))

theorem removeObject_frame (permits : Permits writes program) (id : UInt32) (key : Bytes) :
    (removeObject id key).Keeps (FrameIn program writes) :=
  onObject_frame (keeps_bind (removeState_frame (permits id key)) fun _ =>
    onMeter_frame (Meter.use_spends _ _))

theorem checkSignature_frame (crypto : Crypto.Primitives) (account : Account) :
    (checkSignature crypto account).Keeps (Frame writes) :=
  checkSignature_kept (fun _ _ => ⟨rfl, Std.Refl.refl _, rfl, rfl, rfl, Std.Refl.refl _⟩) _ _

/-- Asking for authority keeps what running the asked programs keeps. -/
theorem checkAuthority_frame {crypto : Crypto.Primitives}
    (runs : account.viewProgram = true →
      (run .strict account (littleEndian 4 0) []).Keeps (Frame writes)) :
    (checkAuthority crypto run account).Keeps (Frame writes) :=
  checkAuthority_kept frame_overlooks (fun _ => checkSignature_frame crypto account) runs

variable {env : Env}

/-- Modules write where they are permitted to. -/
theorem executeUserProgram_frame (permits : Permits writes program)
    (asks : ∀ account, (checkAuthority env.crypto run account).Keeps (Frame writes)) :
    (executeUserProgram env run program).Keeps (FrameIn program writes) :=
  executeUserProgram_kept frameIn_overlooks (putObject_frame permits)
    (fun account => frameIn (asks account)) program

/-- Native programs write where coin is permitted to. -/
theorem executeNativeProgram_frame (permits : program = coin → Permits writes program)
    (asks : ∀ account, (checkAuthority env.crypto run account).Keeps (Frame writes))
    (runs : ∀ account stdin arguments,
      (run .relaxed account stdin arguments).Keeps (Frame writes)) :
    (executeNativeProgram env run program).Keeps (FrameIn program writes) := by
  refine keeps_onFault ?_
  split
  · rename_i isCoin
    exact interpretCoin_kept frameIn_overlooks (putObject_frame (permits isCoin))
      (fun account => frameIn (asks account)) (removeObject_frame (permits isCoin))
      fun account stdin arguments => frameIn (runs account stdin arguments)
  · exact keeps_pure _

/-- A run keeps what its program keeps in its frame. -/
theorem runProgramAt_keeps {room : Nat}
    (executes : (executeProgram env (runProgramAt env room) account).Keeps (FrameIn account writes))
    (tolerance : Tolerance) (stdin : Bytes) (arguments : List Bytes) :
    (runProgramAt env (room + 1) tolerance account stdin arguments).Keeps
      (Frame writes) := by
  intro before
  rw [runProgramAt_succ]
  split
  · exact Std.Refl.refl _
  · have inside := inOwnFrame_kept frameIn_overlooks executes tolerance stdin arguments
    have kept := inside { before with stack := ⟨account, arguments, stdin, [], [], 0⟩ ::
      before.stack }
      rfl
    exact kept.popped

/-- Programs behind an odd prefix are modules or nothing. -/
theorem type_of_viewProgram (isProgram : account.viewProgram = true) :
    account.type = .program ∨ account.type = .invalid := by
  unfold Account.viewProgram at isProgram
  unfold Account.type
  split
  · simp_all
  · exact .inl rfl
  · rename_i native
    rw [native] at isProgram
    exact absurd isProgram (by decide)
  · exact .inr rfl

/-- Modules reach other programs by asking for authority only, and only modules can be
asked. So a run of a module writes under the keys of modules. -/
theorem runModule_frame (permits : ∀ account : Account, account.type = .program →
      Permits writes account) (room : Nat) :
    ∀ (account : Account), account.type ≠ .nativeProgram →
      ∀ (tolerance : Tolerance) (stdin : Bytes) (arguments : List Bytes),
        (runProgramAt env room tolerance account stdin arguments).Keeps (Frame writes) := by
  induction room with
  | zero => exact fun _ _ _ _ _ => keeps_pure _
  | succ room ih =>
    intro account notNative
    refine runProgramAt_keeps ?_
    have asks (asked : Account) : (checkAuthority env.crypto
        (runProgramAt env room) asked).Keeps (Frame writes) := by
      refine checkAuthority_frame fun isProgram => ih asked ?_ _ _ _
      rcases type_of_viewProgram isProgram with type | type <;> simp [type]
    unfold executeProgram
    cases type : account.type with
    | program => exact executeUserProgram_frame (permits account type) asks
    | nativeProgram => exact absurd type notNative
    | user => exact keeps_pure _
    | invalid => exact keeps_pure _

/-- Asking for authority writes under the keys of modules. -/
theorem checkAuthority_modules (permits : ∀ account : Account, account.type = .program →
      Permits writes account) (room : Nat) (account : Account) :
    (checkAuthority env.crypto (runProgramAt env room) account).Keeps
      (Frame writes) := by
  refine checkAuthority_frame fun isProgram => runModule_frame permits room account ?_ _ _ _
  rcases type_of_viewProgram isProgram with type | type <;> simp [type]

/-- The program of a frame writes under its own keys, and as the programs do that it runs. -/
theorem executeProgram_frame (permits : account.type = .program → Permits writes account)
    (coinPermits : account = coin → Permits writes account)
    (asks : ∀ asked, (checkAuthority env.crypto run asked).Keeps (Frame writes))
    (runs : ∀ called stdin arguments, (run .relaxed called stdin arguments).Keeps (Frame writes)) :
    (executeProgram env run account).Keeps (FrameIn account writes) := by
  unfold executeProgram
  cases type : account.type with
  | program => exact executeUserProgram_frame (permits type) asks
  | nativeProgram => exact executeNativeProgram_frame coinPermits asks runs
  | user => exact keeps_pure _
  | invalid => exact keeps_pure _

/-- Every run writes under the keys of modules and of the coin program. -/
theorem runProgramAt_frame (permits : ∀ account : Account, account.type = .program →
      Permits writes account) (coinPermits : Permits writes coin) (room : Nat) :
    ∀ (tolerance : Tolerance) (account : Account) (stdin : Bytes) (arguments : List Bytes),
      (runProgramAt env room tolerance account stdin arguments).Keeps (Frame writes) := by
  induction room with
  | zero => exact fun _ _ _ _ => keeps_pure _
  | succ room ih =>
    intro tolerance account
    exact runProgramAt_keeps (executeProgram_frame (permits account)
      (fun isCoin => isCoin ▸ coinPermits) (checkAuthority_modules permits room)
      (ih .relaxed)) tolerance

/-- A context that works on a live state: its node exists, no backend was taken away, and
its meter can price what remains. -/
structure Sound (context : Context) : Prop where
  backed : context.heap.Backed
  inside : context.stateNode < context.heap.size
  payable : context.meter.Payable

variable {before after : Context}

/-- A frame leaves a context sound. -/
theorem Sound.of_frame (sound : before.Sound) (frame : Frame writes before after) : after.Sound :=
  ⟨frame.heap.backed sound.backed, by rw [frame.stateNode, frame.heap.size]; exact sound.inside,
    sound.payable.of_spent frame.meter⟩

/-- A tick that has a price is taken or refused, and the call goes on. -/
theorem chargeCall_returns
    (costs : before.meter.session.isSome → before.meter.limits.cost.computeBandwidth ≠ 0) :
    ∃ charged, chargeCall.Returns before () charged := by
  obtain ⟨code, meter, used⟩ := Meter.useTick_returns costs
  exact ⟨_, returns_bind.mpr ⟨code, _, returns_within.mpr ⟨meter, used, rfl⟩,
    returns_pure.mpr ⟨rfl, rfl⟩⟩⟩

/-- The object space is that of the program on top. -/
theorem createObjectSpace_returns
    (top : (before.stack.map StackFrame.programId).head? = some program) (id : UInt32) :
    (createObjectSpace id).Returns before (ObjectSpace.ofProgram program id) before := by
  rw [List.head?_map, Option.map_eq_some_iff] at top
  obtain ⟨frame, found, rfl⟩ := top
  exact returns_bind.mpr ⟨frame, before, returns_peekFrame.mpr ⟨found, rfl⟩,
    returns_pure.mpr ⟨rfl, rfl⟩⟩

/-- A node that is not final takes a write. -/
theorem putState_returns (sound : before.Sound)
    (notFinal : before.heap.final before.stateNode = false) (space : ObjectSpace)
    (key value : Bytes) :
    ∃ size heap, (putState space key value).Returns before size { before with heap := heap } ∧
      heap.view before.stateNode =
        Function.update before.view (makeCompoundKey space key) (some value) := by
  obtain ⟨size, stored⟩ := Heap.put_of_backed sound.backed sound.inside notFinal
    (makeCompoundKey space key) value
  exact ⟨size, _, returns_bind.mpr ⟨_, _, returns_read.mpr ⟨rfl, rfl⟩,
    returns_within.mpr ⟨_, stored, rfl⟩⟩, Heap.view_of_put stored⟩

end Context

/-- The keys under which modules store objects: a program space with the module prefix. -/
def ModuleKey (key : Bytes) : Prop := key.take 5 = [0, 0, 0, 0, 1]

/-- Modules write under the keys of modules. -/
theorem permits_moduleKey {account : Account} (type : account.type = .program) :
    Permits ModuleKey account := by
  intro id key
  obtain ⟨bytes, length⟩ := account
  cases bytes with
  | nil => cases length
  | cons head rest =>
    have isModule : head = 1 := by
      simp only [Account.type, Account.head, List.headD_cons] at type
      split at type <;> simp_all
    simp [ModuleKey, makeCompoundKey, ObjectSpace.ofProgram_eq, isModule]

end Respublica.Controller
