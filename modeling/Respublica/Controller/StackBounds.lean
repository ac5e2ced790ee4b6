import Respublica.Controller.CallTree
import Respublica.Foundation.Simulation

/-!
# The stack of nested runs

Running a program, asking for its authority and calling it are mutually recursive, and programs
decide which of them happens next: a program may ask for its own authority without end. What
ends the recursion is the limit of the stack, which every nested run brings one frame closer.
`runProgram` is computed with as much room as the stack can have; it is the only solution of the
recursion in the source, so the room is not noticed.

A run works on the frame on top. Whatever its exit, it leaves the stack it was started on.
-/

namespace Respublica.Controller

open Foundation Effect Crypto Program Protocol StateDb Interaction Context

namespace Context

/-- The frames below the one on top are the same, and there are as many. -/
structure Beneath (before after : Context) : Prop where
  tail : after.stack.tail = before.stack.tail
  length : after.stack.length = before.stack.length

instance : Std.Refl Beneath := ⟨fun _ => ⟨rfl, rfl⟩⟩

instance : IsTrans Context Beneath :=
  ⟨fun _ _ _ earlier later => ⟨later.tail.trans earlier.tail, later.length.trans earlier.length⟩⟩

/-- The whole stack is the same. -/
def SameStack (before after : Context) : Prop := after.stack = before.stack

instance : Std.Refl SameStack := ⟨fun _ => rfl⟩

instance : IsTrans Context SameStack := ⟨fun _ _ _ earlier later => Eq.trans later earlier⟩

theorem SameStack.beneath {before after : Context} (same : SameStack before after) :
    Beneath before after := ⟨congrArg List.tail same, congrArg List.length same⟩

/-- Frames beneath overlook the meter and the contents of the frame on top. -/
theorem beneath_overlooks : Overlooks Beneath where
  meter _ _ _ := ⟨rfl, rfl⟩
  contents context change _ := by
    constructor
    · change (context.stack.modify 0 change).tail = context.stack.tail
      cases context.stack <;> rfl
    · exact List.length_modify _ _ _
  record _ _ := ⟨rfl, rfl⟩

variable {env : Env} {run : Runner}

theorem chargeCall_sameStack : chargeCall.Keeps SameStack :=
  keeps_bind (fun _ => rfl : (onMeter (Meter.useComputeBandwidth 1)).Keeps SameStack)
    fun _ => keeps_pure _

section Frames

variable (runs : ∀ tolerance account stdin arguments,
  (run tolerance account stdin arguments).Keeps SameStack)

include runs

/-- Asking for authority leaves the stack as it is. -/
theorem checkAuthority_sameStack (crypto : Primitives) (account : Account) :
    (checkAuthority crypto run account).Keeps SameStack := by
  refine keeps_bind chargeCall_sameStack fun _ =>
    keeps_bind keeps_read fun _ =>
      keeps_ite (keeps_pure _) (keeps_ite ?_ ?_)
  · exact keeps_bind (runs _ _ _ _) fun _ => keeps_pure _
  · exact checkSignature_kept (fun _ _ => rfl) crypto account

/-- So does calling a program. -/
theorem callProgram_sameStack (account : Account) (stdin : Bytes) (arguments : List Bytes) :
    (callProgram run account stdin arguments).Keeps SameStack :=
  keeps_bind chargeCall_sameStack fun _ => runs _ _ _ _

/-- Host calls leave the frames beneath. -/
theorem answerHost_beneath (call : HostCall) :
    (answerHost env.crypto run call).Keeps Beneath :=
  answerHost_kept beneath_overlooks
    (putObject_kept beneath_overlooks fun _ _ _ => payment_kept (fun _ => ⟨rfl, rfl⟩)
      fun _ _ => ⟨rfl, rfl⟩)
    (fun account => (checkAuthority_sameStack runs _ account).mono fun _ _ => SameStack.beneath)
    call

/-- System calls leave the frames beneath. -/
theorem answerSystem_beneath (call : SystemCall) :
    (answerSystem env.crypto run call).Keeps Beneath :=
  answerSystem_kept beneath_overlooks
    (putObject_kept beneath_overlooks fun _ _ _ => payment_kept (fun _ => ⟨rfl, rfl⟩)
      fun _ _ => ⟨rfl, rfl⟩)
    (fun account => (checkAuthority_sameStack runs _ account).mono fun _ _ => SameStack.beneath)
    (removeObject_kept beneath_overlooks fun _ _ => payment_kept (fun _ => ⟨rfl, rfl⟩)
      fun _ _ => ⟨rfl, rfl⟩)
    (fun _ _ _ => (runs _ _ _ _).mono fun _ _ => SameStack.beneath) call

/-- A program changes no frame but its own. -/
theorem executeProgram_beneath (account : Account) :
    (executeProgram env run account).Keeps Beneath := by
  unfold executeProgram
  split
  · refine keeps_onFault (keeps_bind (getState_kept _ _) fun object => ?_)
    cases object with
    | none => exact keeps_pure _
    | some object =>
      exact keeps_ite (keeps_fail _)
        (interpret_keeps (answerHost_beneath runs) _)
  · exact keeps_onFault (keeps_ite (keeps_bind keeps_read fun _ =>
      interpret_keeps (answerSystem_beneath runs) _) (keeps_pure _))
  · exact keeps_pure _

end Frames

/-- Whatever its exit, a run leaves the stack it was started on. -/
theorem runProgramBody_sameStack (runs : ∀ tolerance account stdin arguments,
      (run tolerance account stdin arguments).Keeps SameStack) (tolerance : Tolerance)
    (account : Account) (stdin : Bytes) (arguments : List Bytes) :
    (runProgramBody env run tolerance account stdin arguments).Keeps SameStack := by
  intro before
  rw [runProgramBody_eq]
  split
  · rfl
  · exact (inOwnFrame_kept beneath_overlooks (executeProgram_beneath runs account) tolerance stdin
      arguments _).tail

/-- The induction is on the room left for nested runs. -/
theorem runProgramAt_sameStack (room : Nat) :
    ∀ (tolerance : Tolerance) (account : Account) (stdin : Bytes) (arguments : List Bytes),
      (runProgramAt env room tolerance account stdin arguments).Keeps SameStack := by
  induction room with
  | zero => exact fun _ _ _ _ => keeps_pure _
  | succ room ih => exact runProgramBody_sameStack ih

section Recursion

/-- At least so many frames are on the stack. -/
def Deep (depth : Nat) (context : Context) : Prop := depth ≤ context.stack.length

theorem Beneath.deep (depth : Nat) {before after : Context} (beneath : Beneath before after) :
    Preserving (Deep depth) before after :=
  fun deep => deep.trans_eq beneath.length.symm

theorem chargeCall_deep (depth : Nat) : chargeCall.Keeps (Preserving (Deep depth)) :=
  chargeCall_sameStack.mono fun _ _ same => same.beneath.deep depth

/-- Two runners do the same when so many frames are on the stack. -/
def AgreeAt (depth : Nat) (first second : Runner) : Prop :=
  ∀ tolerance account stdin arguments,
    Effect.SameOn (Deep depth) (first tolerance account stdin arguments)
      (second tolerance account stdin arguments)

variable {depth : Nat} {first second : Runner} (agree : AgreeAt depth first second)
  (runs : ∀ tolerance account stdin arguments,
    (second tolerance account stdin arguments).Keeps SameStack)

include agree

/-- Runners that agree are asked for authority alike. -/
theorem AgreeAt.checkAuthority (crypto : Primitives) (account : Account) :
    Effect.SameOn (Deep depth) (checkAuthority crypto first account)
      (checkAuthority crypto second account) := by
  refine sameOn_bind (sameOn_refl _) (chargeCall_deep depth) fun _ =>
    sameOn_bind (sameOn_refl _) keeps_read fun _ =>
      sameOn_ite (sameOn_refl _) (sameOn_ite ?_ (sameOn_refl _))
  intro context deep
  simp only [bind, agree _ _ _ _ context deep]

/-- They answer host calls alike. -/
theorem AgreeAt.answerHost (crypto : Primitives) (call : HostCall) :
    Effect.SameOn (Deep depth) (answerHost crypto first call)
      (answerHost crypto second call) := by
  cases call with
  | checkAuthority account => exact agree.checkAuthority crypto account
  | _ => exact sameOn_refl _

/-- They answer system calls alike. -/
theorem AgreeAt.answerSystem (crypto : Primitives) (call : SystemCall) :
    Effect.SameOn (Deep depth) (answerSystem crypto first call)
      (answerSystem crypto second call) := by
  cases call with
  | checkAuthority account => exact agree.checkAuthority crypto account
  | callProgram account stdin arguments =>
    exact sameOn_bind (sameOn_refl _) (chargeCall_deep depth) fun _ =>
      agree _ _ _ _
  | _ => exact sameOn_refl _

include runs

/-- They execute programs alike. -/
theorem AgreeAt.executeProgram (account : Account) :
    Effect.SameOn (Deep depth) (executeProgram env first account)
      (Context.executeProgram env second account) := by
  unfold Context.executeProgram
  split
  · refine sameOn_onFault (sameOn_bind (sameOn_refl _) (getState_kept _ _) fun object => ?_)
    cases object with
    | none => exact sameOn_refl _
    | some object =>
      exact sameOn_ite (sameOn_refl _) (sameOn_interpret (agree.answerHost _)
        (fun call => (answerHost_beneath runs call).mono fun _ _ => Beneath.deep depth) _)
  · refine sameOn_onFault (sameOn_ite ?_ (sameOn_refl _))
    exact sameOn_bind (sameOn_refl _) keeps_read fun _ =>
      sameOn_interpret (agree.answerSystem _)
        (fun call => (answerSystem_beneath runs call).mono fun _ _ => Beneath.deep depth) _
  · exact sameOn_refl _

/-- They run programs alike on a frame of their own. -/
theorem AgreeAt.inOwnFrame (tolerance : Tolerance) (account : Account) (stdin : Bytes)
    (arguments : List Bytes) :
    Effect.SameOn (Deep depth)
      (inOwnFrame env first tolerance account stdin arguments)
      (inOwnFrame env second tolerance account stdin arguments) :=
  sameOn_bind (agree.executeProgram runs account)
    ((executeProgram_beneath runs account).mono fun _ _ => Beneath.deep depth) fun _ =>
      sameOn_refl _

end Recursion

/-- What runs do on a stack depends on what they do on higher stacks only. -/
theorem AgreeAt.runProgramBody {depth : Nat} {first second : Runner}
    (agree : AgreeAt (depth + 1) first second)
    (runs : ∀ tolerance account stdin arguments,
      (second tolerance account stdin arguments).Keeps SameStack) :
    AgreeAt depth (runProgramBody env first)
      (runProgramBody env second) := by
  intro tolerance account stdin arguments context deep
  rw [runProgramBody_eq, runProgramBody_eq]
  split
  · rfl
  · have entered : Deep (depth + 1)
        { context with stack := ⟨account, arguments, stdin, [], [], 0⟩ :: context.stack } :=
      Nat.succ_le_succ deep
    rw [Effect.ensuring, Effect.ensuring, agree.inOwnFrame runs _ _ _ _ _ entered]

/-- On a full stack nothing is run. -/
theorem agreeAt_stackLimit (first second : Runner) :
    AgreeAt stackLimit (runProgramBody env first) (runProgramBody env second) := by
  intro tolerance account stdin arguments context full
  have refused : stackLimit ≤ context.stack.length := full
  rw [runProgramBody_eq, runProgramBody_eq, if_pos refused, if_pos refused]

/-- Room beyond the limit of the stack is not noticed. -/
theorem runProgramAt_agree {room depth : Nat} (enough : stackLimit < room + depth) :
    AgreeAt depth (runProgramAt env room) (runProgramAt env (room + 1)) := by
  induction room generalizing depth with
  | zero =>
    intro tolerance account stdin arguments context deep
    rw [runProgramAt_succ, if_pos (by unfold Deep at deep; omega)]
    rfl
  | succ room ih => exact (ih (by omega)).runProgramBody (runProgramAt_sameStack _)

/-- `runProgram` solves the recursion of the source, and nothing else does. -/
theorem eq_runProgramBody_iff :
    run = runProgramBody env run ↔ run = runProgram env := by
  have solves : runProgram env = runProgramBody env (runProgram env) := by
    funext tolerance account stdin arguments context
    exact runProgramAt_agree (by decide) tolerance account stdin arguments context (Nat.zero_le _)
  constructor
  · intro solution
    -- By induction on the frames that still fit, starting from a full stack.
    have agrees : ∀ free, AgreeAt (stackLimit - free) run (runProgram env) := by
      intro free
      induction free with
      | zero =>
        rw [solution, solves]
        exact agreeAt_stackLimit _ _
      | succ free ih =>
        by_cases fits : free < stackLimit
        · rw [solution, solves]
          refine AgreeAt.runProgramBody ?_ (runProgramAt_sameStack _)
          rw [show stackLimit - (free + 1) + 1 = stackLimit - free by omega]
          exact ih
        · rw [show stackLimit - (free + 1) = stackLimit - free by omega]
          exact ih
    funext tolerance account stdin arguments context
    exact agrees stackLimit tolerance account stdin arguments context (Nat.zero_le _)
  · rintro rfl
    exact solves

end Context

variable {env : Env} {room : Nat} {account : Account} {starter : Option Account}
  {base entered context : Context} {call : ProgramCall}

/-- At the calls of a program, the frames below its own are those it was entered with. -/
theorem Calls.beneath (calls : Calls env room account entered call context) :
    Context.Beneath entered context :=
  calls.related (answerSystem_beneath (runProgramAt_sameStack room))
    (answerHost_beneath (runProgramAt_sameStack room))

/-- A frame is entered on a stack that is not full. -/
theorem Started.length_le (started : Started env base room starter account entered) :
    entered.stack.length ≤ stackLimit := by
  cases started with
  | direct free => exact free
  | called _ _ _ free => exact free
  | asked _ _ _ _ _ _ free => exact free

/-- Whatever programs are stored: the recursion between running a program, asking for its
authority and calling it has exactly one solution, which `runProgram` computes. In every tree of
runs no frame has more than the limit of frames on the stack, neither when it begins nor at any
of its calls, and the frames below it stay as they were when it began. A run on a full stack
answers with the overflow and changes nothing at all. Every run, every request for authority and
every call leaves the whole stack as it was, whether it returns a value or an error or stops. -/
theorem nested_runs_bounded_and_balanced (env : Env) :
    (∀ run : Runner, run = runProgramBody env run ↔ run = runProgram env) ∧
    (∀ base room starter account entered, Started env base room starter account entered →
      entered.stack.length ≤ stackLimit ∧
        ∀ call context, Calls env room account entered call context →
          context.stack.length ≤ stackLimit ∧
            context.stack.tail = entered.stack.tail) ∧
    (∀ tolerance account stdin arguments (before : Context), stackLimit ≤ before.stack.length →
        runProgram env tolerance account stdin arguments before =
          (.ok (.error (.controller .stackOverflow)), before)) ∧
    ∀ before : Context,
      (∀ tolerance account stdin arguments,
        (runProgram env tolerance account stdin arguments before).2.stack =
          before.stack) ∧
      (∀ account, (checkAuthority env.crypto (runProgram env)
        account before).2.stack = before.stack) ∧
      ∀ account stdin arguments, (callProgram (runProgram env) account
        stdin arguments before).2.stack = before.stack := by
  have balanced : ∀ tolerance account stdin arguments,
      (runProgram env tolerance account stdin arguments).Keeps Context.SameStack :=
    runProgramAt_sameStack fullRoom
  refine ⟨fun run => eq_runProgramBody_iff, fun base room starter account entered started =>
    ⟨started.length_le, fun call context calls => ?_⟩,
    fun tolerance account stdin arguments before full => ?_, fun before => ⟨?_, ?_, ?_⟩⟩
  · exact ⟨calls.beneath.length.trans_le started.length_le, calls.beneath.tail⟩
  · exact (runProgramAt_succ _ _ _ _ _ _).trans (if_pos full)
  · exact fun tolerance account stdin arguments => balanced tolerance account stdin arguments before
  · exact fun account => checkAuthority_sameStack balanced _ account before
  · exact fun account stdin arguments =>
      callProgram_sameStack balanced account stdin arguments before

/-- A module that asks for its own authority, whatever it is started with. -/
def selfAsking : Env :=
  { Env.plain with
    runModule := fun _ _ => .call (.checkAuthority relayId) fun _ => .done (.exited 0) }

/-- It is run as often as frames fit on the stack, innermost first to finish, and leaves the
stack empty. -/
theorem nested_runs_of_self_asking :
    ((runProgram selfAsking .strict relayId [] [] relayBlock).2.frames.map
        ProgramFrame.depth) = (List.range 32).reverse.map (· + 1) ∧
      (runProgram selfAsking .strict relayId [] [] relayBlock).2.stack = [] :=
  ⟨by decide +kernel,
    ((nested_runs_bounded_and_balanced selfAsking).2.2.2 relayBlock).1 .strict relayId [] []⟩

end Respublica.Controller
