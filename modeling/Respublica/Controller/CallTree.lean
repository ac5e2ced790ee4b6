import Respublica.Controller.Phases

/-!
# Trees of nested program runs

A program that runs in its frame starts others by calling them or by asking them for authority.
The frames of a run form a tree, rooted in what the transaction or a read starts directly. Which
frame was started by which is not stored anywhere: it is the order of the frames on the stack,
and every call leaves the stack below its frame as it is.

`get_caller` is to name the program that started a frame. It answers with the frame on top,
which is the frame that asks.
-/

namespace Respublica.Controller

open Foundation Effect Program Protocol StateDb Context

/-- The context in which a program begins that was started with an input: its frame is on top. -/
def Context.enter (context : Context) (account : Account) (stdin : Bytes)
    (arguments : List Bytes) : Context :=
  { context with stack := ⟨account, arguments, stdin, [], [], 0⟩ :: context.stack }

/-- A call of a native program or of a module. -/
inductive ProgramCall where
  | native (call : SystemCall)
  | host (call : HostCall)

/-- The call asks for the authority of an account. -/
def ProgramCall.AsksFor (account : Account) (call : ProgramCall) : Prop :=
  call = .native (.checkAuthority account) ∨ call = .host (.checkAuthority account)

/-- The program of an account, whose frame was entered in one context with so much room for
others on the stack, issues a call in another context. The coin program is the only native
program; a module is read from the state when its frame is entered. -/
inductive Calls (env : Env) (room : Nat) (account : Account) (entered : Context) :
    ProgramCall → Context → Prop where
  | native {call : SystemCall} {context : Context} : account = Context.coin →
      Interaction.CallsAt (answers env room) (Coin.run (env.locals entered))
        entered call context →
      Calls env room account entered (.native call) context
  | host {object : Bytes} {call : HostCall} {context : Context} : account.type = .program →
      (getState ObjectSpace.programData account.1).Returns entered (some object) entered →
      32 ≤ object.length →
      Interaction.CallsAt
        (answerHost env.crypto (runProgramAt env room))
        (env.runModule (object.take 32) (object.drop 32)) entered call context →
      Calls env room account entered (.host call) context

/-- The frames of a tree of runs: in the tree whose root is started from a context, the program
of an account begins in a frame of its own, with so much room for others. The starter is the
program that called it or asked it for authority; what is started directly has none. -/
inductive Started (env : Env) (base : Context) :
    Nat → Option Account → Account → Context → Prop where
  | direct {account : Account} {stdin : Bytes} {arguments : List Bytes} :
      base.stack.length < stackLimit →
        Started env base stackLimit none account
          (base.enter account stdin arguments)
  | called {room : Nat} {starter : Option Account} {account called : Account} {stdin : Bytes}
      {arguments : List Bytes} {entered context charged : Context} :
      Started env base (room + 1) starter account entered →
        Calls env (room + 1) account entered
          (.native (.callProgram called stdin arguments)) context →
        chargeCall.Returns context () charged →
        charged.stack.length < stackLimit →
        Started env base room (some account) called (charged.enter called stdin arguments)
  | asked {room : Nat} {starter : Option Account} {account asked : Account} {call : ProgramCall}
      {entered context charged : Context} :
      Started env base (room + 1) starter account entered →
        Calls env (room + 1) account entered call context → call.AsksFor asked →
        chargeCall.Returns context () charged → charged.intent ≠ .readOnly →
        asked.viewProgram = true → charged.stack.length < stackLimit →
        Started env base room (some account) asked
          (charged.enter asked (littleEndian 4 0) [])

variable {env : Env} {room : Nat} {account : Account} {starter : Option Account}
  {base entered context : Context} {call : ProgramCall}

section Related

variable {rel : Context → Context → Prop} [Std.Refl rel] [IsTrans Context rel]

/-- A relation that all answers keep relates the beginning of a frame to its calls. -/
theorem Calls.related (calls : Calls env room account entered call context)
    (systemKeeps : ∀ call, (answers env room call).Keeps rel)
    (hostKeeps : ∀ call, (answerHost env.crypto
      (runProgramAt env room) call).Keeps rel) : rel entered context := by
  cases calls with
  | native _ reaches => exact reaches.related systemKeeps
  | host _ _ _ reaches => exact reaches.related hostKeeps

/-- What endures all calls endures up to every call of a frame. -/
theorem Endures.calls (endures : Endures env rel)
    (calls : Calls env room account entered call context) : rel entered context :=
  calls.related (endures.answerSystem (endures.runProgramAt room))
    (endures.answerHost (endures.runProgramAt room))

/-- What endures all calls endures from the root of a tree to every frame. -/
theorem Endures.started (endures : Endures env rel)
    (started : Started env base room starter account entered) : rel base entered := by
  have enters {mid charged : Context} {called : Account} {stdin : Bytes}
      {arguments : List Bytes} (paid : chargeCall.Returns mid () charged) :
      rel mid (charged.enter called stdin arguments) :=
    IsTrans.trans _ _ _ ((chargeCall_kept endures.overlooks).of_returns paid)
      (endures.stack charged _)
  induction started with
  | direct _ => exact endures.stack base _
  | called _ calls paid _ ih =>
    exact IsTrans.trans _ _ _ ih (IsTrans.trans _ _ _ (endures.calls calls) (enters paid))
  | asked _ calls _ paid _ _ _ ih =>
    exact IsTrans.trans _ _ _ ih (IsTrans.trans _ _ _ (endures.calls calls) (enters paid))

end Related

/-- The programs on the stack at a call are those at the beginning of the frame. -/
theorem Calls.programs (calls : Calls env room account entered call context)
    (top : (entered.stack.map StackFrame.programId).head? = some account) :
    context.stack.map StackFrame.programId = entered.stack.map StackFrame.programId := by
  have permits (program : Account) : Permits (fun _ => True) program := fun _ _ => trivial
  have asks (asked : Account) : (checkAuthority env.crypto
      (runProgramAt env room) asked).Keeps (FrameIn account fun _ => True) :=
    Context.frameIn (checkAuthority_modules (fun program _ => permits program) room asked)
  have runs (called : Account) (stdin : Bytes) (arguments : List Bytes) :
      (runProgramAt env room .relaxed called stdin arguments).Keeps
        (FrameIn account fun _ => True) :=
    Context.frameIn (runProgramAt_frame (fun program _ => permits program)
      (permits Context.coin) room _ _ _ _)
  have puts := putObject_frame (permits account)
  have frame : FrameIn account (fun _ => True) entered context := calls.related
    (answerSystem_kept frameIn_overlooks puts asks (removeObject_frame (permits account)) runs)
    (answerHost_kept frameIn_overlooks puts asks)
  exact (frame top).programs

/-- A program that is started at a call of another has the other's frame below its own. -/
theorem Calls.programs_enter {charged : Context} {below : List Account}
    (calls : Calls env room account entered call context)
    (beneath : entered.stack.map StackFrame.programId = account :: below)
    (paid : chargeCall.Returns context () charged) (called : Account) (stdin : Bytes)
    (arguments : List Bytes) :
    (charged.enter called stdin arguments).stack.map StackFrame.programId =
      called :: account :: below := by
  have same := calls.programs (by rw [beneath]; rfl)
  have quiet : Frame (fun _ => True) context charged := chargeCall_frame.of_returns paid
  rw [← beneath, ← same, ← quiet.programs]
  rfl

/-- The programs on the stack when a frame begins: its own above its starter's, or above what
was there when it was started directly. -/
theorem Started.programs (started : Started env base room starter account entered) :
    ∃ below, entered.stack.map StackFrame.programId = account :: below ∧
      (starter = none → below = base.stack.map StackFrame.programId) ∧
      ∀ program, starter = some program → below.head? = some program := by
  induction started with
  | direct _ =>
    refine ⟨_, rfl, fun _ => rfl, fun _ named => ?_⟩
    cases named
  | called _ calls paid _ ih =>
    obtain ⟨below, beneath, -⟩ := ih
    refine ⟨_, calls.programs_enter beneath paid _ _ _, fun direct => ?_, fun _ named => named⟩
    cases direct
  | asked _ calls _ paid _ _ _ ih =>
    obtain ⟨below, beneath, -⟩ := ih
    refine ⟨_, calls.programs_enter beneath paid _ _ _, fun direct => ?_, fun _ named => named⟩
    cases direct

/-- What `get_caller` is to answer in a frame: nothing when it was started directly, and
otherwise the account of the program that started it. -/
def callerOf : Option Account → Bytes
  | none => []
  | some starter => starter.1

/-- Callers tell the programs apart. -/
theorem callerOf_inj {first second : Option Account} :
    callerOf first = callerOf second ↔ first = second := by
  have nonempty (account : Account) : account.1 ≠ [] := by
    intro empty
    have counted := account.2
    rw [empty] at counted
    cases counted
  cases first with
  | none =>
    cases second with
    | none => exact iff_of_true rfl rfl
    | some account =>
      exact iff_of_false (nonempty account).symm (Option.some_ne_none account).symm
  | some account =>
    cases second with
    | none => exact iff_of_false (nonempty account) (Option.some_ne_none account)
    | some other =>
      rw [callerOf, callerOf, Option.some_inj]
      exact ⟨Subtype.ext, congrArg Subtype.val⟩

/-- `get_caller` answers with the program on top unless it is alone on the stack. -/
theorem getCaller_answer {below : List Account} {answer : Bytes} {after : Context}
    (stacked : context.stack.map StackFrame.programId = account :: below)
    (answered : getCaller.Returns context answer after) :
    answer = if below = [] then [] else account.1 := by
  obtain ⟨_, charged, paid, rest⟩ := returns_bind.mp answered
  have quiet : Frame (fun _ => True) context charged := chargeCall_frame.of_returns paid
  rw [← quiet.programs] at stacked
  cases stack : charged.stack with
  | nil =>
    rw [stack] at stacked
    cases stacked
  | cons frame others =>
    rw [stack, List.map_cons, List.cons.injEq] at stacked
    obtain ⟨rfl, rfl⟩ := stacked
    rw [Effect.Returns, read_bind, stack] at rest
    split at rest
    · rename_i alone
      have nothing : others = [] := by simpa using alone
      rw [nothing, List.map_nil, if_pos rfl]
      exact (returns_pure.mp rest).1
    · rename_i several
      have something : others ≠ [] := by simpa using several
      rw [if_neg (by simpa using something)]
      obtain ⟨found, _, peeked, ended⟩ := returns_bind.mp rest
      have isTop := (returns_peekFrame.mp peeked).1
      rw [stack] at isTop
      obtain rfl := Option.some.inj isTop
      exact (returns_pure.mp ended).1

/-- In every tree of runs that is started outside of any program, and at every call of every
frame in it, `get_caller` answers nothing in a frame that was started directly and the running
program itself in any other. So it names the starter exactly when the frame was started
directly or the program has started itself. -/
theorem caller_named_iff (outside : base.stack = [])
    (started : Started env base room starter account entered)
    (calls : Calls env room account entered call context) {answer : Bytes}
    {after : Context} (answered : getCaller.Returns context answer after) :
    answer = callerOf (starter.map fun _ => account) ∧
      (answer = callerOf starter ↔ starter = none ∨ starter = some account) := by
  obtain ⟨below, beneath, direct, nested⟩ := started.programs
  have stacked : context.stack.map StackFrame.programId = account :: below :=
    (calls.programs (by rw [beneath]; rfl)).trans beneath
  have given : answer = callerOf (starter.map fun _ => account) := by
    rw [getCaller_answer stacked answered]
    cases starter with
    | none => rw [direct rfl, outside, List.map_nil, if_pos rfl, Option.map_none, callerOf]
    | some program =>
      have above : below ≠ [] := by
        rintro rfl
        cases nested program rfl
      rw [if_neg above, Option.map_some, callerOf]
  refine ⟨given, ?_⟩
  rw [given, callerOf_inj]
  cases starter with
  | none => exact iff_of_true rfl (.inl rfl)
  | some program => simp [eq_comm]

/-- Two modules. -/
def relayId : Account := SizedBytes.fit 33 [1, 7]

def askedId : Account := SizedBytes.fit 33 [1, 8]

/-- One of the modules asks the other for authority; the other asks who called it. -/
def relaying : Env :=
  { Env.plain with
    runModule := fun _ bytecode =>
      if bytecode = [1] then .call (.checkAuthority askedId) fun _ => .done (.exited 0)
      else .call .getCaller fun _ => .done (.exited 0) }

/-- A block over a state in which both modules are stored. -/
def relayBlock : Context :=
  blockOn [(programKey relayId, (SizedBytes.zero 32).1 ++ [1]),
    (programKey askedId, (SizedBytes.zero 32).1 ++ [2])]

/-- The first module in its frame, started directly. -/
def relayEntered : Context := relayBlock.enter relayId [] []

/-- The other module in its frame, asked for its authority. -/
def askedEntered : Context :=
  (chargeCall relayEntered).2.enter askedId (littleEndian 4 0) []

theorem started_relay :
    Started relaying relayBlock stackLimit none relayId relayEntered :=
  .direct (by decide)

theorem calls_relay : Calls relaying stackLimit relayId relayEntered
    (.host (.checkAuthority askedId)) relayEntered := by
  have stored : (getState ObjectSpace.programData relayId.1).Returns relayEntered
      (some ((SizedBytes.zero 32).1 ++ [1])) relayEntered := Prod.ext (by decide +kernel) rfl
  exact .host rfl stored (by decide) .here

theorem started_asked :
    Started relaying relayBlock 31 (some relayId) askedId askedEntered := by
  have paid : chargeCall.Returns relayEntered () (chargeCall relayEntered).2 :=
    returns_of_fst (by decide +kernel)
  exact .asked started_relay calls_relay (.inr rfl) paid (by decide) (by decide) (by decide)

theorem calls_asked : Calls relaying 31 askedId askedEntered (.host .getCaller) askedEntered := by
  have stored : (getState ObjectSpace.programData askedId.1).Returns askedEntered
      (some ((SizedBytes.zero 32).1 ++ [2])) askedEntered := Prod.ext (by decide +kernel) rfl
  exact .host rfl stored (by decide) .here

/-- Asked for authority by the first module, the other one is told that it called itself. -/
theorem asked_module_is_its_own_caller :
    Started relaying relayBlock 31 (some relayId) askedId askedEntered ∧
      Calls relaying 31 askedId askedEntered (.host .getCaller) askedEntered ∧
      (∃ after, getCaller.Returns askedEntered askedId.1 after) ∧
      askedId.1 ≠ callerOf (some relayId) :=
  ⟨started_asked, calls_asked, ⟨_, returns_of_fst (by decide +kernel)⟩, by decide⟩

/-- A module that is started directly is told that nobody called it. -/
theorem caller_named_of_direct :
    Started relaying relayBlock stackLimit none relayId relayEntered ∧
      ∃ after, getCaller.Returns relayEntered (callerOf none) after := by
  have answered : getCaller.Returns relayEntered [] (getCaller relayEntered).2 :=
    returns_of_fst (by decide +kernel)
  have named := (caller_named_iff rfl started_relay calls_relay answered).2.mpr (.inl rfl)
  exact ⟨started_relay, _, named ▸ answered⟩

end Respublica.Controller
