import Respublica.Controller.Apply

/-!
# Relations that runs keep

Most calls of a program change nothing but the meter, the contents of the frame on top and
the record of finished frames. A relation between contexts that does not look at these is
kept by all such calls; it is kept by whole runs when writes to objects and the checking of
signatures keep it too. The lemmas are stated for the relation, so that every result about
what a run leaves alone is a few lines about writes and signatures.
-/

namespace Respublica.Controller

open Foundation Effect Crypto Program Protocol StateDb Context Meter

/-- A relation that does not look at what a call touches in passing. -/
structure Overlooks (rel : Context → Context → Prop) : Prop where
  meter : ∀ context meter, Meter.SparesStorage context.meter meter →
    rel context { context with meter := meter }
  contents : ∀ context (change : StackFrame → StackFrame),
    (∀ frame, (change frame).programId = frame.programId) →
      rel context { context with stack := context.stack.modify 0 change }
  record : ∀ context frames, rel context { context with frames := frames }

theorem keeps_andThen {rel : Context → Context → Prop} [Std.Refl rel]
    [IsTrans Context rel] {First Second : Type} {first : Run (Result First)}
    {next : First → Run (Result Second)}
    (firstKeeps : first.Keeps rel) (nextKeeps : ∀ value, (next value).Keeps rel) :
    (andThen first next).Keeps rel := by
  refine keeps_bind firstKeeps fun outcome => ?_
  cases outcome with
  | error error => exact keeps_pure _
  | ok value => exact nextKeeps value

namespace Context

variable {rel : Context → Context → Prop} [Std.Refl rel] [IsTrans Context rel]

section Calls

variable (overlooks : Overlooks rel)

include overlooks

omit [Std.Refl rel] [IsTrans Context rel] in
theorem onMeter_kept {Value : Type} {routine : Effect Fault Meter Value}
    (spares : routine.Keeps Meter.SparesStorage) : (onMeter routine).Keeps rel :=
  fun before => overlooks.meter before _ (spares before.meter)

theorem chargeCall_kept : chargeCall.Keeps rel :=
  keeps_bind (onMeter_kept overlooks (useComputeBandwidth_spares _)) fun _ =>
    keeps_pure _

omit overlooks in
theorem peekFrame_kept : peekFrame.Keeps rel :=
  keeps_bind keeps_read fun _ => keeps_expect _ _

omit overlooks in
theorem getState_kept (space : ObjectSpace) (key : Bytes) : (getState space key).Keeps rel :=
  keeps_bind keeps_read fun _ => keeps_ofExcept _

omit [Std.Refl rel] [IsTrans Context rel] in
/-- A change inside the frame on top is overlooked. -/
theorem updateFrame_kept {change : StackFrame → StackFrame}
    (same : ∀ frame, (change frame).programId = frame.programId) :
    (updateFrame change).Keeps rel :=
  keeps_modify fun context => overlooks.contents context change same

theorem arguments_kept : arguments.Keeps rel :=
  keeps_bind keeps_read fun _ => keeps_ite (keeps_fail _)
    (keeps_bind (chargeCall_kept overlooks) fun _ =>
      keeps_bind peekFrame_kept fun _ => keeps_pure _)

theorem write_kept (descriptor : FileDescriptor) (buffer : Bytes) :
    (write descriptor buffer).Keeps rel := by
  refine keeps_bind (chargeCall_kept overlooks) fun _ => ?_
  cases descriptor with
  | stdin => exact keeps_pure _
  | stdout =>
    exact keeps_bind peekFrame_kept fun _ =>
      keeps_bind (updateFrame_kept overlooks fun _ => rfl) fun _ => keeps_pure _
  | stderr =>
    exact keeps_bind peekFrame_kept fun _ =>
      keeps_bind (updateFrame_kept overlooks fun _ => rfl) fun _ => keeps_pure _

theorem read_kept (descriptor : FileDescriptor) (size : Nat) :
    (read descriptor size).Keeps rel := by
  refine keeps_bind (chargeCall_kept overlooks) fun _ => ?_
  cases descriptor with
  | stdin =>
    exact keeps_bind peekFrame_kept fun _ =>
      keeps_bind (updateFrame_kept overlooks fun _ => rfl) fun _ => keeps_pure _
  | stdout => exact keeps_pure _
  | stderr => exact keeps_pure _

omit overlooks in
theorem createObjectSpace_kept (id : UInt32) : (createObjectSpace id).Keeps rel :=
  keeps_bind peekFrame_kept fun _ => keeps_pure _

theorem getObject_kept (id : UInt32) (key : Bytes) : (getObject id key).Keeps rel :=
  keeps_bind (chargeCall_kept overlooks) fun _ =>
    keeps_bind (createObjectSpace_kept id) fun space =>
      keeps_bind (getState_kept space key) fun _ => keeps_pure _

theorem getNeighbour_kept (id : UInt32) (key : Bytes) : (getNeighbour id key).Keeps rel :=
  keeps_bind (chargeCall_kept overlooks) fun _ =>
    keeps_bind (createObjectSpace_kept id) fun _ => keeps_pure _

omit overlooks [Std.Refl rel] in
/-- A relation that does not look at the meter at all is kept by paying for a write. -/
theorem payment_kept {routine : Run Int} (writes : routine.Keeps rel)
    (pays : ∀ context meter, rel context { context with meter := meter }) :
    Effect.Keeps rel (do
      let size ← routine
      onMeter (useDiskStorage (UInt64.ofInt size))) :=
  keeps_bind writes fun _ before => pays before _

/-- Writing an object keeps what writing the state and paying for it keep. -/
theorem putObject_kept
    (stores : ∀ space key value, (do
      let size ← putState space key value
      onMeter (useDiskStorage (UInt64.ofInt size)) : Run ErrorCode).Keeps rel)
    (id : UInt32) (key value : Bytes) : (putObject id key value).Keeps rel :=
  keeps_bind (chargeCall_kept overlooks) fun _ =>
    keeps_bind (createObjectSpace_kept id) fun space => stores space key value

/-- A removal keeps what clearing and charging keep. -/
theorem removeObject_kept
    (clears : ∀ space key, (do
      let size ← removeState space key
      onMeter (useDiskStorage (UInt64.ofInt size)) : Run ErrorCode).Keeps rel)
    (id : UInt32) (key : Bytes) : (removeObject id key).Keeps rel :=
  keeps_bind (chargeCall_kept overlooks) fun _ =>
    keeps_bind (createObjectSpace_kept id) fun space => clears space key

theorem getCaller_kept : getCaller.Keeps rel :=
  keeps_bind (chargeCall_kept overlooks) fun _ => keeps_bind keeps_read fun _ =>
    keeps_ite (keeps_pure _)
      (keeps_bind peekFrame_kept fun _ => keeps_pure _)

theorem recordFrame_kept (account : Account) (stdin : Bytes) (arguments : List Bytes)
    (code : ErrorCode) : (recordFrame account stdin arguments code).Keeps rel :=
  keeps_bind peekFrame_kept fun _ =>
    keeps_bind (keeps_modify fun context => overlooks.record context _) fun _ =>
      keeps_pure _

omit overlooks in
/-- A relation that does not look at the verified signers is kept when signatures are checked. -/
theorem checkSignature_kept
    (signers : ∀ context verified, rel context { context with verifiedSignatures := verified })
    (crypto : Primitives) (account : Account) :
    (checkSignature crypto account).Keeps rel := by
  have scans (id : Digest) (authorizations : List Authorization) :
      (scanAuthorizations crypto id account authorizations).Keeps rel := by
    induction authorizations with
    | nil => exact keeps_pure _
    | cons authorization rest ih =>
      refine keeps_ite ?_ (keeps_pure _)
      exact keeps_bind (keeps_modify fun context => signers context _) fun _ =>
        keeps_ite (keeps_pure _) ih
  exact keeps_bind keeps_read fun _ =>
    keeps_bind (keeps_expect _ _) fun _ =>
      keeps_ite (keeps_pure _) (scans _ _)

/-- Asking for authority keeps what checking signatures and running the asked programs keep. -/
theorem checkAuthority_kept {crypto : Primitives} {run : Runner} {account : Account}
    (signs : account.viewProgram = false → (checkSignature crypto account).Keeps rel)
    (runs : account.viewProgram = true → (run .strict account (littleEndian 4 0) []).Keeps rel) :
    (checkAuthority crypto run account).Keeps rel := by
  refine keeps_bind (chargeCall_kept overlooks) fun _ =>
    keeps_bind keeps_read fun _ => keeps_ite (keeps_pure _) ?_
  split
  · rename_i isProgram
    exact keeps_bind (runs isProgram) fun _ => keeps_pure _
  · rename_i isProgram
    exact signs (by simpa using isProgram)

section Programs

variable {env : Env} {run : Runner}
  (puts : ∀ id key value, (putObject id key value).Keeps rel)
  (asks : ∀ account, (checkAuthority env.crypto run account).Keeps rel)

include puts asks

/-- Host calls keep what writes and programs keep. -/
theorem answerHost_kept (call : HostCall) :
    (answerHost env.crypto run call).Keeps rel := by
  cases call with
  | arguments => exact arguments_kept overlooks
  | write descriptor buffer => exact write_kept overlooks descriptor buffer
  | read descriptor size => exact read_kept overlooks descriptor size
  | getCaller => exact getCaller_kept overlooks
  | getObject id key => exact getObject_kept overlooks id key
  | putObject id key value => exact puts id key value
  | checkAuthority account => exact asks account
  | getMeterTicks => exact keeps_bind keeps_read fun _ => keeps_pure _
  | useMeterTicks ticks => exact onMeter_kept overlooks (useComputeBandwidth_spares _)

theorem executeUserProgram_kept (account : Account) :
    (executeUserProgram env run account).Keeps rel := by
  refine keeps_onFault (keeps_bind (getState_kept _ _) fun object => ?_)
  cases object with
  | none => exact keeps_pure _
  | some object =>
    exact keeps_ite (keeps_fail _)
      (Interaction.interpret_keeps (answerHost_kept overlooks puts asks) _)

variable (removes : ∀ id key, (removeObject id key).Keeps rel)
  (runs : ∀ account stdin arguments, (run .relaxed account stdin arguments).Keeps rel)

include removes runs

/-- System calls keep what writes and programs keep. -/
theorem answerSystem_kept (call : SystemCall) :
    (answerSystem env.crypto run call).Keeps rel := by
  cases call with
  | arguments => exact arguments_kept overlooks
  | write descriptor buffer => exact write_kept overlooks descriptor buffer
  | read descriptor size => exact read_kept overlooks descriptor size
  | getObject id key => exact getObject_kept overlooks id key
  | getNextObject id key => exact getNeighbour_kept overlooks id key
  | getPrevObject id key => exact getNeighbour_kept overlooks id key
  | putObject id key value => exact puts id key value
  | removeObject id key => exact removes id key
  | checkAuthority account => exact asks account
  | getCaller => exact getCaller_kept overlooks
  | callProgram account stdin arguments =>
    exact keeps_bind (chargeCall_kept overlooks) fun _ => runs account stdin arguments

/-- The coin program keeps what its calls keep. -/
theorem interpretCoin_kept :
    Effect.Keeps rel (do
      let context ← Effect.read
      Interaction.interpret (answerSystem env.crypto run)
        (Coin.run (env.locals context))) :=
  keeps_bind keeps_read fun _ =>
    Interaction.interpret_keeps (answerSystem_kept overlooks puts asks removes runs) _

end Programs

/-- What a program keeps in its frame, its starter keeps there. -/
theorem inOwnFrame_kept {env : Env} {run : Runner} {account : Account}
    (executes : (executeProgram env run account).Keeps rel) (tolerance : Tolerance)
    (stdin : Bytes) (arguments : List Bytes) :
    (inOwnFrame env run tolerance account stdin arguments).Keeps rel :=
  keeps_bind executes fun _ => keeps_ite (keeps_pure _)
    (keeps_bind (recordFrame_kept overlooks _ _ _ _) fun _ => keeps_pure _)

end Calls

variable {env : Env}

section Transactions

/-- Requiring authority keeps what asking keeps. -/
theorem requireAuthority_kept {account : Account}
    (asks : (authority env account).Keeps rel) :
    (requireAuthority env account).Keeps rel := by
  refine keeps_bind asks fun answer => ?_
  rcases answer with error | (_ | _) <;> exact keeps_pure _

/-- A transaction asks its payer, and its payee if that takes the nonce. -/
theorem authorizeTransaction_kept {tx : Transaction}
    (payer : (requireAuthority env tx.payer).Keeps rel)
    (payee : Transaction.usePayeeNonce tx = true → (requireAuthority env tx.payee).Keeps rel) :
    (authorizeTransaction env tx).Keeps rel := by
  refine keeps_ite (keeps_pure _) (keeps_andThen payer fun _ => ?_)
  split
  · exact payee ‹_›
  · exact keeps_pure _

/-- Asking accounts that sign keeps what calls and taking signers as verified keep. -/
theorem authorizeTransaction_of_signers (overlooks : Overlooks rel)
    (signers : ∀ context verified, rel context { context with verifiedSignatures := verified })
    {tx : Transaction} (payerSigns : tx.payer.viewProgram = false)
    (payeeSigns : tx.payee.viewProgram = false) :
    (authorizeTransaction env tx).Keeps rel := by
  have asks {account : Account} (signs : account.viewProgram = false) :
      (requireAuthority env account).Keeps rel := by
    refine requireAuthority_kept (checkAuthority_kept overlooks ?_ fun isProgram => ?_)
    · exact fun _ => checkSignature_kept signers _ _
    · exact absurd (signs.symm.trans isProgram) Bool.false_ne_true
  exact authorizeTransaction_kept (asks payerSigns) fun _ => asks payeeSigns

theorem accountNonce_kept (account : Account) : (accountNonce account).Keeps rel := by
  refine keeps_bind (getState_kept _ _) fun found => ?_
  cases found with
  | none => exact keeps_pure _
  | some bytes => exact keeps_ite (keeps_fail _) (keeps_pure _)

/-- Charging a transaction keeps what setting its nonce keeps. -/
theorem chargeTransaction_kept (overlooks : Overlooks rel) {tx : Transaction}
    (sets : ∀ nonce, (setAccountNonce (Transaction.nonceAccount tx) nonce).Keeps rel) :
    (chargeTransaction tx).Keeps rel := by
  refine keeps_bind (accountNonce_kept _) fun nonce => ?_
  refine keeps_ite (keeps_pure _) (keeps_andThen ?_ fun _ => ?_)
  · exact keeps_bind (sets _) fun _ => keeps_pure _
  · exact keeps_bind (onMeter_kept overlooks (useNetworkBandwidth_spares _)) fun _ =>
      keeps_pure _

variable (requires : ∀ account, (requireAuthority env account).Keeps rel)
  (puts : ∀ (id : Account) (value : Bytes), (putState ObjectSpace.programData id.1 value).Keeps rel)
  (runs : ∀ account stdin arguments, (runProgram env .strict account stdin arguments).Keeps rel)

include requires puts runs

/-- Operations keep what their writes and programs keep. -/
theorem applyOperation_kept (operation : Operation) :
    (applyOperation env operation).Keeps rel := by
  cases operation with
  | uploadProgram id bytecode =>
    refine keeps_bind (getState_kept _ _) fun existing =>
      keeps_bind (requires _) fun answer => ?_
    cases answer with
    | error error => exact keeps_pure _
    | ok value => exact keeps_bind (puts id _) fun _ => keeps_pure _
  | callProgram id input =>
    refine keeps_bind (runs _ _ _) fun outcome => ?_
    cases outcome with
    | error error => exact keeps_pure _
    | ok output => exact keeps_pure _

theorem applyOperations_kept (operations : List Operation) :
    (applyOperations env operations).Keeps rel := by
  induction operations with
  | nil => exact keeps_pure _
  | cons operation rest ih =>
    exact keeps_bind (applyOperation_kept requires puts runs operation) fun _ =>
      keeps_ite (keeps_pure _) ih

end Transactions

variable (env) in
/-- `run_program`, given what the runs nested in it do. -/
def runProgramBody (run : Runner) : Runner := fun tolerance account stdin arguments => do
  let pushed ← pushFrame ⟨account, arguments, stdin, [], [], 0⟩
  if pushed.failed then pure (.error pushed)
  else Effect.ensuring popFrame do
    inOwnFrame env run tolerance account stdin arguments

/-- Running a program is an overflow, or a stay in a frame of its own. -/
theorem runProgramBody_eq (run : Runner) (tolerance : Tolerance) (account : Account) (stdin : Bytes)
    (arguments : List Bytes) (before : Context) :
    runProgramBody env run tolerance account stdin arguments before =
      if stackLimit ≤ before.stack.length then (.ok (.error (.controller .stackOverflow)), before)
      else Effect.ensuring popFrame
        (inOwnFrame env run tolerance account stdin arguments)
        { before with stack := ⟨account, arguments, stdin, [], [], 0⟩ :: before.stack } := by
  have pushed : (pushFrame ⟨account, arguments, stdin, [], [], 0⟩).Returns before
      (if stackLimit ≤ before.stack.length then .controller .stackOverflow else .controller .ok)
      (if stackLimit ≤ before.stack.length then before else
        { before with stack := ⟨account, arguments, stdin, [], [], 0⟩ :: before.stack }) := by
    simp only [pushFrame, returns_bind, returns_read, returns_ite]
    refine ⟨before, before, ⟨rfl, rfl⟩, ?_⟩
    split <;> simp
  refine (pushed.bind_eq _).trans ?_
  split
  · rfl
  · rfl

/-- With room left, a program runs on its own frame, unless the stack is full. -/
theorem runProgramAt_succ (room : Nat) (tolerance : Tolerance) (account : Account) (stdin : Bytes)
    (arguments : List Bytes) (before : Context) :
    runProgramAt env (room + 1) tolerance account stdin arguments before =
      if stackLimit ≤ before.stack.length then (.ok (.error (.controller .stackOverflow)), before)
      else Effect.ensuring popFrame
        (inOwnFrame env (runProgramAt env room) tolerance account stdin arguments)
        { before with stack := ⟨account, arguments, stdin, [], [], 0⟩ :: before.stack } :=
  runProgramBody_eq (runProgramAt env room) tolerance account stdin arguments before

end Context

/-- A relation that does not look at the stack either, and that writes and the checking of
signatures keep. -/
structure Endures (env : Env) (rel : Context → Context → Prop) : Prop where
  meter : ∀ context meter, Meter.SparesStorage context.meter meter →
    rel context { context with meter := meter }
  stack : ∀ context stack, rel context { context with stack := stack }
  record : ∀ context frames, rel context { context with frames := frames }
  signs : ∀ account, (checkSignature env.crypto account).Keeps rel
  puts : ∀ id key value, (putObject id key value).Keeps rel
  removes : ∀ id key, (removeObject id key).Keeps rel

namespace Endures

variable {env : Env} {rel : Context → Context → Prop} [Std.Refl rel]
  [IsTrans Context rel]

omit [Std.Refl rel] [IsTrans Context rel] in
theorem overlooks (endures : Endures env rel) : Overlooks rel :=
  ⟨endures.meter, fun context _ _ => endures.stack context _, endures.record⟩

section Answers

variable {run : Runner} (endures : Endures env rel)
  (runs : ∀ tolerance account stdin arguments, (run tolerance account stdin arguments).Keeps rel)

include endures runs

/-- Whatever endures is kept by asking for authority. -/
theorem checkAuthority (account : Account) :
    (checkAuthority env.crypto run account).Keeps rel :=
  checkAuthority_kept endures.overlooks (fun _ => endures.signs account)
    fun _ => runs _ _ _ _

/-- Such a relation is kept by every answer to a module. -/
theorem answerHost (call : HostCall) :
    (answerHost env.crypto run call).Keeps rel :=
  answerHost_kept endures.overlooks endures.puts (endures.checkAuthority runs) call

/-- Such a relation is kept by every answer to a native program. -/
theorem answerSystem (call : SystemCall) :
    (answerSystem env.crypto run call).Keeps rel :=
  answerSystem_kept endures.overlooks endures.puts (endures.checkAuthority runs)
    endures.removes (runs .relaxed) call

/-- Whatever endures is kept by programs. -/
theorem executeProgram (account : Account) :
    (executeProgram env run account).Keeps rel := by
  have asks := endures.checkAuthority runs
  unfold Context.executeProgram Context.executeNativeProgram
  split
  · exact executeUserProgram_kept endures.overlooks endures.puts asks account
  · refine keeps_onFault (keeps_ite ?_ (keeps_pure _))
    exact interpretCoin_kept endures.overlooks endures.puts asks endures.removes
      (runs .relaxed)
  · exact keeps_pure _

end Answers

/-- Such a relation is kept by every run of a program, whatever its exit. The induction is on
the room on the stack. -/
theorem runProgramAt (endures : Endures env rel) (room : Nat) :
    ∀ (tolerance : Tolerance) (account : Account) (stdin : Bytes) (arguments : List Bytes),
      (runProgramAt env room tolerance account stdin arguments).Keeps rel := by
  induction room with
  | zero => exact fun _ _ _ _ => keeps_pure _
  | succ room ih =>
    intro tolerance account stdin arguments before
    rw [runProgramAt_succ]
    split
    · exact Std.Refl.refl _
    · let entered : Context :=
        { before with stack := ⟨account, arguments, stdin, [], [], 0⟩ :: before.stack }
      have inside := inOwnFrame_kept endures.overlooks (endures.executeProgram ih account)
        tolerance stdin arguments entered
      exact IsTrans.trans _ _ _ (endures.stack before _)
        (IsTrans.trans _ _ _ inside (endures.stack _ _))

theorem authority (endures : Endures env rel) (account : Account) :
    (authority env account).Keeps rel :=
  endures.checkAuthority (endures.runProgramAt _) account

theorem requireAuthority (endures : Endures env rel) (account : Account) :
    (requireAuthority env account).Keeps rel :=
  requireAuthority_kept (endures.authority account)

theorem authorizeTransaction (endures : Endures env rel) (tx : Transaction) :
    (authorizeTransaction env tx).Keeps rel :=
  authorizeTransaction_kept (endures.requireAuthority _) fun _ => endures.requireAuthority _

end Endures

/-- A property of contexts that depends on the transaction, the intent, the limits of the meter
and the verified signers alone. -/
def OfTransaction (property : Context → Prop) : Prop :=
  ∀ ⦃before after : Context⦄, after.transaction = before.transaction →
    after.intent = before.intent → after.meter.limits = before.meter.limits →
      after.verifiedSignatures = before.verifiedSignatures → property before → property after

namespace OfTransaction

variable {env : Env} {property : Context → Prop}
  (ofTransaction : OfTransaction property)

include ofTransaction

theorem moved (context : Context) (heap : Heap) (node : Nat) :
    Preserving property context { context with heap := heap, stateNode := node } :=
  ofTransaction rfl rfl rfl rfl

theorem spent {context : Context} {meter : Meter} (spent : Meter.Spent context.meter meter) :
    Preserving property context { context with meter := meter } :=
  ofTransaction rfl rfl spent.limits rfl

theorem overlooks : Overlooks (Preserving property) :=
  ⟨fun _ _ spared => ofTransaction.spent spared.spent, fun _ _ _ => ofTransaction rfl rfl rfl rfl,
    fun _ _ => ofTransaction rfl rfl rfl rfl⟩

theorem putState (space : ObjectSpace) (key value : Bytes) :
    (putState space key value).Keeps (Preserving property) :=
  fun context => ofTransaction.moved context _ context.stateNode

theorem removeState (space : ObjectSpace) (key : Bytes) :
    (removeState space key).Keeps (Preserving property) :=
  fun context => ofTransaction.moved context _ context.stateNode

theorem payment {routine : Run Int} (writes : routine.Keeps (Preserving property)) :
    Effect.Keeps (Preserving property) (do
      let size ← routine
      onMeter (useDiskStorage (UInt64.ofInt size))) :=
  keeps_bind writes fun _ context =>
    ofTransaction.spent (use_spends _ _ context.meter)

/-- The checking of signatures apart, programs do not change what such a property is about. -/
theorem endures (signs : ∀ account, (checkSignature env.crypto account).Keeps
    (Preserving property)) : Endures env (Preserving property) where
  meter _ _ spared := ofTransaction.spent spared.spent
  stack _ _ := ofTransaction rfl rfl rfl rfl
  record := ofTransaction.overlooks.record
  signs := signs
  puts := putObject_kept ofTransaction.overlooks fun _ _ _ =>
    ofTransaction.payment (ofTransaction.putState _ _ _)
  removes := removeObject_kept ofTransaction.overlooks fun _ _ =>
    ofTransaction.payment (ofTransaction.removeState _ _)

theorem applyOperation (endures : Endures env (Preserving property))
    (operation : Operation) :
    (applyOperation env operation).Keeps (Preserving property) :=
  applyOperation_kept endures.requireAuthority (fun _ _ => ofTransaction.putState _ _ _)
    (endures.runProgramAt fullRoom .strict) operation

theorem chargeTransaction (tx : Transaction) :
    (chargeTransaction tx).Keeps (Preserving property) :=
  chargeTransaction_kept ofTransaction.overlooks fun _ =>
    ofTransaction.payment (ofTransaction.putState _ _ _)

end OfTransaction

end Respublica.Controller
