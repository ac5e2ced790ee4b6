import Respublica.Controller.ProgramAuthority

/-!
# Reverted transactions

The operations of a transaction run on a node that is dropped when they fail. Authority is
asked for before that, on the node of the block, and asking a module account runs the module
there. So what a reverted transaction leaves behind is its nonce and what the modules of payer
and payee, and those they ask in turn, have put.

Modules are programs over the host interface, so what one may put on some path, and what it
must put on every path, is read off the module as it is stored.
-/

namespace Respublica.Controller.Revert

open Foundation Effect Program Protocol StateDb Context

/-- The module in an object as programs are stored. -/
def storedModule (env : Env) (object : Bytes) : UserProgram :=
  env.runModule (object.take 32) (object.drop 32)

/-- What asking an account may put into a state: an object that its module may put, or that
asking another account may put which the module may ask. -/
inductive MayPut (env : Env) (shown : Bytes → Option Bytes) :
    Account → Bytes → Bytes → Prop where
  | puts {account : Account} {object key value : Bytes} {id : UInt32} :
      account.type = .program → shown (programKey account) = some object →
        (storedModule env object).MayIssue (.putObject id key value) →
        MayPut env shown account (makeCompoundKey (ObjectSpace.ofProgram account id) key) value
  | asks {account asked : Account} {object key value : Bytes} :
      account.type = .program → shown (programKey account) = some object →
        (storedModule env object).MayIssue (.checkAuthority asked) →
        MayPut env shown asked key value → MayPut env shown account key value

/-- What the module of an account puts before it is done, whatever it is answered. -/
inductive MustPut (env : Env) (shown : Bytes → Option Bytes) (account : Account) :
    Bytes → Bytes → Prop where
  | puts {object key value : Bytes} {id : UInt32} :
      account.type = .program → shown (programKey account) = some object →
        (storedModule env object).MustIssue (.putObject id key value) →
        MustPut env shown account (makeCompoundKey (ObjectSpace.ofProgram account id) key) value

variable {account program : Account} {key value : Bytes} {id : UInt32} {room : Nat}
  {code : ErrorCode}

/-- Only the accounts of modules put anything. -/
theorem MayPut.type {env : Env} {shown : Bytes → Option Bytes}
    (may : MayPut env shown account key value) : account.type = .program := by
  cases may with
  | puts type _ _ => exact type
  | asks type _ _ _ => exact type

theorem MustPut.moduleKey {env : Env} {shown : Bytes → Option Bytes}
    (must : MustPut env shown account key value) : ModuleKey key := by
  cases must with
  | puts type _ _ => exact permits_moduleKey type _ _

/-- The accounts a transaction needs the authority of: the payer and, if it takes the nonce, the
payee. -/
def Asked (tx : Transaction) (account : Account) : Prop :=
  account = tx.payer ∨ Transaction.usePayeeNonce tx = true ∧ account = tx.payee

/-- What the authority of a transaction may leave under a key. -/
def MayLeave (env : Env) (shown : Bytes → Option Bytes) (tx : Transaction)
    (key value : Bytes) : Prop :=
  ∃ account, Asked tx account ∧ MayPut env shown account key value

/-- What the authority of a transaction is sure to leave under a key: a value that one of the
modules must put, and instead of which none of them may put another. -/
def MustLeave (env : Env) (shown : Bytes → Option Bytes) (tx : Transaction)
    (key value : Bytes) : Prop :=
  (∃ account, Asked tx account ∧ MustPut env shown account key value) ∧
    ∀ other, MayLeave env shown tx key other → other = value

variable {env : Env} {tx : Transaction} {before mid authorized after : Context}
  {receipt : TransactionReceipt} {shown : Bytes → Option Bytes} {puts : Bytes → Bytes → Prop}
  {top : Option Account}

/-! What asking for authority leaves behind -/

/-- A context is as before, but for the objects of modules, which are as before or among the
given ones. -/
structure Left (puts : Bytes → Bytes → Prop) (before after : Context) : Prop where
  frame : Frame ModuleKey before after
  shows : ∀ key, after.view key = before.view key ∨
    ∃ value, puts key value ∧ after.view key = some value

instance : Std.Refl (Left puts) := ⟨fun _ => ⟨Std.Refl.refl _, fun _ => .inl rfl⟩⟩

instance : IsTrans Context (Left puts) where
  trans _ _ _ left right := ⟨IsTrans.trans _ _ _ left.frame right.frame, fun key =>
    (right.shows key).elim (fun same => same ▸ left.shows key) .inr⟩

/-- Programs are not objects of modules. -/
theorem Left.stored (left : Left puts before after)
    (stored : ∀ account, before.view (programKey account) = shown (programKey account))
    (account : Account) : after.view (programKey account) = shown (programKey account) := by
  rw [left.frame.view fun isModule => not_objectKey_programKey account
    (objectKey_of_moduleKey isModule)]
  exact stored account

/-- The same of a context that shows the given programs and has the given one on top of its
stack. -/
def Leaves (top : Option Account) (shown : Bytes → Option Bytes) (puts : Bytes → Bytes → Prop)
    (before after : Context) : Prop :=
  (∀ program, top = some program → (before.stack.map StackFrame.programId).head? = some program) →
    (∀ account, before.view (programKey account) = shown (programKey account)) →
      Left puts before after

instance : Std.Refl (Leaves top shown puts) := ⟨fun _ _ _ => Std.Refl.refl _⟩

/-- What is left is such a context again. -/
theorem Leaves.onward {final : Context} (second : Leaves top shown puts mid final)
    (left : Left puts before mid)
    (running : ∀ program, top = some program →
      (before.stack.map StackFrame.programId).head? = some program)
    (stored : ∀ account, before.view (programKey account) = shown (programKey account)) :
    Left puts mid final := by
  refine second (fun program isTop => ?_) (left.stored stored)
  rw [left.frame.programs]
  exact running program isTop

instance : IsTrans Context (Leaves top shown puts) where
  trans _ _ _ first second running stored := by
    have left := first running stored
    exact IsTrans.trans _ _ _ left (second.onward left running stored)

theorem leaves_overlooks : Overlooks (Leaves top shown puts) where
  meter _ _ spared _ _ := ⟨frame_overlooks.meter _ _ spared, fun _ => .inl rfl⟩
  contents _ _ same _ _ := ⟨frame_overlooks.contents _ _ same, fun _ => .inl rfl⟩
  record _ _ _ _ := ⟨frame_overlooks.record _ _, fun _ => .inl rfl⟩

/-- A write leaves the object it puts, or nothing when it is stopped. -/
theorem putState_left {space : ObjectSpace} (isModule : ModuleKey (makeCompoundKey space key))
    (inside : puts (makeCompoundKey space key) value) :
    (putState space key value).Keeps (Left puts) := by
  intro before
  refine ⟨putState_frame value isModule before, fun other => ?_⟩
  have moved : (putState space key value before).2.view =
      (Heap.put before.stateNode (makeCompoundKey space key) value before.heap).2.view
        before.stateNode := rfl
  rw [moved]
  obtain ⟨size, stored, gave⟩ | ⟨fault, stopped⟩ :=
    Heap.put_outcome before.stateNode (makeCompoundKey space key) value before.heap
  · rw [show (Heap.put _ _ value before.heap).2 = stored from congrArg Prod.snd gave,
      Heap.view_of_put gave]
    by_cases same : other = makeCompoundKey space key
    · subst same
      exact .inr ⟨value, inside, Function.update_self _ _ _⟩
    · exact .inl (Function.update_of_ne same _ _)
  · rw [stopped]
    exact .inl rfl

/-- A module puts objects of its own. -/
theorem putObject_leaves (type : program.type = .program)
    (inside : puts (makeCompoundKey (ObjectSpace.ofProgram program id) key) value) :
    (putObject id key value).Keeps (Leaves (some program) shown puts) := by
  refine keeps_bind (chargeCall_kept leaves_overlooks) fun _ before running stored => ?_
  refine related_bind (createObjectSpace_kept id before) fun space mid created => ?_
  obtain ⟨rfl, rfl⟩ := returns_createObjectSpace (running program rfl) created
  refine keeps_bind (putState_left (permits_moduleKey type id key) inside) (fun _ context => ?_)
    mid
  exact ⟨onMeter_frame (Meter.use_spends _ _) context, fun _ => .inl rfl⟩

/-- More may be left. -/
theorem Leaves.mono {wider : Bytes → Bytes → Prop} (leaves : Leaves none shown puts before after)
    (weaker : ∀ key value, puts key value → wider key value) :
    Leaves top shown wider before after := fun _ stored =>
  have left := leaves (fun _ none => nomatch none) stored
  ⟨left.frame, fun key => (left.shows key).imp_right fun ⟨value, given, shows⟩ =>
    ⟨value, weaker key value given, shows⟩⟩

/-- Asking an account leaves what running it leaves. -/
theorem checkAuthority_leaves {run : Runner}
    (runs : account.viewProgram = true →
      (run .strict account (littleEndian 4 0) []).Keeps (Leaves none shown puts)) :
    (checkAuthority env.crypto run account).Keeps (Leaves none shown puts) := by
  refine checkAuthority_kept leaves_overlooks (fun _ => ?_) runs
  exact checkSignature_kept (fun _ _ _ _ =>
    ⟨⟨rfl, Std.Refl.refl _, rfl, rfl, rfl, Std.Refl.refl _⟩, fun _ => .inl rfl⟩) _ _

section Modules

variable {run : Runner} {account : Account} {object : Bytes}
  (type : account.type = .program) (stored : shown (programKey account) = some object)
  (asks : ∀ asked, (checkAuthority env.crypto run asked).Keeps
    (Leaves none shown (MayPut env shown asked)))

include type stored asks

/-- The answers to the calls a module may issue leave what asking its account may put. -/
theorem answerHost_leaves (call : HostCall) (issued : (storedModule env object).MayIssue call) :
    (answerHost env.crypto run call).Keeps
      (Leaves (some account) shown (MayPut env shown account)) := by
  cases call with
  | putObject id key value => exact putObject_leaves type (.puts type stored issued)
  | checkAuthority asked =>
    exact fun before => (asks asked before).mono fun _ _ given => .asks type stored issued given
  | arguments => exact arguments_kept leaves_overlooks
  | write descriptor buffer => exact write_kept leaves_overlooks descriptor buffer
  | read descriptor size => exact read_kept leaves_overlooks descriptor size
  | getCaller => exact getCaller_kept leaves_overlooks
  | getObject id key => exact getObject_kept leaves_overlooks id key
  | getMeterTicks => exact keeps_bind keeps_read fun _ => keeps_pure _
  | useMeterTicks ticks =>
    exact onMeter_kept leaves_overlooks (Meter.useComputeBandwidth_spares _)

omit stored in
/-- A module leaves what it may put. -/
theorem executeUserProgram_leaves :
    (executeUserProgram env run account).Keeps
      (Leaves (some account) shown (MayPut env shown account)) := by
  refine keeps_onFault fun before running stored => ?_
  refine related_bind (getState_kept _ _ before) fun found mid got => ?_
  obtain ⟨rfl, given⟩ := view_of_getState got
  cases found with
  | none => exact Std.Refl.refl _
  | some object =>
    have shows : shown (programKey account) = some object := (stored account).symm.trans given
    dsimp only
    split
    · exact Std.Refl.refl _
    · exact (Interaction.issues_mayIssue _).interpret_keeps (answerHost_leaves type shows asks) _
        running stored

end Modules

/-- A run leaves what its program leaves in its frame. -/
theorem runProgramAt_leaves
    (executes : (executeProgram env (runProgramAt env room) account).Keeps (Leaves
      (some account) shown puts))
    (tolerance : Tolerance) (stdin : Bytes) (arguments : List Bytes) :
    (runProgramAt env (room + 1) tolerance account stdin arguments).Keeps
      (Leaves none shown puts) := by
  intro before _ stored
  rw [runProgramAt_succ]
  split
  · exact Std.Refl.refl _
  · have left := inOwnFrame_kept leaves_overlooks executes tolerance stdin arguments
      { before with stack := ⟨account, arguments, stdin, [], [], 0⟩ :: before.stack }
      (fun _ isTop => Option.some.inj isTop ▸ rfl) stored
    exact ⟨left.frame.popped, left.shows⟩

/-- Modules run by asking each other, and each leaves what its account may put. The induction is
on the room on the stack. -/
theorem runModule_leaves (room : Nat) : ∀ (account : Account), account.type ≠ .nativeProgram →
    ∀ (tolerance : Tolerance) (stdin : Bytes) (arguments : List Bytes),
      (runProgramAt env room tolerance account stdin arguments).Keeps
        (Leaves none shown (MayPut env shown account)) := by
  induction room with
  | zero => exact fun _ _ _ _ _ => keeps_pure _
  | succ room ih =>
    intro account notNative
    refine runProgramAt_leaves ?_
    unfold executeProgram
    cases type : account.type with
    | program =>
      refine executeUserProgram_leaves type fun asked => checkAuthority_leaves fun isProgram =>
        ?_
      refine ih asked ?_ _ _ _
      rcases type_of_viewProgram isProgram with type | type <;> simp [type]
    | nativeProgram => exact absurd type notNative
    | user => exact keeps_pure _
    | invalid => exact keeps_pure _

/-- Asking an account leaves what it may put. -/
theorem authority_leaves (room : Nat) (account : Account) :
    (checkAuthority env.crypto (runProgramAt env room) account).Keeps
      (Leaves none shown (MayPut env shown account)) := by
  refine checkAuthority_leaves fun isProgram => runModule_leaves room account ?_ _ _ _
  rcases type_of_viewProgram isProgram with type | type <;> simp [type]

/-- Authority leaves what the accounts asked may put. -/
theorem requireAuthority_leaves (asked : Asked tx account) :
    (requireAuthority env account).Keeps (Leaves none shown (MayLeave env shown tx)) := by
  refine requireAuthority_kept fun before => ?_
  exact (authority_leaves fullRoom account before).mono fun _ _ given => ⟨_, asked, given⟩

/-- Asking the accounts of a transaction leaves what their modules may put. -/
theorem authorizeTransaction_leaves :
    (authorizeTransaction env tx).Keeps (Leaves none shown (MayLeave env shown tx)) :=
  authorizeTransaction_kept (requireAuthority_leaves (.inl rfl)) fun takesNonce =>
    requireAuthority_leaves (.inr ⟨takesNonce, rfl⟩)

/-! What modules are sure to leave behind -/

/-- An object that was put is shown. -/
theorem view_of_object_put (running : (before.stack.map StackFrame.programId).head? = some program)
    (gave : (putObject id key value).Returns before code after) :
    after.view (makeCompoundKey (ObjectSpace.ofProgram program id) key) = some value := by
  obtain ⟨_, charged, paid, writes⟩ := returns_bind.mp gave
  have stillRunning : (charged.stack.map StackFrame.programId).head? = some program := by
    rw [eq_of_chargeCall paid, running]
  obtain ⟨space, made, created, pays⟩ := returns_bind.mp writes
  obtain ⟨rfl, rfl⟩ := returns_createObjectSpace stillRunning created
  obtain ⟨size, written, stores, metered⟩ := returns_bind.mp pays
  obtain ⟨_, _, reads, puts⟩ := returns_bind.mp stores
  obtain ⟨rfl, rfl⟩ := returns_read.mp reads
  obtain ⟨heap, put, rfl⟩ := returns_within.mp puts
  obtain ⟨meter, -, rfl⟩ := returns_onMeter.mp metered
  exact (congrFun (Heap.view_of_put put) _).trans (Function.update_self _ _ _)

/-- What a module must put is there when it is done, if it may put nothing else there. -/
theorem view_of_executed_module (must : MustPut env shown account key value)
    (only : ∀ other, MayPut env shown account key other → other = value)
    (running : (before.stack.map StackFrame.programId).head? = some account)
    (stored : ∀ account, before.view (programKey account) = shown (programKey account))
    (executed : (executeProgram env (runProgramAt env room) account).Returns before code after) :
    after.view key = some value := by
  obtain @⟨object, key, value, id, type, shows, issues⟩ := must
  simp only [executeProgram, type, executeUserProgram, returns_onFault] at executed
  obtain ⟨found, _, got, runs⟩ := returns_bind.mp executed
  obtain ⟨same, given⟩ := view_of_getState got
  rw [same, given.symm.trans ((stored account).trans shows)] at runs
  dsimp only at runs
  split at runs
  · exact absurd runs not_returns_fail
  have top : ∀ program, some account = some program →
      (before.stack.map StackFrame.programId).head? = some program :=
    fun _ isTop => isTop ▸ running
  obtain ⟨asked, answer, left, reaches, puts, leaves, ends⟩ := issues.answered
    (Interaction.issues_mayIssue _) (answerHost_leaves type shows (authority_leaves room)) runs
  have shown : left.view _ = some value :=
    view_of_object_put (by rw [(reaches top stored).frame.programs, running]) puts
  rcases (ends.onward (leaves top stored) top stored).shows _ with same | ⟨other, given, later⟩
  · rw [same, shown]
  · rw [later, only other given]

/-- What a module must put is there when it has given its authority, if it may put nothing else
there. -/
theorem view_of_granted (must : MustPut env shown account key value)
    (only : ∀ other, MayPut env shown account key other → other = value)
    (stored : ∀ account, before.view (programKey account) = shown (programKey account))
    (granted : (requireAuthority env account).Returns before (.ok ()) after) :
    after.view key = some value := by
  have type : account.type = .program := by
    cases must with | puts type _ _ => exact type
  obtain ⟨-, charged, output, byte, paid, ran, -⟩ | ⟨signs, -⟩ :=
    granted_cases (returns_requireAuthority granted)
  swap
  · exact absurd (viewProgram_of_type type) (by simp [signs])
  rw [eq_of_chargeCall paid, Effect.Returns, fullRoom, runProgramAt_succ] at ran
  split at ran
  · cases ran
  obtain ⟨finished, inner, rfl⟩ := returns_ensuring.mp ran
  obtain ⟨code, executed, executes, ended⟩ := returns_bind.mp inner
  have shows : executed.view key = some value := by
    refine view_of_executed_module must only ?_ (fun account => ?_) executes
    · rfl
    · exact stored account
  split at ended
  · cases (returns_pure.mp ended).1
  -- The record of the frame does not touch the state.
  obtain ⟨_, _, records, final⟩ := returns_bind.mp ended
  obtain ⟨-, rfl⟩ := returns_pure.mp final
  have frame : Frame (fun _ => False) executed finished :=
    (recordFrame_kept frame_overlooks _ _ _ _).of_returns records
  exact (frame.view not_false).trans shows

/-- What the authority of a transaction is sure to leave is there when it was granted. -/
theorem view_of_mustLeave (must : MustLeave env shown tx key value)
    (stored : ∀ account, before.view (programKey account) = shown (programKey account))
    (authorizes : (authorizeTransaction env tx).Returns before (.ok ()) after) :
    after.view key = some value := by
  obtain ⟨⟨account, asked, must⟩, only⟩ := must
  have onlyBy {asking : Account} (asked : Asked tx asking) (other : Bytes)
      (given : MayPut env shown asking key other) : other = value :=
      only other ⟨asking, asked, given⟩
  have none : ∀ program, (none : Option Account) = some program →
      (before.stack.map StackFrame.programId).head? = some program := fun _ isTop => nomatch isTop
  unfold authorizeTransaction at authorizes
  split at authorizes
  · cases (returns_pure.mp authorizes).1
  obtain ⟨_, mid, payer, payee⟩ := returns_andThen_ok.mp authorizes
  have left := (requireAuthority_leaves (.inl rfl)).of_returns payer none stored
  -- The payer is asked first; what the payee may put after that is the same value.
  rcases asked with rfl | ⟨takesNonce, rfl⟩
  · have there := view_of_granted must (onlyBy (.inl rfl)) stored payer
    split at payee
    · rename_i takesNonce
      have later := ((requireAuthority_leaves (.inr ⟨takesNonce, rfl⟩)).of_returns payee).onward
        left
        none stored
      rcases later.shows key with same | ⟨other, given, shows⟩
      · rw [same, there]
      · rw [shows, only other given]
    · obtain ⟨-, rfl⟩ := returns_pure.mp payee
      exact there
  · rw [if_pos takesNonce] at payee
    exact view_of_granted must (onlyBy (.inr ⟨takesNonce, rfl⟩)) (left.stored stored) payee

/-- The node of the block after a revert: the state authority was granted in, and the nonce. -/
theorem view_of_reverted_transaction
    (applied : (applyTransaction env tx).Returns before (.ok receipt) after)
    (reverted : receipt.reverted = true)
    (authorizes : (authorizeTransaction env tx).Returns
      (beginTransaction tx before) (.ok ()) authorized) :
    after.view = Function.update authorized.view (nonceKey (Transaction.nonceAccount tx))
      (some (storeWord tx.nonce)) := by
  obtain ⟨_, charged, executed, code, authorizedAgain, charges, executes, failed, rfl⟩ :=
    applyTransaction_phases applied
  obtain ⟨-, rfl⟩ := authorizedAgain.unique authorizes
  obtain ⟨-, chargedView⟩ := chargeTransaction_shows charges
  obtain ⟨-, executedView⟩ := view_of_reverted executes (failed ▸ reverted)
  rw [← chargedView, ← executedView]
  rfl

/-- A reverted transaction always stores its nonce. It changes nothing else when all that the
modules asked for authority may put is there already; and when it changes nothing else, all that
they are sure to put was there. -/
theorem reverted_changes_only_nonce
    (applied : (applyTransaction env tx).Returns before (.ok receipt) after)
    (reverted : receipt.reverted = true) :
    after.view (nonceKey (Transaction.nonceAccount tx)) = some (storeWord tx.nonce) ∧
      ((∀ key value, MayLeave env before.view tx key value → before.view key = some value) →
        ∀ key, key ≠ nonceKey (Transaction.nonceAccount tx) → after.view key = before.view key) ∧
      ((∀ key, key ≠ nonceKey (Transaction.nonceAccount tx) → after.view key = before.view key) →
        ∀ key value, MustLeave env before.view tx key value → before.view key = some value) := by
  obtain ⟨authorized, _, _, _, authorizes, -⟩ := applyTransaction_phases applied
  have shown := view_of_reverted_transaction applied reverted authorizes
  have left : Left (MayLeave env before.view tx) (beginTransaction tx before) authorized :=
    authorizeTransaction_leaves.of_returns authorizes (fun _ isTop => nomatch isTop) fun _ => rfl
  refine ⟨by rw [shown, Function.update_self], fun harmless key other => ?_,
    fun unchanged key value must => ?_⟩
  · rw [shown, Function.update_of_ne other]
    rcases left.shows key with same | ⟨value, given, shows⟩
    · exact same
    · rw [shows, harmless key value given]
  · obtain ⟨account, -, puts⟩ := must.1
    have other : key ≠ nonceKey (Transaction.nonceAccount tx) := fun same =>
      not_moduleKey_nonceKey _ (same ▸ puts.moduleKey)
    rw [← unchanged key other, shown, Function.update_of_ne other]
    refine view_of_mustLeave must (fun account => ?_) authorizes
    rfl

/-- A transaction that calls a user account as a program, with a payer that has signed it. -/
def callingUser (payer : Account) : Transaction :=
  ⟨SizedBytes.zero 32, SizedBytes.zero 32, 1000000, payer, SizedBytes.zero 33, 1,
    [.callProgram (SizedBytes.zero 33) ⟨[], []⟩], [⟨payer, SizedBytes.zero 64⟩]⟩

/-- A user account. -/
def userPayer : Account := SizedBytes.fit 33 [0, 7]

/-- A module account. -/
def modulePayer : Account := SizedBytes.fit 33 [1, 7]

/-- A module that stores an object before it grants its authority. -/
def storingModule : Env :=
  { Env.plain with
    runModule := fun _ _ => .call (.putObject 0 [1] [2]) fun _ =>
      .call (.write .stdout [1]) fun _ => .done (.exited 0) }

/-- A user pays for a call that fails; the nonce is stored, and nothing else. -/
theorem reverted_changes_only_nonce_for_user :
    ∃ receipt after, (applyTransaction .plain (callingUser userPayer)).Returns
        (blockOn []) (.ok receipt) after ∧ receipt.reverted = true ∧
      after.view (nonceKey userPayer) = some (storeWord 1) ∧
      ∀ key, key ≠ nonceKey userPayer → after.view key = (blockOn []).view key := by
  obtain ⟨receipt, applied, reverted⟩ := returns_ok_of_map_fst
    (show (applyTransaction .plain (callingUser userPayer) (blockOn [])).1.map
      (Except.map TransactionReceipt.reverted) = .ok (.ok true) by decide +kernel)
  obtain ⟨stored, harmless, -⟩ := reverted_changes_only_nonce applied reverted
  refine ⟨receipt, _, applied, reverted, stored, harmless fun key value may => ?_⟩
  obtain ⟨account, rfl | ⟨takesNonce, rfl⟩, may⟩ := may
  · exact absurd may.type (by decide)
  · exact absurd takesNonce (by decide)

/-- A module account pays for a call that fails; the object its authorize instruction has
stored stays. -/
theorem reverted_keeps_authorize_writes :
    ∃ receipt after key, (applyTransaction storingModule (callingUser modulePayer)).Returns
      (blockOn [(makeCompoundKey ObjectSpace.programData modulePayer.1,
        (SizedBytes.zero 32).1)]) (.ok receipt) after ∧ receipt.reverted = true ∧
      key ≠ nonceKey (Transaction.nonceAccount (callingUser modulePayer)) ∧
      (blockOn [(makeCompoundKey ObjectSpace.programData modulePayer.1,
        (SizedBytes.zero 32).1)]).view key = none ∧
      after.view key = some [2] := by
  obtain ⟨receipt, applied, reverted⟩ := returns_ok_of_map_fst
    (show (applyTransaction storingModule (callingUser modulePayer)
      (blockOn [(makeCompoundKey ObjectSpace.programData modulePayer.1,
        (SizedBytes.zero 32).1)])).1.map (Except.map TransactionReceipt.reverted) =
          .ok (.ok true) by decide +kernel)
  refine ⟨receipt, _, makeCompoundKey (ObjectSpace.ofProgram modulePayer 0) [1], applied, reverted,
    by decide +kernel, ?_, ?_⟩
  · exact Heap.view_of_get (by decide +kernel)
  · exact Heap.view_of_get (by decide +kernel)

end Respublica.Controller.Revert
