import Respublica.Controller.Phases

/-!
# Paying for host calls

Every operation that a program can ask the host for begins by taking one tick of compute from
the meter and drops the code that comes back. A call is paid for while a tick can be afforded.
After that the plain operations go on as before, with nothing taken and nothing reported.
-/

namespace Respublica.Controller

open Foundation Effect Program Protocol StateDb Context Meter

namespace Meter

/-- A tick of compute is left, and an open session can pay for it. -/
def AffordsTick (meter : Meter) : Prop :=
  1 ≤ meter.remaining.computeBandwidth ∧ ∀ session ∈ meter.session,
    0 < meter.limits.cost.computeBandwidth ∧
      meter.limits.cost.computeBandwidth ≤ session.remainingResources

instance (meter : Meter) : Decidable meter.AffordsTick :=
  inferInstanceAs (Decidable (_ ∧ ∀ session ∈ meter.session, _ ∧ _))

theorem Used.affordsTick {before after : Meter} (used : Used computeBandwidth 1 before after) :
    before.AffordsTick := by
  refine ⟨computeBandwidth.le_of_not_tooMuch _ _ used.available, fun session held => ?_⟩
  have pays := used.affordable session held
  rw [UInt64.toNat_one, Nat.one_mul] at pays
  exact ⟨used.costs (Option.isSome_iff_exists.mpr ⟨session, held⟩), UInt64.le_iff_toNat_le.mpr pays⟩

variable {meter : Meter}

theorem Refused.not_affordsTick {code : ErrorCode}
    (refused : Refused computeBandwidth 1 meter code) : ¬ meter.AffordsTick := by
  rintro ⟨left, pays⟩
  cases refused with
  | limit tooMuch => exact UInt64.not_lt.mpr left (of_decide_eq_true tooMuch)
  | session held poor =>
    have enough := UInt64.le_iff_toNat_le.mp (pays _ held).2
    rw [UInt64.toNat_one, Nat.one_mul] at poor
    exact Nat.not_lt.mpr enough poor

theorem Unpriced.not_affordsTick (unpriced : Unpriced computeBandwidth 1 meter) :
    ¬ meter.AffordsTick := by
  rintro ⟨-, pays⟩
  obtain ⟨session, held⟩ := Option.isSome_iff_exists.mp unpriced.session
  exact UInt64.pos_iff_ne_zero.mp (pays session held).1 unpriced.costless

end Meter

/-- The error of a result, if it is one. -/
def errorOf {Value : Type} : Result Value → Option ErrorCode
  | .error code => some code
  | .ok _ => none

/-- What a call reports to its caller. A span can report nothing. -/
def reported : (call : SystemCall) → call.Response → Option ErrorCode
  | .arguments, _ => none
  | .write _ _, code => some code
  | .read _ _, answer => some answer.1
  | .getObject _ _, _ => none
  | .getNextObject _ _, _ => none
  | .getPrevObject _ _, _ => none
  | .putObject _ _ _, code => some code
  | .removeObject _ _, code => some code
  | .checkAuthority _, answer => errorOf answer
  | .getCaller, _ => none
  | .callProgram _ _ _, answer => errorOf answer

/-- The calls that only take a tick, use no disk storage and run no program. -/
def Plain : SystemCall → Prop
  | .putObject _ _ _ => False
  | .removeObject _ _ => False
  | .checkAuthority _ => False
  | .callProgram _ _ _ => False
  | _ => True

/-- A call is paid for when it leaves at least its tick less; a call that is not paid for has to
report the code that the meter refused the tick with, and to have left the state, the streams
and the position in the input alone. -/
def PaidOrReported (env : Env) (room : Nat) (call : SystemCall)
    (before : Context) : Prop :=
  (answers env room call before).2.meter.remaining.computeBandwidth.toNat + 1 ≤
      before.meter.remaining.computeBandwidth.toNat ∨
    ∃ response code, (answers env room call before).1 = .ok response ∧
      reported call response = some code ∧
      Meter.Refused computeBandwidth 1 before.meter code ∧
      (answers env room call before).2.view = before.view ∧
      (answers env room call before).2.stack = before.stack

/-- The meter only goes down. -/
def MeterSpent (before after : Context) : Prop := Meter.Spent before.meter after.meter

instance : Std.Refl MeterSpent := ⟨fun context => Std.Refl.refl context.meter⟩

instance : IsTrans Context MeterSpent :=
  ⟨fun first second third earlier later =>
    IsTrans.trans first.meter second.meter third.meter earlier later⟩

/-- The meter is left alone. -/
def SameMeter (before after : Context) : Prop := after.meter = before.meter

instance : Std.Refl SameMeter := ⟨fun _ => rfl⟩

instance : IsTrans Context SameMeter := ⟨fun _ _ _ earlier later => later.trans earlier⟩

namespace Context

theorem meterSpent_overlooks : Overlooks MeterSpent :=
  ⟨fun _ _ spared => spared.spent, fun _ _ _ => Std.Refl.refl _, fun _ _ => Std.Refl.refl _⟩

/-- A write and its payment only spend. -/
theorem payment_spends {routine : Run Int} (writes : routine.Keeps MeterSpent) :
    Effect.Keeps MeterSpent (do
      let size ← routine
      onMeter (useDiskStorage (UInt64.ofInt size))) :=
  keeps_bind writes fun _ before => use_spends _ _ before.meter

/-- All routines spend only. -/
theorem meterSpent_endures (env : Env) : Endures env MeterSpent where
  meter := meterSpent_overlooks.meter
  stack _ _ := Std.Refl.refl _
  record := meterSpent_overlooks.record
  signs := checkSignature_kept (fun _ _ => Std.Refl.refl _) _
  puts := putObject_kept meterSpent_overlooks fun _ _ _ => payment_spends fun _ => Std.Refl.refl _
  removes := removeObject_kept meterSpent_overlooks fun _ _ => payment_spends fun _ =>
    Std.Refl.refl _

/-- What the tick of a call does: it is taken, or nothing changes. -/
theorem chargeCall_outcome (before : Context) :
    (before.meter.AffordsTick ∧ ∃ charged, chargeCall.Returns before () charged ∧
        charged.meter.remaining.computeBandwidth.toNat + 1 =
          before.meter.remaining.computeBandwidth.toNat) ∨
      ¬ before.meter.AffordsTick ∧
        (chargeCall.Returns before () before ∨
          ∃ fault, chargeCall before = (.error fault, before)) := by
  obtain ⟨meter, well, used⟩ | ⟨code, well, refused⟩ | ⟨fault, threw, unpriced⟩ :=
    use_outcome computeBandwidth 1 before.meter
  · have available : 1 ≤ before.meter.remaining.computeBandwidth := used.affordsTick.1
    have bound := UInt64.le_iff_toNat_le.mp available
    have taken : meter.remaining.computeBandwidth = before.meter.remaining.computeBandwidth - 1 :=
      congrArg ResourceState.computeBandwidth used.remaining
    refine .inl ⟨used.affordsTick, { before with meter := meter },
      returns_bind.mpr ⟨_, _, returns_within.mpr ⟨meter, well, rfl⟩,
        returns_pure.mpr ⟨rfl, rfl⟩⟩, ?_⟩
    rw [UInt64.toNat_one] at bound
    rw [taken, UInt64.toNat_sub_of_le _ _ available, UInt64.toNat_one]
    omega
  · refine .inr ⟨refused.not_affordsTick, .inl ?_⟩
    exact returns_bind.mpr ⟨_, _, returns_within.mpr ⟨before.meter, well, rfl⟩,
      returns_pure.mpr ⟨rfl, rfl⟩⟩
  · refine .inr ⟨unpriced.not_affordsTick, .inr ⟨fault, ?_⟩⟩
    have stopped : onMeter (useComputeBandwidth 1) before = (.error fault, before) := by
      rw [onMeter, Effect.within, useComputeBandwidth, threw]
    exact bind_eq_of_error stopped _

variable {crypto : Crypto.Primitives} {run : Runner}

variable {descriptor : FileDescriptor} {after : Context} {code : ErrorCode} {call : SystemCall}

/-- Writing and reading report no other error than that of a wrong file descriptor. -/
theorem write_reports {buffer : Bytes} {before : Context}
    (gave : (write descriptor buffer).Returns before code after) :
    code = .controller .ok ∨ code = .controller .badFileDescriptor := by
  obtain ⟨_, charged, -, rest⟩ := returns_bind.mp gave
  cases descriptor with
  | stdin => exact .inr (returns_pure.mp rest).1
  | stdout =>
    simp only [returns_bind, returns_pure] at rest
    obtain ⟨_, _, -, _, _, -, rfl, -⟩ := rest
    exact .inl rfl
  | stderr =>
    simp only [returns_bind, returns_pure] at rest
    obtain ⟨_, _, -, _, _, -, rfl, -⟩ := rest
    exact .inl rfl

/-- A read reports success or a bad descriptor. -/
theorem read_reports {size : Nat} {before : Context} {answer : ErrorCode × Bytes}
    (gave : (read descriptor size).Returns before answer after) :
    answer.1 = .controller .ok ∨ answer.1 = .controller .badFileDescriptor := by
  obtain ⟨_, charged, -, rest⟩ := returns_bind.mp gave
  cases descriptor with
  | stdin =>
    simp only [returns_bind, returns_pure] at rest
    obtain ⟨_, _, -, _, _, -, rfl, -⟩ := rest
    exact .inl rfl
  | stdout => exact .inr (congrArg Prod.fst (returns_pure.mp rest).1)
  | stderr => exact .inr (congrArg Prod.fst (returns_pure.mp rest).1)

/-- No plain call reports an error of the meter. -/
theorem reported_of_plain (plain : Plain call) {before : Context} {response : call.Response}
    (gave : (answerSystem crypto run call).Returns before response after)
    (reports : reported call response = some code) :
    code = .controller .ok ∨ code = .controller .badFileDescriptor := by
  cases call with
  | write descriptor buffer =>
    obtain rfl := Option.some.inj reports
    exact write_reports gave
  | read descriptor size =>
    obtain rfl := Option.some.inj reports
    exact read_reports gave
  | arguments => cases reports
  | getObject id key => cases reports
  | getNextObject id key => cases reports
  | getPrevObject id key => cases reports
  | getCaller => cases reports
  | putObject => exact plain.elim
  | removeObject => exact plain.elim
  | checkAuthority => exact plain.elim
  | callProgram => exact plain.elim

theorem updateFrame_sameMeter (change : StackFrame → StackFrame) :
    (updateFrame change).Keeps SameMeter :=
  keeps_modify fun _ => rfl

/-- A plain call takes its tick, and what it does then leaves the meter alone. -/
theorem answerSystem_plain (crypto : Crypto.Primitives) (run : Runner) (plain : Plain call) :
    ∃ rest : Run call.Response, rest.Keeps SameMeter ∧
      ∀ before, (call = .arguments → before.stack ≠ []) →
        answerSystem crypto run call before = (chargeCall >>= fun _ => rest) before := by
  cases call with
  | arguments =>
    refine ⟨do let frame ← peekFrame; pure frame.arguments, ?_, fun before running => ?_⟩
    · exact keeps_bind peekFrame_kept fun _ => keeps_pure _
    · have nonempty : before.stack.length ≠ 0 := by simpa using running rfl
      change arguments before = _
      rw [arguments, read_bind, if_neg nonempty]
  | write descriptor buffer =>
    refine ⟨_, ?_, fun _ _ => rfl⟩
    cases descriptor with
    | stdin => exact keeps_pure _
    | stdout =>
      exact keeps_bind peekFrame_kept fun _ =>
        keeps_bind (updateFrame_sameMeter _) fun _ => keeps_pure _
    | stderr =>
      exact keeps_bind peekFrame_kept fun _ =>
        keeps_bind (updateFrame_sameMeter _) fun _ => keeps_pure _
  | read descriptor size =>
    refine ⟨_, ?_, fun _ _ => rfl⟩
    cases descriptor with
    | stdin =>
      exact keeps_bind peekFrame_kept fun _ =>
        keeps_bind (updateFrame_sameMeter _) fun _ => keeps_pure _
    | stdout => exact keeps_pure _
    | stderr => exact keeps_pure _
  | getObject id key =>
    refine ⟨_, ?_, fun _ _ => rfl⟩
    exact keeps_bind (createObjectSpace_kept id) fun space =>
      keeps_bind (getState_kept space key) fun _ => keeps_pure _
  | getNextObject id key =>
    refine ⟨_, ?_, fun _ _ => rfl⟩
    exact keeps_bind (createObjectSpace_kept id) fun _ => keeps_pure _
  | getPrevObject id key =>
    refine ⟨_, ?_, fun _ _ => rfl⟩
    exact keeps_bind (createObjectSpace_kept id) fun _ => keeps_pure _
  | getCaller =>
    refine ⟨_, ?_, fun _ _ => rfl⟩
    exact keeps_bind keeps_read fun _ => keeps_ite (keeps_pure _)
      (keeps_bind peekFrame_kept fun _ => keeps_pure _)
  | putObject => exact plain.elim
  | removeObject => exact plain.elim
  | checkAuthority => exact plain.elim
  | callProgram => exact plain.elim

/-- Every call takes its tick, and what it does then only spends. -/
theorem answerSystem_charges (crypto : Crypto.Primitives)
    (runs : ∀ tolerance account stdin arguments,
      (run tolerance account stdin arguments).Keeps MeterSpent) (call : SystemCall) :
    ∃ rest : Run call.Response, rest.Keeps MeterSpent ∧
      ∀ before, (call = .arguments → before.stack ≠ []) →
        answerSystem crypto run call before = (chargeCall >>= fun _ => rest) before := by
  by_cases plain : Plain call
  · obtain ⟨rest, keeps, charges⟩ := answerSystem_plain crypto run plain
    refine ⟨rest, fun before => ?_, charges⟩
    have same : (rest before).2.meter = before.meter := keeps before
    rw [MeterSpent, same]
    exact Std.Refl.refl _
  · cases call with
    | putObject id key value =>
      refine ⟨_, ?_, fun _ _ => rfl⟩
      exact keeps_bind (createObjectSpace_kept id) fun space =>
        payment_spends fun _ => Std.Refl.refl _
    | removeObject id key =>
      refine ⟨_, ?_, fun _ _ => rfl⟩
      exact keeps_bind (createObjectSpace_kept id) fun space =>
        payment_spends fun _ => Std.Refl.refl _
    | checkAuthority account =>
      refine ⟨_, ?_, fun _ _ => rfl⟩
      refine keeps_bind keeps_read fun _ => keeps_ite (keeps_pure _)
        (keeps_ite ?_ ?_)
      · exact keeps_bind (runs _ _ _ _) fun _ => keeps_pure _
      · exact checkSignature_kept (fun _ _ => Std.Refl.refl _) _ _
    | callProgram account stdin arguments =>
      exact ⟨_, runs _ account stdin arguments, fun _ _ => rfl⟩
    | arguments => exact absurd trivial plain
    | write => exact absurd trivial plain
    | read => exact absurd trivial plain
    | getObject => exact absurd trivial plain
    | getNextObject => exact absurd trivial plain
    | getPrevObject => exact absurd trivial plain
    | getCaller => exact absurd trivial plain

end Context

variable {env : Env} {room : Nat} {before : Context}

variable {call : SystemCall}

/-- A tick that can be afforded is taken. -/
theorem paid_of_affordsTick (running : call = .arguments → before.stack ≠ [])
    (affords : before.meter.AffordsTick) : PaidOrReported env room call before := by
  obtain ⟨rest, spends, charges⟩ := answerSystem_charges env.crypto
    ((meterSpent_endures env).runProgramAt room) call
  obtain ⟨-, charged, paid, taken⟩ | ⟨unaffordable, -⟩ := chargeCall_outcome before
  · left
    have outcome : answers env room call before = rest charged :=
      (charges before running).trans (Effect.Returns.bind_eq paid _)
    have spent : Meter.Spent charged.meter (rest charged).2.meter := spends charged
    have bound := UInt64.le_iff_toNat_le.mp spent.remaining.2.2
    rw [outcome]
    omega
  · exact absurd affords unaffordable

/-- A plain call that cannot be afforded is neither paid for nor reported. -/
theorem not_paid_of_plain (plain : Plain call) (running : call = .arguments → before.stack ≠ [])
    (unaffordable : ¬ before.meter.AffordsTick) :
    ¬ PaidOrReported env room call before := by
  obtain ⟨rest, same, charges⟩ := answerSystem_plain env.crypto
    (runProgramAt env room) plain
  have meter : (answers env room call before).2.meter = before.meter := by
    obtain ⟨affords, -⟩ | ⟨-, paid | ⟨fault, threw⟩⟩ := chargeCall_outcome before
    · exact absurd affords unaffordable
    · rw [show answers env room call before = rest before from
        (charges before running).trans (Effect.Returns.bind_eq paid _)]
      exact same before
    · rw [show answers env room call before = (.error fault, before) from
        (charges before running).trans (bind_eq_of_error threw _)]
  rintro (paid | ⟨response, code, gave, reports, refused, -⟩)
  · rw [meter] at paid
    omega
  · obtain rfl | rfl := reported_of_plain plain (returns_of_fst gave) reports
    · exact absurd rfl (refused.ne_ok (by decide))
    · cases refused

/-- In any context and with any room for nested programs, all host calls are paid for or
reported without effect exactly when a program is running and a tick can be afforded. The same
decides each plain call by itself. -/
theorem host_calls_paid_iff (env : Env) (room : Nat) (before : Context) :
    ((∀ call, PaidOrReported env room call before) ↔ before.stack ≠ [] ∧ before.meter.AffordsTick) ∧
      ∀ call, Plain call → (call = .arguments → before.stack ≠ []) →
        (PaidOrReported env room call before ↔ before.meter.AffordsTick) := by
  have single : ∀ call, Plain call → (call = .arguments → before.stack ≠ []) →
      (PaidOrReported env room call before ↔ before.meter.AffordsTick) := by
    intro call plain running
    refine ⟨fun paid => ?_, paid_of_affordsTick running⟩
    by_contra unaffordable
    exact not_paid_of_plain plain running unaffordable paid
  refine ⟨⟨fun paid => ⟨fun idle => ?_, ?_⟩, fun affords call => ?_⟩, single⟩
  · -- Without a frame the arguments are refused by an exception, before any charge.
    have threw : answers env room .arguments before =
        (.error (.exception "stack is empty"), before) := by
      change Context.arguments before = _
      rw [Context.arguments, read_bind, if_pos (by rw [idle]; rfl)]
      rfl
    rcases paid .arguments with taken | ⟨_, _, gave, -⟩
    · rw [threw] at taken
      exact absurd taken (Nat.not_succ_le_self _)
    · rw [threw] at gave
      cases gave
  · exact (single .getCaller trivial (by rintro ⟨⟩)).mp (paid .getCaller)
  · exact paid_of_affordsTick (fun _ => affords.1) affords.2

/-- A program in its frame whose block has no compute left. -/
def outOfCompute : Context :=
  { blockOn [] with
    stack := [⟨Context.coin, [], [], [], [], 0⟩]
    meter := setResourceLimits .create ⟨⟨409600, 1048576, 0⟩, ⟨10, 5, 1⟩⟩ }

/-- Without any compute left, the program's output is extended and the call reports success. -/
theorem unpaid_write_to_stdout :
    outOfCompute.meter.remaining.computeBandwidth = 0 ∧
      (answers .plain 1 (.write .stdout [7]) outOfCompute).1 = .ok (.controller .ok) ∧
      (answers .plain 1 (.write .stdout [7]) outOfCompute).2.stack.map StackFrame.stdout = [[7]] ∧
      ¬ PaidOrReported .plain 1 (.write .stdout [7]) outOfCompute := by
  refine ⟨rfl, rfl, rfl, ?_⟩
  exact not_paid_of_plain trivial (by rintro ⟨⟩) (by decide)

end Respublica.Controller
