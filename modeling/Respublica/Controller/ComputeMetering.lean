import Respublica.Controller.ExecutionContext
import Respublica.Vm.ProgramContext

/-!
# Compute metering across the virtual machine

Between two synchronisations the instructions of a module count down a copy of the budget. What
they have counted is charged at the next one, or when the run is over. A charge of no more than
the budget goes through exactly. An instruction that takes the counter below zero makes it larger
than the budget: the charge is refused, and none of what the instructions consumed since the last
synchronisation is paid for.
-/

namespace Respublica.Vm.InstructionStep

/-- What an instruction should be charged: its cost, and no more than what was left. -/
def due (step : InstructionStep) : Nat := min step.cost.toNat step.left.toNat

/-- There was enough left for the instruction. -/
def Affordable (step : InstructionStep) : Prop := step.cost.toNat ≤ step.left.toNat

/-- There was enough left, or there had been nothing since the last synchronisation. -/
def Covered (step : InstructionStep) : Prop := step.Affordable ∨ step.budget = 0

instance (step : InstructionStep) : Decidable step.Affordable :=
  inferInstanceAs (Decidable (_ ≤ _))

instance (step : InstructionStep) : Decidable step.Covered :=
  inferInstanceAs (Decidable (_ ∨ _))

theorem due_of_affordable {step : InstructionStep} (affordable : step.Affordable) :
    step.due = step.cost.toNat :=
  Nat.min_eq_left affordable

end Respublica.Vm.InstructionStep

namespace Respublica.Controller

open Foundation Effect Program Protocol StateDb Vm Interaction Context ProgramContext

/-- The compute bandwidth that the meter of a context has left. -/
def Context.compute (context : Context) : Int := context.meter.remaining.computeBandwidth.toNat

/-- What can still be used: `get_meter_ticks`. -/
def Context.budget (context : Context) : UInt64 := context.meter.remainingComputeBandwidth

/-- Compute charged inside host calls, the charges of the metering itself apart. -/
def hostSpending (request : HostCall) (before after : Context) (spent : Int) : Int :=
  match request with
  | .getMeterTicks => spent
  | .useMeterTicks _ => spent
  | _ => spent + (before.compute - after.compute)

/-- What a module is answered, with an account of what the answers charge. -/
def meteredHost (crypto : Crypto.Primitives) (run : Runner) (request : HostCall) :
    Effect Fault (Context × Int) request.Response :=
  Interaction.recording hostSpending (answerHost crypto run) request

/-- The dues of instructions. -/
def totalDue (steps : List InstructionStep) : Int := (steps.map InstructionStep.due).sum

theorem totalDue_cons (step : InstructionStep) (steps : List InstructionStep) :
    totalDue (step :: steps) = step.due + totalDue steps := by
  simp [totalDue]

section Host

variable {crypto : Crypto.Primitives} {run : Runner} {before after : Context × Int}

/-- A metered call is answered as before, and what it spends is recorded. -/
theorem returns_call {request : HostCall} {answer : request.Response} :
    (interpret (meteredHost crypto run) (Vm.call request)).Returns before answer
        after ↔
      (answerHost crypto run request).Returns before.1 answer after.1 ∧
        after.2 = hostSpending request before.1 after.1 before.2 := by
  rw [Vm.call, interpret_perform]
  exact returns_recording

/-- Asking for the budget changes nothing. -/
theorem returns_getMeterTicks {ticks : UInt64} :
    (interpret (meteredHost crypto run) (Vm.call .getMeterTicks)).Returns before
        ticks after ↔ ticks = before.1.budget ∧ after = before := by
  rw [returns_call]
  constructor
  · rintro ⟨gave, spent⟩
    obtain ⟨rfl, same⟩ := returns_pure.mp gave
    exact ⟨rfl, Prod.ext same spent⟩
  · rintro ⟨rfl, rfl⟩
    exact ⟨rfl, rfl⟩

/-- Ticks within the budget are taken; more are refused and nothing changes. -/
theorem outcome_of_useMeterTicks {ticks : UInt64} {code : ErrorCode}
    (gave : (interpret (meteredHost crypto run)
      (Vm.call (.useMeterTicks ticks))).Returns before code after) :
    (ticks ≤ before.1.budget ∧ code.failed = false ∧ after.2 = before.2 ∧
        after.1.compute + ticks.toNat = before.1.compute) ∨
      (before.1.budget < ticks ∧ code.failed = true ∧ after = before) := by
  obtain ⟨used, spent⟩ := returns_call.mp gave
  obtain ⟨meter, usedMeter, mid⟩ := returns_onMeter.mp used
  obtain ⟨within_, well, taken⟩ | ⟨beyond, failed, rfl⟩ :=
    Meter.outcome_of_useComputeBandwidth usedMeter
  · refine .inl ⟨within_, well, spent, ?_⟩
    rw [mid, Context.compute, Context.compute, ← taken]
    exact (Nat.cast_add _ _).symm
  · exact .inr ⟨beyond, failed, Prod.ext mid spent⟩

/-- Compute and the account of charges together. -/
def Conserves (before after : Context × Int) : Prop :=
  before.1.compute + before.2 = after.1.compute + after.2

instance : Std.Refl Conserves := ⟨fun _ => rfl⟩

instance : IsTrans (Context × Int) Conserves := ⟨fun _ _ _ => Eq.trans⟩

/-- The imported functions charge what the account says. -/
theorem resolve_conserves {memory : Option Bytes} {function : HostFunction}
    {body : HostProgram (HostCode × Option Bytes)}
    (resolved : resolve memory function = .ok (some body)) :
    (interpret (meteredHost crypto run) body).Keeps Conserves := by
  refine (resolve_issues resolved).interpret_keeps fun request service before => ?_
  cases request with
  | getMeterTicks => exact absurd service id
  | useMeterTicks ticks => exact absurd service id
  | _ =>
    simp only [Conserves, meteredHost, Interaction.recording, hostSpending]
    omega

end Host

/-- The counters of a run between two synchronisations: the budget of the last one and what is
left of it. A budget whose bits are those of a negative counter is left by the first instruction. -/
structure Synced (ticks left : UInt64) : Prop where
  le : left ≤ ticks
  bounded : left.toNat < 2 ^ 63 → ticks.toNat < 2 ^ 63 + 2 ^ 32
  full : 2 ^ 63 ≤ left.toNat → left = ticks

namespace Synced

variable {ticks left : UInt64} {cost : UInt32}

theorem refl (ticks : UInt64) : Synced ticks ticks :=
  ⟨UInt64.le_refl _, fun small => by omega, fun _ => rfl⟩

/-- A counter that starts from the ticks is in step with them, and nothing is owed. -/
theorem restart (ticks : UInt64) : Synced ticks ticks.toInt64.toUInt64 ∧
    (ticks.toNat - ticks.toInt64.toUInt64.toNat : Int) = 0 := by
  rw [UInt64.toUInt64_toInt64]
  exact ⟨refl ticks, Int.sub_self _⟩

/-- A cost that is there is counted down. -/
theorem afford (synced : Synced ticks left) (enough : cost.toNat ≤ left.toNat) :
    (left - cost.toUInt64).toNat + cost.toNat = left.toNat ∧ left - cost.toUInt64 ≤ ticks ∧
      ((left - cost.toUInt64).toNat < 2 ^ 63 → Synced ticks (left - cost.toUInt64)) := by
  have available : cost.toUInt64 ≤ left := by
    rwa [UInt64.le_iff_toNat_le, UInt32.toNat_toUInt64]
  have counted : (left - cost.toUInt64).toNat = left.toNat - cost.toNat := by
    rw [UInt64.toNat_sub_of_le _ _ available, UInt32.toNat_toUInt64]
  have below : left - cost.toUInt64 ≤ ticks := UInt64.le_trans (UInt64.sub_le available) synced.le
  refine ⟨by omega, below, fun small => ⟨below, fun _ => ?_, fun large => by omega⟩⟩
  by_cases large : 2 ^ 63 ≤ left.toNat
  · have same := congrArg UInt64.toNat (synced.full large)
    have costBound := cost.toNat_lt
    omega
  · exact synced.bounded (by omega)

/-- A cost that is not there takes the counter below zero, and more is owed than the budget. -/
theorem exhaust (synced : Synced ticks left) (short : left.toNat < cost.toNat) :
    2 ^ 63 ≤ (left - cost.toUInt64).toNat ∧ ticks < ticks - (left - cost.toUInt64) := by
  have costBound := cost.toNat_lt
  have ticksBound := synced.bounded (by omega)
  have below := UInt64.le_iff_toNat_le.mp synced.le
  have counted : (left - cost.toUInt64).toNat = 2 ^ 64 + left.toNat - cost.toNat := by
    rw [UInt64.toNat_sub, UInt32.toNat_toUInt64]
    omega
  refine ⟨by omega, ?_⟩
  rw [UInt64.lt_iff_toNat_lt, UInt64.toNat_sub, counted]
  omega

end Synced

/-- An execution that afforded its instructions: what it has consumed is paid for, up to what it
owes since the last synchronisation, which the budget covers. -/
structure Regular (before : Context × Int) (owed : Int) (outcome : Outcome)
    (after : Context × Int) : Prop where
  affordable : ∀ step ∈ outcome.steps, step.Affordable
  covers : outcome.counter.toUInt64 ≤ outcome.ticks
  account : before.1.compute + before.2 +
      (outcome.ticks.toNat - outcome.counter.toUInt64.toNat : Int) =
    after.1.compute + after.2 + owed + totalDue outcome.steps

/-- An execution whose last instruction was not affordable: the budget of the last synchronisation
is due and not paid, and what is owed is more than that. -/
structure Exhausted (before : Context × Int) (owed : Int) (outcome : Outcome)
    (after : Context × Int) : Prop where
  last : ∃ earlier step, outcome.steps = earlier ++ [step] ∧
    (∀ other ∈ earlier, other.Affordable) ∧ ¬ step.Affordable ∧ step.budget = outcome.ticks
  beyond : outcome.ticks < outcome.ticks - outcome.counter.toUInt64
  account : before.1.compute + before.2 + outcome.ticks.toNat =
    after.1.compute + after.2 + owed + totalDue outcome.steps

section Execution

variable {before middle after : Context × Int} {owed : Int} {outcome : Outcome}
  {step : InstructionStep}

/-- One more step that is afforded leaves the outcome regular. -/
theorem Regular.cons (regular : Regular before (owed + step.due) outcome after)
    (affordable : step.Affordable) :
    Regular before owed { outcome with steps := step :: outcome.steps } after := by
  have account := regular.account
  refine ⟨List.forall_mem_cons.mpr ⟨affordable, regular.affordable⟩, regular.covers, ?_⟩
  simp only [totalDue_cons]
  omega

/-- One more step that is afforded leaves it exhausted. -/
theorem Exhausted.cons (exhausted : Exhausted before (owed + step.due) outcome after)
    (affordable : step.Affordable) :
    Exhausted before owed { outcome with steps := step :: outcome.steps } after := by
  obtain ⟨earlier, last, steps, others, short, budget⟩ := exhausted.last
  have account := exhausted.account
  refine ⟨⟨step :: earlier, last, by rw [steps]; rfl,
    List.forall_mem_cons.mpr ⟨affordable, others⟩, short, budget⟩, exhausted.beyond, ?_⟩
  simp only [totalDue_cons]
  omega

/-- What is owed is paid at a synchronisation, before what follows. -/
theorem Regular.after_sync (regular : Regular middle 0 outcome after)
    (paid : before.1.compute + before.2 = middle.1.compute + middle.2 + owed) :
    Regular before owed outcome after :=
  ⟨regular.affordable, regular.covers, by have account := regular.account; omega⟩

/-- What was synchronised is paid. -/
theorem Exhausted.after_sync (exhausted : Exhausted middle 0 outcome after)
    (paid : before.1.compute + before.2 = middle.1.compute + middle.2 + owed) :
    Exhausted before owed outcome after :=
  ⟨exhausted.last, exhausted.beyond, by have account := exhausted.account; omega⟩

/-- How an execution comes back, with the budget of the last synchronisation on the meter. -/
structure Ended (before : Context × Int) (owed : Int) (outcome : Outcome)
    (after : Context × Int) : Prop where
  budget : after.1.budget = outcome.ticks
  ends : Regular before owed outcome after ∨ Exhausted before owed outcome after

theorem Ended.cons (ended : Ended before (owed + step.due) outcome after)
    (affordable : step.Affordable) :
    Ended before owed { outcome with steps := step :: outcome.steps } after :=
  ⟨ended.budget, ended.ends.imp (·.cons affordable) (·.cons affordable)⟩

theorem Ended.after_sync (ended : Ended middle 0 outcome after)
    (paid : before.1.compute + before.2 = middle.1.compute + middle.2 + owed) :
    Ended before owed outcome after :=
  ⟨ended.budget, ended.ends.imp (·.after_sync paid) (·.after_sync paid)⟩

variable {crypto : Crypto.Primitives} {run : Runner} {ticks left : UInt64} {counter : Int64}

/-- A synchronisation pays what is owed, and both counters start again from the budget. -/
theorem withMeterTicks_pays {memory : Option Bytes} {body : HostProgram (HostCode × Option Bytes)}
    (conserves : (interpret (meteredHost crypto run) body).Keeps Conserves)
    {answer : (HostCode × Option Bytes) × UInt64 × Int64}
    (gave : (interpret (meteredHost crypto run)
      (withMeterTicks ticks counter memory body)).Returns before answer after)
    (budget : before.1.budget = ticks) (synced : Synced ticks counter.toUInt64) :
    after.1.budget = answer.2.1 ∧ answer.2.2 = answer.2.1.toInt64 ∧
      before.1.compute + before.2 = after.1.compute + after.2 +
        (ticks.toNat - counter.toUInt64.toNat : Int) := by
  rw [withMeterTicks, interpret_bind] at gave
  obtain ⟨error, charged, charges, gave⟩ := returns_bind.mp gave
  have difference : (ticks - counter.toUInt64).toNat = ticks.toNat - counter.toUInt64.toNat :=
    UInt64.toNat_sub_of_le _ _ synced.le
  have below := UInt64.le_iff_toNat_le.mp synced.le
  obtain ⟨-, well, spent, taken⟩ | ⟨beyond, -, -⟩ := outcome_of_useMeterTicks charges
  · rw [well] at gave
    simp only [Bool.false_eq_true, if_false] at gave
    rw [interpret_bind] at gave
    obtain ⟨given, served, serves, gave⟩ := returns_bind.mp gave
    have kept : charged.1.compute + charged.2 = served.1.compute + served.2 :=
      conserves.of_returns serves
    rw [interpret_bind] at gave
    obtain ⟨left, _, asks, gave⟩ := returns_bind.mp gave
    obtain ⟨rfl, rfl⟩ := returns_getMeterTicks.mp asks
    obtain ⟨rfl, rfl⟩ := returns_pure.mp gave
    exact ⟨rfl, rfl, by omega⟩
  · rw [budget, UInt64.lt_iff_toNat_lt] at beyond
    omega

/-- An execution that is over owes what its counter says. -/
theorem ended_over (budget : before.1.budget = ticks) (covers : counter.toUInt64 ≤ ticks)
    (trapped : Bool) (errorCode : ErrorCode) :
    Ended before (ticks.toNat - counter.toUInt64.toNat) ⟨trapped, errorCode, ticks, counter, []⟩
      before := by
  refine ⟨budget, .inl ⟨by simp, covers, ?_⟩⟩
  simp [totalDue]

/-- An instruction that is not affordable is the last one. -/
theorem ended_short {cost : UInt32} (budget : before.1.budget = ticks)
    (synced : Synced ticks counter.toUInt64)
    (short : ¬ InstructionStep.Affordable ⟨ticks, counter.toUInt64, cost⟩)
    (errorCode : ErrorCode) :
    counter - cost.toUInt64.toInt64 < 0 ∧
      Ended before (ticks.toNat - counter.toUInt64.toNat)
        ⟨true, errorCode, ticks, counter - cost.toUInt64.toInt64,
          [⟨ticks, counter.toUInt64, cost⟩]⟩ before := by
  have less : counter.toUInt64.toNat < cost.toNat := Nat.not_le.mp short
  have due : InstructionStep.due ⟨ticks, counter.toUInt64, cost⟩ = counter.toUInt64.toNat :=
    Nat.min_eq_right (Nat.le_of_lt less)
  obtain ⟨negative, beyond⟩ := synced.exhaust less
  rw [← toUInt64_counted] at negative beyond
  refine ⟨(counter_neg_iff _).mpr negative, budget,
    .inr ⟨⟨[], _, rfl, by simp, short, rfl⟩, beyond, ?_⟩⟩
  simp only [totalDue, List.map_cons, List.map_nil, List.sum_cons, List.sum_nil, due]
  omega

/-- Every execution that comes back has ended in one of the two ways. The induction is on the
execution; between synchronisations what is owed grows with the instructions. -/
theorem execute_ended (execution : Execution) {errorCode : ErrorCode}
    (gave : (interpret (meteredHost crypto run)
      (execute execution ticks counter errorCode)).Returns before outcome after)
    (budget : before.1.budget = ticks) (synced : Synced ticks counter.toUInt64) :
    Ended before (ticks.toNat - counter.toUInt64.toNat) outcome after := by
  induction execution generalizing ticks counter errorCode before outcome with
  | finish trapped =>
    obtain ⟨rfl, rfl⟩ := returns_pure.mp gave
    exact ended_over budget synced.le trapped errorCode
  | instruction cost next ih =>
    simp only [execute] at gave
    by_cases affordable : InstructionStep.Affordable ⟨ticks, counter.toUInt64, cost⟩
    · have due := InstructionStep.due_of_affordable affordable
      have enough : cost.toNat ≤ counter.toUInt64.toNat := affordable
      obtain ⟨counted, below, syncedNext⟩ := synced.afford enough
      rw [← toUInt64_counted] at counted below syncedNext
      have owed : (ticks.toNat - (counter - cost.toUInt64.toInt64).toUInt64.toNat : Int) =
          ticks.toNat - counter.toUInt64.toNat +
            InstructionStep.due ⟨ticks, counter.toUInt64, cost⟩ := by
        simp only [due]
        omega
      split at gave
      · -- The counter has the bits of a negative number although the budget covers the cost.
        obtain ⟨rfl, rfl⟩ := returns_pure.mp gave
        exact (owed ▸ ended_over budget below true errorCode).cons affordable
      · rename_i positive
        rw [counter_neg_iff, Nat.not_le] at positive
        rw [interpret_bind] at gave
        obtain ⟨rest, _, executed, gave⟩ := returns_bind.mp gave
        obtain ⟨rfl, rfl⟩ := returns_pure.mp gave
        have ended := ih executed budget (syncedNext positive)
        rw [owed] at ended
        exact ended.cons affordable
    · obtain ⟨negative, ended⟩ := ended_short budget synced affordable errorCode
      rw [if_pos negative] at gave
      obtain ⟨rfl, rfl⟩ := returns_pure.mp gave
      exact ended
  | host function memory next ih =>
    simp only [execute] at gave
    split at gave
    · exact absurd gave not_returns_fail
    · obtain ⟨rfl, rfl⟩ := returns_pure.mp gave
      exact ended_over budget synced.le true errorCode
    rename_i body resolved
    rw [interpret_bind] at gave
    obtain ⟨answer, middle, serves, gave⟩ := returns_bind.mp gave
    obtain ⟨budgetThen, reset, paid⟩ :=
      withMeterTicks_pays (resolve_conserves resolved) serves budget synced
    obtain ⟨given, ticksThen, counterThen⟩ := answer
    obtain rfl : counterThen = ticksThen.toInt64 := reset
    obtain ⟨syncedThen, settled⟩ := Synced.restart ticksThen
    simp only at gave
    split at gave
    · obtain ⟨rfl, rfl⟩ := returns_pure.mp gave
      exact (settled ▸ ended_over budgetThen syncedThen.le _ _).after_sync paid
    · exact (settled ▸ ih _ gave budgetThen syncedThen).after_sync paid

end Execution

/-- The meter has gone down by what host calls have charged and by the dues of the instructions,
and when an instruction was not affordable nothing is left. -/
structure ComputeAccounted (before after : Context) (hosted : Int) (steps : List InstructionStep) :
    Prop where
  total : before.compute = after.compute + hosted + totalDue steps
  exhausted : ∀ step ∈ steps, ¬ step.Affordable → after.budget = 0

section Runs

variable {crypto : Crypto.Primitives} {run : Runner} {before after middle : Context}
  {hosted spent : Int} {outcome : Outcome} {steps : List InstructionStep} {code : ErrorCode}

/-- What a regular execution owes is within the budget and is paid at the end. -/
theorem Regular.accounted (regular : Regular (before, 0) 0 outcome (middle, spent))
    (budget : middle.budget = outcome.ticks)
    (charges : (interpret (meteredHost crypto run)
      (Vm.call (.useMeterTicks (outcome.ticks - outcome.counter.toUInt64)))).Returns (middle, spent)
      code (after, hosted)) : ComputeAccounted before after hosted outcome.steps := by
  have below := UInt64.le_iff_toNat_le.mp regular.covers
  have difference : (outcome.ticks - outcome.counter.toUInt64).toNat =
      outcome.ticks.toNat - outcome.counter.toUInt64.toNat :=
    UInt64.toNat_sub_of_le _ _ regular.covers
  have account := regular.account
  obtain ⟨-, -, same, taken⟩ | ⟨beyond, -, -⟩ := outcome_of_useMeterTicks charges
  · simp only at account same taken
    refine ⟨by omega, fun step mem short => absurd (regular.affordable step mem) short⟩
  · rw [show (middle, spent).1.budget = outcome.ticks from budget, UInt64.lt_iff_toNat_lt] at beyond
    omega

/-- What an exhausted execution owes is refused: it is accounted for when there was no budget. -/
theorem Exhausted.accounted_iff (exhausted : Exhausted (before, 0) 0 outcome (middle, spent))
    (budget : middle.budget = outcome.ticks)
    (charges : (interpret (meteredHost crypto run)
      (Vm.call (.useMeterTicks (outcome.ticks - outcome.counter.toUInt64)))).Returns (middle, spent)
      code (after, hosted)) :
    ComputeAccounted before after hosted outcome.steps ↔ ∀ step ∈ outcome.steps, step.Covered := by
  obtain ⟨earlier, last, isLast, others, short, lastBudget⟩ := exhausted.last
  have account := exhausted.account
  obtain ⟨within_, -, -, -⟩ | ⟨-, -, refused⟩ := outcome_of_useMeterTicks charges
  · rw [show (middle, spent).1.budget = outcome.ticks from budget] at within_
    exact absurd exhausted.beyond (UInt64.not_lt.mpr within_)
  · obtain ⟨rfl, rfl⟩ := Prod.mk.inj refused
    simp only at account
    have isZero : outcome.ticks = 0 ↔ outcome.ticks.toNat = 0 := by
      rw [← UInt64.toNat_inj]
      rfl
    constructor
    · intro accounted step mem
      have total := accounted.total
      rw [isLast, List.mem_append, List.mem_singleton] at mem
      rcases mem with early | rfl
      · exact .inl (others step early)
      · exact .inr (lastBudget.trans (isZero.mpr (by omega)))
    · intro covered
      have none : outcome.ticks = 0 := by
        rcases covered last (by rw [isLast]; simp) with affordable | nothing
        · exact absurd affordable short
        · exact lastBudget.symm.trans nothing
      have zero := isZero.mp none
      exact ⟨by omega, fun _ _ _ => budget.trans none⟩

/-- A run from the entry of a module is accounted for exactly when its instructions are
covered. -/
theorem startEntry_accounted_iff {execution : Execution}
    (gave : (interpret (meteredHost crypto run)
      (startEntry execution)).Returns (before, 0) (steps, code) (after, hosted)) :
    ComputeAccounted before after hosted steps ↔ ∀ step ∈ steps, step.Covered := by
  rw [startEntry, interpret_bind] at gave
  obtain ⟨_, _, asks, gave⟩ := returns_bind.mp gave
  obtain ⟨rfl, rfl⟩ := returns_getMeterTicks.mp asks
  rw [interpret_bind] at gave
  obtain ⟨outcome, ⟨middle, spent⟩, executed, gave⟩ := returns_bind.mp gave
  rw [interpret_bind] at gave
  obtain ⟨error, charged, charges, gave⟩ := returns_bind.mp gave
  obtain ⟨rfl, rfl⟩ : steps = outcome.steps ∧ charged = (after, hosted) := by
    split at gave
    all_goals
      obtain ⟨same, mid⟩ := returns_pure.mp gave
      exact ⟨congrArg Prod.fst same, mid.symm⟩
  obtain ⟨start, nothing⟩ := Synced.restart before.budget
  obtain ⟨budget, ended⟩ := execute_ended execution executed rfl start
  rw [nothing] at ended
  rcases ended with regular | exhausted
  · exact iff_of_true (regular.accounted budget charges) fun step mem =>
      .inl (regular.affordable step mem)
  · exact exhausted.accounted_iff budget charges

/-- The same of any module; one that is not started has no instructions. -/
theorem startTraced_accounted_iff {module_ : Module}
    (recorded : (interpret (meteredHost crypto run)
      (startTraced module_)).Returns (before, 0) (steps, code) (after, hosted)) :
    ComputeAccounted before after hosted steps ↔ ∀ step ∈ steps, step.Covered := by
  have unmetered (same : steps = [] ∧ after = before ∧ hosted = 0) :
      ComputeAccounted before after hosted steps ↔ ∀ step ∈ steps, step.Covered := by
    obtain ⟨rfl, rfl, rfl⟩ := same
    exact iff_of_true ⟨by simp [totalDue], by simp⟩ (by simp)
  cases module_ with
  | entry execution => exact startEntry_accounted_iff recorded
  | invalid =>
    obtain ⟨same, unchanged⟩ := returns_pure.mp recorded
    exact unmetered ⟨congrArg Prod.fst same, Prod.mk.inj unchanged⟩
  | unresolved =>
    obtain ⟨same, unchanged⟩ := returns_pure.mp recorded
    exact unmetered ⟨congrArg Prod.fst same, Prod.mk.inj unchanged⟩
  | withoutEntry =>
    rw [startTraced, interpret_bind] at recorded
    obtain ⟨_, _, asks, recorded⟩ := returns_bind.mp recorded
    obtain ⟨-, rfl⟩ := returns_getMeterTicks.mp asks
    obtain ⟨same, unchanged⟩ := returns_pure.mp recorded
    exact unmetered ⟨congrArg Prod.fst same, Prod.mk.inj unchanged⟩

/-- A run of a module that returns defines its instructions and what its host calls charged. -/
theorem traced_of_start {module_ : Module}
    (gave : (interpret (answerHost crypto run) (start module_)).Returns before code after) :
    ∃ steps hosted, (interpret (meteredHost crypto run)
      (startTraced module_)).Returns (before, 0) (steps, code) (after, hosted) := by
  rw [start, interpret_bind] at gave
  obtain ⟨⟨steps, given⟩, mid, traced, gave⟩ := returns_bind.mp gave
  obtain ⟨rfl, rfl⟩ := returns_pure.mp gave
  exact ⟨steps, (returns_interpret_iff_recording 0).mp traced⟩

end Runs

/-- Whenever the run of a module returns, in any context and with any program behind the host
calls, its instructions and what its host calls charged are defined by it, and the meter has gone
down by these exactly when every instruction that was begun is covered: there was enough left for
it, or there had been nothing since the last synchronisation. -/
theorem compute_accounted_iff_covered (crypto : Crypto.Primitives) (run : Runner)
    (module_ : Module) {before after : Context} {code : ErrorCode}
    (gave : (interpret (answerHost crypto run) (start module_)).Returns before code after) :
    ∃ steps hosted,
      (interpret (meteredHost crypto run)
        (startTraced module_)).Returns (before, 0) (steps, code) (after, hosted) ∧
      (ComputeAccounted before after hosted steps ↔ ∀ step ∈ steps, step.Covered) := by
  obtain ⟨steps, hosted, recorded⟩ := traced_of_start gave
  exact ⟨steps, hosted, recorded, startTraced_accounted_iff recorded⟩

/-- An environment whose modules are parsed from their bytes and run by the virtual machine. -/
def Env.loading (env : Env) (parse : (id bytecode : Bytes) → Module) :
    Env :=
  { env with runModule := fun id bytecode => start (parse id bytecode) }

/-- In such an environment an account without a stored module is not charged for one, and the
stored module of an account is accounted for when its instructions are covered. -/
theorem executeUserProgram_accounted_iff {env : Env}
    {parse : (id bytecode : Bytes) → Module} {run : Runner} {account : Account}
    {before after : Context} {code : ErrorCode}
    (gave : (executeUserProgram (env.loading parse) run account).Returns before code after) :
    (code = .controller .invalidProgram ∧ after = before) ∨
      ∃ object steps hosted,
        before.heap.get before.stateNode (programKey account) = .ok (some object) ∧
        (interpret (meteredHost env.crypto run)
          (startTraced (parse (object.take 32) (object.drop 32)))).Returns
            (before, 0)
          (steps, code) (after, hosted) ∧
        (ComputeAccounted before after hosted steps ↔ ∀ step ∈ steps, step.Covered) := by
  rw [executeUserProgram, returns_onFault] at gave
  obtain ⟨stored, mid, reads, gave⟩ := returns_bind.mp gave
  simp only [getState, returns_bind, returns_read, returns_ofExcept] at reads
  obtain ⟨_, _, ⟨rfl, rfl⟩, found, rfl⟩ := reads
  cases stored with
  | none => exact .inl (returns_pure.mp gave)
  | some object =>
    simp only at gave
    split at gave
    · exact (not_returns_fail gave).elim
    · obtain ⟨steps, hosted, recorded⟩ := traced_of_start gave
      exact .inr ⟨object, steps, hosted, found, recorded, startTraced_accounted_iff recorded⟩

/-- A context with a program in its frame and a thousand ticks. -/
def thousandTicks : Context :=
  { Context.create Forest.empty 0 .blockApplication with
    meter := Meter.create.setResourceLimits ⟨⟨0, 0, 1000⟩, ⟨0, 0, 0⟩⟩
    stack := [⟨Context.coin, [], [], [], [], 0⟩] }

/-- A memory with a buffer of 33 bytes behind the word with its size. -/
def callerMemory (rest : Bytes) : Bytes := [33, 0, 0, 0] ++ List.replicate 33 0 ++ rest

/-- A module that works, asks for its caller, and works again. -/
def askingOn (memory : Bytes) : Module :=
  .entry (.instruction 300 (.host (.respublicaGetCaller 4 0) (some memory) fun _ =>
    .instruction 200 (.finish false)))

/-- The module with a memory of one page. -/
def asking : Module := askingOn (callerMemory (List.replicate 65499 0))

/-- A module that needs more than a thousand ticks. -/
def spinning : Module := .entry (.instruction 600 (.instruction 600 (.finish false)))

/-- A thousand ticks of which some are used. -/
def usedTicks (ticks : UInt64) : Context :=
  { thousandTicks with meter := { thousandTicks.meter with
    remaining := ⟨0, 0, 1000 - ticks⟩
    systemUse := ⟨0, 0, ticks⟩ } }

/-- The call is served and charged, whatever is behind the buffer. -/
theorem caller_served (rest : Bytes) :
    ∃ body, resolve (some (callerMemory rest)) (.respublicaGetCaller 4 0) = .ok (some body) ∧
      (interpret (meteredHost Env.plain.crypto (runProgram .plain))
        (withMeterTicks 1000 700 (some (callerMemory rest)) body)).Returns
        (thousandTicks, 0) ((.error (.controller .ok),
          some ([0, 0, 0, 0] ++ List.replicate 33 0 ++ rest)), 699, 699) (usedTicks 301, 1) :=
  ⟨_, rfl, rfl⟩

/-- The module runs to its end. -/
theorem startTraced_asking (rest : Bytes) :
    (interpret (meteredHost Env.plain.crypto (runProgram .plain))
      (startTraced (askingOn (callerMemory rest)))).Returns (thousandTicks, 0)
      ([⟨1000, 1000, 300⟩, ⟨699, 699, 200⟩], .virtualMachine .ok) (usedTicks 501, 1) := by
  obtain ⟨body, resolved, served⟩ := caller_served rest
  rw [show (700 : Int64) = (1000 : UInt64).toInt64 - (300 : UInt32).toUInt64.toInt64 by decide]
    at served
  have called : (interpret (meteredHost Env.plain.crypto (runProgram .plain))
      (execute (.host (.respublicaGetCaller 4 0) (some (callerMemory rest)) fun _ =>
        .instruction 200 (.finish false)) 1000
        ((1000 : UInt64).toInt64 - (300 : UInt32).toUInt64.toInt64) (.virtualMachine .ok))).Returns
      (thousandTicks, 0) ⟨false, .virtualMachine .ok, 699, 499, [⟨699, 699, 200⟩]⟩
      (usedTicks 301, 1) :=
    execute_of_served resolved served rfl rfl
  have asked : (meteredHost Env.plain.crypto (runProgram .plain)
      .getMeterTicks).Returns (thousandTicks, 0) 1000 (thousandTicks, 0) := rfl
  have settled : (meteredHost Env.plain.crypto (runProgram .plain)
      (.useMeterTicks (699 - (499 : Int64).toUInt64))).Returns (usedTicks 301, 1) (.controller .ok)
      (usedTicks 501, 1) := rfl
  have executed := execute_of_covered (by decide) called
  exact start_of_settled asked executed settled rfl

/-- The first module is charged for its instructions and for its call. -/
theorem compute_accounted_of_asking :
    ∃ after steps hosted, after.compute = 499 ∧
      (interpret (answerHost Env.plain.crypto
        (runProgram .plain)) (start asking)).Returns thousandTicks
        (.virtualMachine .ok) after ∧ ComputeAccounted thousandTicks after hosted steps := by
  have gave : (interpret (answerHost Env.plain.crypto (runProgram .plain))
      (start asking)).Returns thousandTicks (.virtualMachine .ok) (usedTicks 501) :=
    start_of_traced
      ((returns_interpret_iff_recording 0).mpr ⟨1, startTraced_asking _⟩)
  obtain ⟨steps, hosted, traced, accounted⟩ := compute_accounted_iff_covered _ _ asking gave
  obtain rfl : steps = [⟨1000, 1000, 300⟩, ⟨699, 699, 200⟩] :=
    congrArg Prod.fst (traced.unique (startTraced_asking _)).1
  exact ⟨_, _, hosted, by decide +kernel, gave, accounted.mpr (by decide)⟩

/-- The second module runs out of ticks and is charged nothing. -/
theorem exhausted_run_uncharged :
    (interpret (meteredHost Env.plain.crypto (runProgram .plain))
        (startTraced spinning)).Returns (thousandTicks, 0)
        ([⟨1000, 1000, 600⟩, ⟨1000, 400, 600⟩], .controller .computeBandwidthLimitExceeded)
        (thousandTicks, 0) ∧
      ¬ ComputeAccounted thousandTicks thousandTicks 0 [⟨1000, 1000, 600⟩, ⟨1000, 400, 600⟩] := by
  refine ⟨rfl, fun accounted => ?_⟩
  exact absurd accounted.total (by decide +kernel)

end Respublica.Controller
