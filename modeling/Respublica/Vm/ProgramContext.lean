import Respublica.Vm.HostApi

/-!
# The virtual machine

A `program_context` runs a module in fizzy and serves its imported functions. The compute budget
is kept in three places: the meter behind the host interface, `_ticks`, which is what the meter
had at the last synchronisation, and fizzy's signed counter, which the instructions count down.

What fizzy makes of a module is a parameter: an `Execution` is the sequence of instructions with
their costs and of calls to imported functions, each with the memory it is made on and with what
the caller does with the answer.

A module may declare a start function. `fizzy_resolve_instantiate` runs it while the module is
instantiated, before there is a metered context, so its instructions and the ticks around its host
calls are not charged. No start function is modelled: modules are taken to have none.
-/

namespace Respublica.Vm

open Foundation Effect Program Protocol Interaction

/-- What an imported function gives back: its value, and the memory it leaves. -/
structure HostAnswer where
  value : Int
  memory : Option Bytes

/-- What fizzy does with an instance. A function is called on the memory that the instance has. -/
inductive Execution where
  | finish (trapped : Bool)
  | instruction (cost : UInt32) (next : Execution)
  | host (function : HostFunction) (memory : Option Bytes) (next : HostAnswer → Execution)

/-- A module without a start function, as fizzy takes it. -/
inductive Module where
  | invalid
  | unresolved
  | withoutEntry
  | entry (execution : Execution)

/-- An instruction that was begun: the budget at the last synchronisation, what was left of it,
and the cost. -/
structure InstructionStep where
  budget : UInt64
  left : UInt64
  cost : UInt32

/-- How an execution ended, with the two counters and the instructions that were begun. The
source keeps no such list. -/
structure Outcome where
  trapped : Bool
  errorCode : ErrorCode
  ticks : UInt64
  counter : Int64
  steps : List InstructionStep

/-- The counter is negative when its bits are those of a large unsigned number. -/
theorem counter_neg_iff (counter : Int64) : counter < 0 ↔ 2 ^ 63 ≤ counter.toUInt64.toNat := by
  have bits : counter.toInt = counter.toUInt64.toBitVec.toInt := rfl
  have number : counter.toUInt64.toBitVec.toNat = counter.toUInt64.toNat := rfl
  have bound := counter.toUInt64.toNat_lt
  rw [Int64.lt_iff_toInt_lt, bits, BitVec.toInt_eq_toNat_cond, number, Int64.toInt_zero]
  split <;> omega

/-- Taking a cost from the counter takes it from its bits. -/
theorem toUInt64_counted (counter : Int64) (cost : UInt32) :
    (counter - cost.toUInt64.toInt64).toUInt64 = counter.toUInt64 - cost.toUInt64 := by
  rw [Int64.toUInt64_sub, UInt64.toUInt64_toInt64]

namespace ProgramContext

/-- `program_context::with_meter_ticks`: what the instructions have counted is used up, the body
runs, and both counters start again from what the meter has left. -/
def withMeterTicks (ticks : UInt64) (counter : Int64) (memory : Option Bytes)
    (body : HostProgram (HostCode × Option Bytes)) :
    HostProgram ((HostCode × Option Bytes) × UInt64 × Int64) := do
  let error ← call (.useMeterTicks (ticks - counter.toUInt64))
  if error.failed then pure ((.error error, memory), ticks, counter)
  else do
    let answer ← body
    let ticks ← call .getMeterTicks
    pure (answer, ticks, ticks.toInt64)

/-- The error code that a function leaves behind when it does not halt the run. -/
def leftCode (function : HostFunction) (errorCode : ErrorCode) : ErrorCode :=
  match function with
  | .wasiProcExit code => .exited code
  | _ => errorCode

/-- `fizzy_execute`: an instruction takes its cost from the counter, and traps when that is
negative. A function traps without a call when it is passed a bad address, and with its error code
when that halts the run. -/
def execute : Execution → UInt64 → Int64 → ErrorCode → HostProgram Outcome
  | .finish trapped, ticks, counter, errorCode => pure ⟨trapped, errorCode, ticks, counter, []⟩
  | .instruction cost next, ticks, counter, errorCode =>
    let step : InstructionStep := ⟨ticks, counter.toUInt64, cost⟩
    let counted := counter - cost.toUInt64.toInt64
    if counted < 0 then pure ⟨true, errorCode, ticks, counted, [step]⟩
    else do
      let outcome ← execute next ticks counted errorCode
      pure { outcome with steps := step :: outcome.steps }
  | .host function memory next, ticks, counter, errorCode =>
    match resolve memory function with
    | .error .outside => .stop .outOfBounds
    | .ok none => pure ⟨true, errorCode, ticks, counter, []⟩
    | .ok (some body) => do
        let (answer, ticks, counter) ← withMeterTicks ticks counter memory body
        match halts answer.1 with
        | some error => pure ⟨true, error, ticks, counter, []⟩
        | none =>
          execute (next ⟨answer.1.value, answer.2⟩) ticks counter (leftCode function errorCode)

/-- What is reported of an execution when its ticks are paid for. -/
def report (outcome : Outcome) : ErrorCode :=
  if outcome.trapped ∧ ¬ outcome.errorCode.failed then .virtualMachine .trapped
  else outcome.errorCode

/-- `program_context::start`, from the creation of the metered context on. -/
def startEntry (execution : Execution) : HostProgram (List InstructionStep × ErrorCode) := do
  let ticks ← call .getMeterTicks
  let outcome ← execute execution ticks ticks.toInt64 (.virtualMachine .ok)
  let error ← call (.useMeterTicks (outcome.ticks - outcome.counter.toUInt64))
  if error.failed then pure (outcome.steps, error)
  else pure (outcome.steps, report outcome)

/-- `virtual_machine::run` and `program_context::start`, with the instructions that were begun. -/
def startTraced : Module → HostProgram (List InstructionStep × ErrorCode)
  | .invalid => pure ([], .virtualMachine .invalidModule)
  | .unresolved => pure ([], .virtualMachine .instantiateFailure)
  | .withoutEntry => do
      let _ ← call .getMeterTicks
      pure ([], .virtualMachine .entryPointNotFound)
  | .entry execution => startEntry execution

/-- The run of a module. -/
def start (module_ : Module) : UserProgram := do
  let (_, code) ← startTraced module_
  pure code

section Steps

variable {State : Type} {handler : (request : HostCall) →
    Effect StateDb.Fault State request.Response}
  {before mid after : State} {ticks : UInt64} {counter : Int64} {errorCode : ErrorCode}
  {outcome : Outcome}

/-- An instruction that the counter covers is the first of the run. -/
theorem execute_of_covered {cost : UInt32} {next : Execution}
    (covered : ¬ counter - cost.toUInt64.toInt64 < 0)
    (executed : (interpret handler
      (execute next ticks (counter - cost.toUInt64.toInt64) errorCode)).Returns before outcome
        after) :
    (interpret handler (execute (.instruction cost next) ticks counter errorCode)).Returns before
      { outcome with steps := ⟨ticks, counter.toUInt64, cost⟩ :: outcome.steps } after := by
  simp only [execute, if_neg covered]
  rw [interpret_bind]
  exact returns_bind.mpr ⟨_, _, executed, returns_pure.mpr ⟨rfl, rfl⟩⟩

/-- A call that is served and does not halt the run goes on with its answer. -/
theorem execute_of_served {function : HostFunction} {memory left : Option Bytes}
    {next : HostAnswer → Execution} {body : HostProgram (HostCode × Option Bytes)} {code : HostCode}
    {leftTicks : UInt64} {leftCounter : Int64}
    (resolved : resolve memory function = .ok (some body))
    (serves : (interpret handler (withMeterTicks ticks counter memory body)).Returns
      before ((code, left), leftTicks, leftCounter) mid)
    (goesOn : halts code = none)
    (executed : (interpret handler (execute (next ⟨code.value, left⟩) leftTicks
      leftCounter (leftCode function errorCode))).Returns mid outcome after) :
    (interpret handler
      (execute (.host function memory next) ticks counter errorCode)).Returns before outcome
      after := by
  simp only [execute, resolved]
  rw [interpret_bind]
  refine returns_bind.mpr ⟨_, _, serves, ?_⟩
  simp only [goesOn]
  exact executed

/-- A run whose ticks are paid for at the end is reported. -/
theorem start_of_settled {execution : Execution} {started : State} {error : ErrorCode}
    (asks : (handler .getMeterTicks).Returns before ticks started)
    (executed : (interpret handler
      (execute execution ticks ticks.toInt64 (.virtualMachine .ok))).Returns started outcome mid)
    (settles : (handler (.useMeterTicks (outcome.ticks - outcome.counter.toUInt64))).Returns mid
      error after) (enough : error.failed = false) :
    (interpret handler (startTraced (.entry execution))).Returns before
      (outcome.steps, report outcome) after := by
  rw [startTraced, startEntry, interpret_bind, call, interpret_perform]
  refine returns_bind.mpr ⟨_, _, asks, ?_⟩
  rw [interpret_bind]
  refine returns_bind.mpr ⟨_, _, executed, ?_⟩
  rw [interpret_bind, call, interpret_perform]
  refine returns_bind.mpr ⟨_, _, settles, ?_⟩
  rw [enough, if_neg Bool.false_ne_true]
  exact returns_pure.mpr ⟨rfl, rfl⟩

/-- The instructions of a run are not reported. -/
theorem start_of_traced {module_ : Module} {steps : List InstructionStep} {code : ErrorCode}
    (traced : (interpret handler (startTraced module_)).Returns before (steps, code)
      after) : (interpret handler (start module_)).Returns before code after := by
  rw [start, interpret_bind]
  exact returns_bind.mpr ⟨_, _, traced, returns_pure.mpr ⟨rfl, rfl⟩⟩

end Steps

end ProgramContext

end Respublica.Vm
