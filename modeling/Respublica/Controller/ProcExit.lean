import Respublica.Controller.ComputeMetering

/-!
# Exits of modules

`proc_exit` stores the exit code as the error code of the run and returns to fizzy as a function
that did not trap. So fizzy goes on with what follows the call, and that is one instruction at
least, the end of the function. Further instructions and calls of imported functions take place, a
later exit replaces the code, and a trap after an exit with code zero is reported as a trap.
-/

namespace Respublica.Vm

open Foundation Effect Program Interaction ProgramContext

/-- Fizzy with an instance: what is left to be done, the two counters, and the stored error
code. -/
structure Machine where
  execution : Execution
  ticks : UInt64
  counter : Int64
  errorCode : ErrorCode

namespace Machine

variable {State : Type}
  {handler : (request : HostCall) → Effect StateDb.Fault State request.Response}

/-- What is left of an execution, run to its end. -/
def execute (machine : Machine) : HostProgram Outcome :=
  ProgramContext.execute machine.execution machine.ticks machine.counter machine.errorCode

/-- A part of a run: instructions that are paid for, calls that do not halt the run, and a call with
a bad address, which traps. -/
inductive Path (handler : (request : HostCall) → Effect StateDb.Fault State request.Response) :
    Machine → State → Machine → State → Prop where
  | here {machine : Machine} {state : State} : Path handler machine state machine state
  | instruction {cost : UInt32} {next : Execution} {ticks : UInt64} {counter : Int64}
      {errorCode : ErrorCode} {state mid : State} {machine : Machine} :
      ¬ counter - cost.toUInt64.toInt64 < 0 →
        Path handler ⟨next, ticks, counter - cost.toUInt64.toInt64, errorCode⟩ state machine
          mid →
        Path handler ⟨.instruction cost next, ticks, counter, errorCode⟩ state machine mid
  | trap {function : HostFunction} {memory : Option Bytes} {next : HostAnswer → Execution}
      {ticks : UInt64} {counter : Int64} {errorCode : ErrorCode} {state mid : State}
      {machine : Machine} : resolve memory function = .ok none →
        Path handler ⟨.finish true, ticks, counter, errorCode⟩ state machine mid →
        Path handler ⟨.host function memory next, ticks, counter, errorCode⟩ state machine mid
  | host {function : HostFunction} {memory left : Option Bytes} {next : HostAnswer → Execution}
      {body : HostProgram (HostCode × Option Bytes)} {code : HostCode} {ticks leftTicks : UInt64}
      {counter leftCounter : Int64} {errorCode : ErrorCode} {state served mid : State}
      {machine : Machine} : resolve memory function = .ok (some body) →
        (interpret handler (withMeterTicks ticks counter memory body)).Returns state
          ((code, left), leftTicks, leftCounter) served →
        halts code = none →
        Path handler ⟨next ⟨code.value, left⟩, leftTicks, leftCounter,
          leftCode function errorCode⟩ served machine mid →
        Path handler ⟨.host function memory next, ticks, counter, errorCode⟩ state machine mid

/-- Where a path leads, the run it is part of ends; the instructions of the path are before the
others. -/
theorem Path.execute {machine last : Machine} {state mid after : State} {outcome : Outcome}
    (path : Path handler machine state last mid)
    (ended : (interpret handler last.execute).Returns mid outcome after) :
    ∃ steps, (interpret handler machine.execute).Returns state
      { outcome with steps := steps ++ outcome.steps } after := by
  induction path with
  | here => exact ⟨[], ended⟩
  | instruction affordable _ ih =>
    obtain ⟨steps, executed⟩ := ih ended
    exact ⟨_ :: steps, ProgramContext.execute_of_covered affordable executed⟩
  | trap trapped _ ih =>
    obtain ⟨steps, executed⟩ := ih ended
    refine ⟨steps, ?_⟩
    simp only [Machine.execute, ProgramContext.execute, trapped]
    exact executed
  | host resolved serves goesOn _ ih =>
    obtain ⟨steps, executed⟩ := ih ended
    exact ⟨steps, ProgramContext.execute_of_served resolved serves goesOn executed⟩

end Machine

end Respublica.Vm

namespace Respublica.Controller

open Foundation Effect Program Protocol StateDb Vm Interaction ProgramContext

section Exits

variable {crypto : Crypto.Primitives} {run : Runner} {before called paid : Context}
  {ticks : UInt64} {counter : Int64} {error errorCode : ErrorCode} {memory : Option Bytes}

variable {execution : Execution} {next : HostAnswer → Execution} {code : Int32}

end Exits

end Respublica.Controller
