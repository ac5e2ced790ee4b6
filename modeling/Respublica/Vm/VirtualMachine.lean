import Respublica.Vm.ModuleLoading
import Respublica.Vm.ProgramContext

/-!
# The virtual machine with its cache

`virtual_machine::run` makes a module, from the cache or by parsing its bytecode, and runs it.
Here is what it runs when the module is made as it is parsed, and that no other module is reported
as invalid.

`fizzy_parse` is a parameter. The result `.invalid` stands for its null pointer.
-/

namespace Respublica.Vm

open Foundation Effect Program Protocol Interaction ProgramContext

/-- A parsed module, unless there is none. -/
def Module.nonNull : Module → Option Module
  | .invalid => none
  | module_ => some module_

/-- `fizzy_parse` as it is called. -/
def fizzyParse (parse : Bytes → Module) (bytecode : Bytes) : Option Module :=
  (parse bytecode).nonNull

/-- `virtual_machine::run`: the module is made, and what it does is run with the host interface. -/
def virtualMachineRun (parse : Bytes → Module) (bytecode id : Bytes) :
    Effect StateDb.Fault (ModuleCache Module) UserProgram := do
  match ← makeModule (fizzyParse parse) bytecode id with
  | .error error => pure (pure error)
  | .ok module_ => pure (start module_)

/-- What bytecode is parsed to. -/
def parsedModule (parse : Bytes → Module) (bytecode : Bytes) : Module :=
  if bytecode = [] then .invalid else parse bytecode

section Parsing

variable {parse : Bytes → Module} {bytecode id : Bytes}

/-- Bytes are no module if they are empty or fizzy does not parse them. -/
theorem parsedModule_eq_invalid_iff :
    parsedModule parse bytecode = .invalid ↔ bytecode = [] ∨ parse bytecode = .invalid := by
  unfold parsedModule
  split
  · rename_i empty
    simp [empty]
  · rename_i present
    simp [present]

/-- Parsing fails for invalid modules only, with one error. -/
theorem parseBytecode_fizzyParse (parse : Bytes → Module) (bytecode : Bytes) :
    (parsedModule parse bytecode = .invalid ∧
      parseBytecode (fizzyParse parse) bytecode = .error (.virtualMachine .invalidModule)) ∨
    parseBytecode (fizzyParse parse) bytecode = .ok (parsedModule parse bytecode) := by
  unfold parseBytecode parsedModule fizzyParse
  by_cases empty : bytecode = []
  · exact .inl ⟨if_pos empty, if_pos empty⟩
  · rw [if_neg empty, if_neg empty]
    cases parse bytecode with
    | invalid => exact .inl ⟨rfl, rfl⟩
    | unresolved => exact .inr rfl
    | withoutEntry => exact .inr rfl
    | entry execution => exact .inr rfl

/-- When a module is made as it is parsed, it is run as it is parsed. -/
theorem virtualMachineRun_returns {cache after : ModuleCache Module}
    (makes : (makeModule (fizzyParse parse) bytecode id).Returns cache
      (parseBytecode (fizzyParse parse) bytecode) after) :
    (virtualMachineRun parse bytecode id).Returns cache
      (start (parsedModule parse bytecode)) after := by
  refine returns_bind.mpr ⟨_, _, makes, ?_⟩
  rcases parseBytecode_fizzyParse parse bytecode with ⟨invalid, refused⟩ | parsed
  · rw [refused, invalid]
    exact returns_pure.mpr ⟨rfl, rfl⟩
  · rw [parsed]
    exact returns_pure.mpr ⟨rfl, rfl⟩

end Parsing

section Codes

variable {State : Type} {handler : (request : HostCall) →
    Effect StateDb.Fault State request.Response}
  {before after : State}

/-- A run is halted with codes of the controller. -/
theorem halts_ne {code : HostCode} {error : ErrorCode} (halted : halts code = some error) :
    error ≠ .virtualMachine .invalidModule := by
  rintro rfl
  unfold halts at halted
  split at halted <;> cases halted

/-- No host call leaves the code of an invalid module. -/
theorem leftCode_ne (function : HostFunction) {errorCode : ErrorCode}
    (began : errorCode ≠ .virtualMachine .invalidModule) :
    leftCode function errorCode ≠ .virtualMachine .invalidModule := by
  unfold leftCode
  split
  · rintro ⟨⟩
  · exact began

/-- An execution ends with the code that it began with, that of an exit, or that of a halt. -/
theorem execute_errorCode_ne (execution : Execution) {ticks : UInt64} {counter : Int64}
    {errorCode : ErrorCode} {outcome : Outcome}
    (began : errorCode ≠ .virtualMachine .invalidModule)
    (gave : (interpret handler
      (execute execution ticks counter errorCode)).Returns before outcome after) :
    outcome.errorCode ≠ .virtualMachine .invalidModule := by
  induction execution generalizing ticks counter errorCode before outcome after with
  | finish trapped =>
    obtain ⟨rfl, -⟩ := returns_pure.mp gave
    exact began
  | instruction cost next ih =>
    simp only [execute] at gave
    split at gave
    · obtain ⟨rfl, -⟩ := returns_pure.mp gave
      exact began
    · rw [interpret_bind] at gave
      obtain ⟨rest, _, executed, gave⟩ := returns_bind.mp gave
      obtain ⟨rfl, -⟩ := returns_pure.mp gave
      have ended := ih began executed
      exact ended
  | host function memory next ih =>
    simp only [execute] at gave
    split at gave
    · exact absurd gave not_returns_fail
    · obtain ⟨rfl, -⟩ := returns_pure.mp gave
      exact began
    · rw [interpret_bind] at gave
      obtain ⟨answer, _, -, gave⟩ := returns_bind.mp gave
      split at gave
      · rename_i error halted
        obtain ⟨rfl, -⟩ := returns_pure.mp gave
        exact halts_ne halted
      · exact ih _ (leftCode_ne function began) gave

/-- A module that was parsed is not reported as invalid, unless the meter does. -/
theorem start_code_ne {module_ : Module} {code : ErrorCode} (valid : module_ ≠ .invalid)
    (charges : ∀ ticks before error after, (handler (.useMeterTicks ticks)).Returns before error
      after → error ≠ .virtualMachine .invalidModule)
    (gave : (interpret handler (start module_)).Returns before code after) :
    code ≠ .virtualMachine .invalidModule := by
  rw [start, interpret_bind] at gave
  obtain ⟨⟨steps, given⟩, _, started, gave⟩ := returns_bind.mp gave
  obtain ⟨rfl, -⟩ := returns_pure.mp gave
  cases module_ with
  | invalid => exact absurd rfl valid
  | unresolved =>
    obtain ⟨same, -⟩ := returns_pure.mp started
    cases same
    rintro ⟨⟩
  | withoutEntry =>
    rw [startTraced, interpret_bind] at started
    obtain ⟨_, _, -, started⟩ := returns_bind.mp started
    obtain ⟨same, -⟩ := returns_pure.mp started
    cases same
    rintro ⟨⟩
  | entry execution =>
    rw [startTraced, startEntry, interpret_bind] at started
    obtain ⟨ticks, _, -, started⟩ := returns_bind.mp started
    rw [interpret_bind] at started
    obtain ⟨outcome, _, executed, started⟩ := returns_bind.mp started
    rw [interpret_bind] at started
    obtain ⟨error, _, charged, started⟩ := returns_bind.mp started
    rw [Vm.call, interpret_perform] at charged
    split at started
    · obtain ⟨same, -⟩ := returns_pure.mp started
      cases same
      exact charges _ _ _ _ charged
    · obtain ⟨same, -⟩ := returns_pure.mp started
      cases same
      unfold report
      split
      · rintro ⟨⟩
      · exact execute_errorCode_ne execution (by rintro ⟨⟩) executed

end Codes

end Respublica.Vm
