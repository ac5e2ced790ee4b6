import Respublica.Controller.ComputeMetering
import Respublica.Controller.Ownership
import Respublica.Vm.VirtualMachine

/-!
# Running programs from the module cache

A stored program is the hash of its bytecode and the bytecode, and the hash is the id under which
the virtual machine caches the module. Whatever has been uploaded, run and dropped before, the
module that is run is the one that the stored bytecode is parsed to, as long as no two uploaded
bytecodes have the same hash.
-/

namespace Respublica.Controller

open Foundation Effect Program Protocol StateDb Vm Context ProgramContext

/-- The context that is worked in, the cache of the virtual machine with the threads that use it,
and the programs that were uploaded so far. -/
structure ProgramSite where
  context : Context
  loader : Loader Module
  uploads : List (Account × Bytes)

/-- The programs that a context shows are uploaded ones. -/
def Uploaded (env : Env) (uploads : List (Account × Bytes)) (context : Context) :
    Prop :=
  ∀ account object, context.view (programKey account) = some object →
    ∃ bytecode, (account, bytecode) ∈ uploads ∧ object = programObject env bytecode

/-- An id is the hash of a bytecode that was uploaded. -/
def HashOfUpload (env : Env) (uploads : List (Account × Bytes))
    (bytecode id : Bytes) : Prop :=
  (∃ account, (account, bytecode) ∈ uploads) ∧ id = (env.crypto.hash bytecode).1

/-- Histories of a node: it starts with an empty cache on a state of uploaded programs; uploads
go through; the work moves to any other context that shows uploaded programs, of another thread,
another block or another fork; threads look up the stored programs of accounts, and end what they
have begun to load. -/
inductive ProgramHistory (env : Env) (parse : Bytes → Module) :
    ProgramSite → Prop where
  | start {context : Context} {uploads : List (Account × Bytes)} :
      Uploaded env uploads context →
        ProgramHistory env parse ⟨context, .create defaultModuleCacheSize, uploads⟩
  | uploaded {site : ProgramSite} {account : Account} {bytecode : Bytes} {context : Context} :
      ProgramHistory env parse site →
        (applyUploadProgram env account bytecode).Returns site.context
          (.controller .ok) context →
        ProgramHistory env parse
          ⟨context, site.loader, (account, bytecode) :: site.uploads⟩
  | moved {site : ProgramSite} {context : Context} : ProgramHistory env parse site →
      Uploaded env site.uploads context →
        ProgramHistory env parse ⟨context, site.loader, site.uploads⟩
  | looked {site : ProgramSite} {account : Account} {object : Bytes} {event : LoadEvent Module}
      {loader : Loader Module} : ProgramHistory env parse site →
        site.context.view (programKey account) = some object →
        event.asks = some (object.drop 32, object.take 32) →
        Loader.Step (fizzyParse parse) site.loader event loader →
        ProgramHistory env parse ⟨site.context, loader, site.uploads⟩
  | ended {site : ProgramSite} {event : LoadEvent Module} {loader : Loader Module} :
      ProgramHistory env parse site → event.asks = none →
        Loader.Step (fizzyParse parse) site.loader event loader →
        ProgramHistory env parse ⟨site.context, loader, site.uploads⟩

variable {env : Env} {parse : Bytes → Module} {site : ProgramSite}

/-- An object begins with the hash of the bytecode. -/
theorem take_programObject (bytecode : Bytes) :
    (programObject env bytecode).take 32 = (env.crypto.hash bytecode).1 :=
  List.take_left' (env.crypto.hash bytecode).2

/-- Behind the hash is the bytecode. -/
theorem drop_programObject (bytecode : Bytes) :
    (programObject env bytecode).drop 32 = bytecode :=
  List.drop_left' (env.crypto.hash bytecode).2

variable {uploads : List (Account × Bytes)} {before after : Context} {account : Account}
  {object : Bytes}

theorem Uploaded.mono {context : Context} {more : List (Account × Bytes)}
    (uploaded : Uploaded env uploads context) (grows : uploads ⊆ more) :
    Uploaded env more context := by
  intro account object shown
  obtain ⟨bytecode, mem, same⟩ := uploaded account object shown
  exact ⟨bytecode, grows mem, same⟩

/-- An upload that goes through adds its program to the uploaded ones. -/
theorem Uploaded.applyUploadProgram (uploaded : Uploaded env uploads before) {bytecode : Bytes}
    (applied : (applyUploadProgram env account bytecode).Returns before (.controller .ok) after) :
    Uploaded env ((account, bytecode) :: uploads) after := by
  obtain ⟨failed, -⟩ | ⟨-, -, stored, others⟩ := applyUploadProgram_outcome applied
  · exact absurd failed (by decide)
  intro other object shown
  by_cases same : other = account
  · subst same
    exact ⟨bytecode, List.mem_cons_self, Option.some.inj (shown.symm.trans stored)⟩
  · rw [others other same] at shown
    exact uploaded.mono (List.subset_cons_self _ _) other object shown

section

variable (history : ProgramHistory env parse site)
include history

/-- Every program of a history was uploaded in it. -/
theorem ProgramHistory.stored :
    Uploaded env site.uploads site.context := by
  induction history with
  | start uploaded => exact uploaded
  | uploaded _ applied before => exact before.applyUploadProgram applied
  | moved _ uploaded _ => exact uploaded
  | looked _ _ _ _ before => exact before
  | ended _ _ _ before => exact before

/-- The threads of a history make a run over the cache. -/
theorem ProgramHistory.loads :
    ∃ trail, LoadRun (fizzyParse parse) defaultModuleCacheSize trail site.loader := by
  induction history with
  | start => exact ⟨[], .start⟩
  | uploaded _ _ before => exact before
  | moved _ _ before => exact before
  | looked _ _ _ step before =>
    obtain ⟨trail, run⟩ := before
    exact ⟨_, run.step step⟩
  | ended _ _ step before =>
    obtain ⟨trail, run⟩ := before
    exact ⟨_, run.step step⟩

/-- Threads load and the cache holds uploaded programs under their hashes. -/
theorem ProgramHistory.faithful :
    site.loader.Faithful (fizzyParse parse) (HashOfUpload env site.uploads) := by
  induction history with
  | start => exact Loader.faithful_create _ _ _
  | uploaded _ _ before =>
    refine before.mono fun bytecode id known => ?_
    obtain ⟨⟨account, mem⟩, hashed⟩ := known
    exact ⟨⟨account, List.mem_cons_of_mem _ mem⟩, hashed⟩
  | moved _ _ before => exact before
  | @looked site account object event loader history shown asks step before =>
    obtain ⟨trail, run⟩ := history.loads
    refine before.step step run.sane.intact fun bytecode id asked => ?_
    obtain ⟨uploaded, mem, rfl⟩ := history.stored account object shown
    rw [take_programObject, drop_programObject, asked] at asks
    cases asks
    exact ⟨⟨account, mem⟩, rfl⟩
  | ended history silent step before =>
    obtain ⟨trail, run⟩ := history.loads
    refine before.step step run.sane.intact fun bytecode id asked => ?_
    rw [silent] at asked
    cases asked

/-- No two of the uploaded bytecodes have the same hash. -/
def CollisionFree (env : Env) (uploads : List (Account × Bytes)) : Prop :=
  Set.InjOn env.crypto.hash {bytecode | ∃ account, (account, bytecode) ∈ uploads}

/-- The virtual machine runs a stored program as its bytecode is parsed. -/
theorem ProgramHistory.runs_parsed (collisionFree : CollisionFree env site.uploads)
    (stored : site.context.view (programKey account) = some object) :
    ∃ bytecode cache, object = programObject env bytecode ∧
      (virtualMachineRun parse (object.drop 32) (object.take 32)).Returns site.loader.cache
        (ProgramContext.start (parsedModule parse bytecode)) cache := by
  obtain ⟨bytecode, mem, rfl⟩ := history.stored account object stored
  obtain ⟨trail, run⟩ := history.loads
  have digest := (env.crypto.hash bytecode).2
  have present : (env.crypto.hash bytecode).1 ≠ [] := by
    intro empty
    rw [empty] at digest
    cases digest
  have only : ∀ other, HashOfUpload env site.uploads other
      (env.crypto.hash bytecode).1 → other = bytecode := by
    rintro other ⟨uploaded, same⟩
    exact collisionFree uploaded ⟨account, mem⟩ (Subtype.ext same.symm)
  obtain ⟨cache, makes⟩ := history.faithful.makeModule_returns run.sane.intact
    (run.cacheSize ▸ by decide) present only
  rw [take_programObject, drop_programObject]
  exact ⟨bytecode, cache, rfl, virtualMachineRun_returns makes⟩

/-- A run of a stored program that nothing comes between prolongs a history. -/
theorem ProgramHistory.prolonged {thread : Nat}
    (idle : site.loader.loading thread = none)
    (stored : site.context.view (programKey account) = some object) {program : UserProgram}
    {cache : ModuleCache Module}
    (gave : (virtualMachineRun parse (object.drop 32) (object.take 32)).Returns site.loader.cache
      program cache) :
    ∃ loader, ProgramHistory env parse ⟨site.context, loader, site.uploads⟩ ∧
      loader.cache = cache ∧ loader.loading = site.loader.loading := by
  obtain ⟨outcome, mid, makes, gave⟩ := returns_bind.mp gave
  obtain rfl : mid = cache := by
    cases outcome with
    | error error => exact (returns_pure.mp gave).2.symm
    | ok module_ => exact (returns_pure.mp gave).2.symm
  obtain ⟨loader, cached, restored, ⟨event, hit, asks⟩ | ⟨middle, event, miss, ended, silent⟩⟩ :=
    Loader.steps_of_makeModule idle makes
  · exact ⟨loader, history.looked stored asks hit, cached, restored⟩
  · exact ⟨loader, (history.looked stored rfl miss).ended silent ended, cached, restored⟩

end

/-- The meter answers with codes of the controller. -/
theorem useMeterTicks_code_ne {crypto : Crypto.Primitives} {run : Runner} {ticks : UInt64}
    {code : ErrorCode}
    (gave : (answerHost crypto run (.useMeterTicks ticks)).Returns before code after) :
    code ≠ .virtualMachine .invalidModule := by
  obtain ⟨meter, used, -⟩ := returns_onMeter.mp gave
  obtain ⟨rfl, -⟩ | ⟨-, refused⟩ := Meter.outcome_of_use used
  · rintro ⟨⟩
  · cases refused with
    | limit => rintro ⟨⟩
    | session => rintro ⟨⟩

/-- Run in a context, a module is reported as invalid exactly when it is. -/
theorem start_invalid_iff (crypto : Crypto.Primitives) (run : Runner) (module_ : Module)
    (before : Context) :
    (∃ after, (Interaction.interpret (answerHost crypto run)
      (start module_)).Returns before (.virtualMachine .invalidModule) after) ↔
      module_ = .invalid := by
  constructor
  · rintro ⟨after, gave⟩
    by_contra valid
    exact start_code_ne valid (fun _ _ _ _ => useMeterTicks_code_ne) gave rfl
  · rintro rfl
    exact ⟨before, returns_pure.mpr ⟨rfl, rfl⟩⟩

/-- In every history, the virtual machine runs the module that the stored bytecode of an account
is parsed to, whatever is in its cache, and it returns `invalid_module` exactly when that bytecode
is empty or is not parsed. -/
theorem module_cache_transparent (history : ProgramHistory env parse site)
    (collisionFree : CollisionFree env site.uploads) {account : Account} {object : Bytes}
    (stored : site.context.view (programKey account) = some object) :
    ∃ bytecode cache, object = programObject env bytecode ∧
      (virtualMachineRun parse (object.drop 32) (object.take 32)).Returns site.loader.cache
        (start (parsedModule parse bytecode)) cache ∧
      ∀ run before,
        (∃ after, (Interaction.interpret (answerHost env.crypto run)
          (start (parsedModule parse bytecode))).Returns before
            (.virtualMachine .invalidModule) after) ↔ bytecode = [] ∨
              parse bytecode = .invalid := by
  obtain ⟨bytecode, cache, same, runs⟩ := history.runs_parsed collisionFree stored
  refine ⟨bytecode, cache, same, runs, fun run before => ?_⟩
  rw [start_invalid_iff, parsedModule_eq_invalid_iff]

/-- The shortest WebAssembly module: its magic number and its version, without any sections. -/
def emptyModule : Bytes := [0, 97, 115, 109, 1, 0, 0, 0]

/-- A parser that knows no other module. It has no entry point. -/
def parseEmpty (bytecode : Bytes) : Module :=
  if bytecode = emptyModule then .withoutEntry else .invalid

/-- The context of a transaction that uploads the module as its first program. -/
def signing : Context :=
  beginTransaction (uploading (SizedBytes.fit 33 [0, 7]) moduleId.userAccount moduleId emptyModule)
    (blockOn [])

/-- A thread that has looked up the uploaded program, and has not found it. -/
def missing : Loader Module :=
  ⟨.create defaultModuleCacheSize, Function.update (fun _ => none) 0
    (some ((programObject .plain emptyModule).drop 32, (programObject .plain emptyModule).take 32)),
      []⟩

/-- A program is uploaded and run, so that it is held by the cache, and then it is run again. -/
theorem module_cache_transparent_for_held_program : ∃ site cache,
    ProgramHistory .plain parseEmpty site ∧
    site.context.view (programKey moduleId) = some (programObject .plain emptyModule) ∧
    (site.loader.cache.abstraction.values ((programObject .plain emptyModule).take 32)).isSome ∧
    (virtualMachineRun parseEmpty emptyModule ((programObject .plain emptyModule).take 32)).Returns
      site.loader.cache (start .withoutEntry) cache := by
  have started : ProgramHistory .plain parseEmpty
      ⟨signing, .create defaultModuleCacheSize, []⟩ :=
    .start fun account object shown => absurd shown (Option.some_ne_none _).symm
  have uploaded := started.uploaded (returns_of_fst
    (show (applyUploadProgram .plain moduleId emptyModule signing).1 = .ok (.controller .ok) by
      decide +kernel))
  have stored : (applyUploadProgram .plain moduleId emptyModule signing).2.view
      (programKey moduleId) = some (programObject .plain emptyModule) :=
    Heap.view_of_get (by decide +kernel)
  have misses : Loader.Step (fizzyParse parseEmpty) (.create defaultModuleCacheSize)
      (.miss 0 ((programObject .plain emptyModule).drop 32)
        ((programObject .plain emptyModule).take 32)) missing :=
    .miss rfl rfl
  have looked := uploaded.looked stored rfl misses
  have puts := putModule_returns_snd (ModuleCache.intact_create defaultModuleCacheSize) (by decide)
    ((programObject .plain emptyModule).take 32) Module.withoutEntry
  have inserted : Loader.Step (fizzyParse parseEmpty) missing
      (.inserted 0 ((programObject .plain emptyModule).drop 32)
        ((programObject .plain emptyModule).take 32) .withoutEntry) _ := .inserted rfl rfl puts
  have ran := looked.ended rfl inserted
  have collisionFree : CollisionFree .plain [(moduleId, emptyModule)] := by
    rintro first ⟨_, firstMember⟩ second ⟨_, secondMember⟩ -
    obtain ⟨-, rfl⟩ := Prod.mk.inj (List.mem_singleton.mp firstMember)
    obtain ⟨-, rfl⟩ := Prod.mk.inj (List.mem_singleton.mp secondMember)
    rfl
  obtain ⟨bytecode, cache, same, runs, -⟩ := module_cache_transparent ran collisionFree stored
  have bytes := congrArg (List.drop 32) same
  rw [drop_programObject, drop_programObject] at bytes
  subst bytes
  exact ⟨_, cache, ran, stored, by decide +kernel, runs⟩

/-- So `execute_user_program` does with the cache what it does when every module is parsed
anew. -/
theorem ProgramHistory.executeUserProgram_eq (history : ProgramHistory env parse site)
    (collisionFree : CollisionFree env site.uploads)
    (got : site.context.heap.get site.context.stateNode (programKey account) = .ok (some object))
    (run : Runner) :
    ∃ program cache,
      (virtualMachineRun parse (object.drop 32) (object.take 32)).Returns site.loader.cache program
        cache ∧
      executeUserProgram (env.loading fun _ => parsedModule parse) run account
          site.context =
        Effect.onFault Context.terminating (Interaction.interpret
          (answerHost env.crypto run) program) site.context := by
  obtain ⟨bytecode, cache, same, runs⟩ := history.runs_parsed collisionFree (Heap.view_of_get got)
  refine ⟨_, cache, runs, ?_⟩
  have long : ¬ object.length < 32 := by
    have digest := (env.crypto.hash bytecode).2
    rw [same, programObject, List.length_append]
    omega
  have reads : (getState ObjectSpace.programData account.1).Returns site.context
      (some object) site.context :=
    returns_bind.mpr ⟨_, _, returns_read.mpr ⟨rfl, rfl⟩, returns_ofExcept.mpr ⟨got, rfl⟩⟩
  refine onFault_congr ((reads.bind_eq _).trans ?_)
  simp only [if_neg long, Env.loading]
  rw [same, drop_programObject]

/-- The programs of a state that transactions have made from one without programs are uploaded
ones. -/
theorem TransactionRun.uploaded {start : Context} {steps : List (Transaction × Context)}
    (run : TransactionRun env start steps after)
    (none : ∀ account, start.view (programKey account) = none)
    (listed : ∀ step ∈ steps, ∀ account bytecode mid next, Context.Moment env step.1 step.2
      (.uploadProgram account bytecode) mid next → (account, bytecode) ∈ uploads) :
    Uploaded env uploads after := by
  intro account object shown
  have changed : after.view (programKey account) ≠ start.view (programKey account) := by
    rw [shown, none account]
    exact Option.some_ne_none _
  obtain ⟨step, mem, bytecode, mid, next, moment, stored⟩ := run.changed changed
  exact ⟨bytecode, listed step mem account bytecode mid next moment,
    Option.some.inj (shown.symm.trans stored)⟩

end Respublica.Controller
