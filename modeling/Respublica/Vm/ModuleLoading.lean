import Respublica.Program.SystemInterface
import Respublica.Vm.ModuleCache

/-!
# Loading modules from several threads

`make_module` looks a module up, and when it is missing parses it and puts it into the cache. The
two accesses to the cache are critical sections of their own, so threads that miss the same id
put it twice: the id is then twice in the list, and the module is dropped when the older place
comes to its end, however recently it was used. This is the only way in which list and map come
apart.
-/

namespace Respublica.Vm

open Foundation Effect Program ModuleCache

variable {Stored : Type}

/-- `parse_bytecode`: what fizzy makes of bytes that are not empty. -/
def parseBytecode (parse : Bytes → Option Stored) (bytecode : Bytes) : Result Stored :=
  if bytecode = [] then .error (.virtualMachine .invalidModule)
  else
    match parse bytecode with
    | none => .error (.virtualMachine .invalidModule)
    | some module_ => .ok module_

/-- `make_module` from where a module is missing. -/
def loadModule (parse : Bytes → Option Stored) (bytecode id : Bytes) :
    Effect StateDb.Fault (ModuleCache Stored) (Result Stored) :=
  match parseBytecode parse bytecode with
  | .error error => pure (.error error)
  | .ok module_ => do
      putModule id module_
      pure (.ok module_)

def makeModule (parse : Bytes → Option Stored) (bytecode id : Bytes) :
    Effect StateDb.Fault (ModuleCache Stored) (Result Stored) :=
  if id = [] then Effect.fail .assertion
  else do
    match ← getModule id with
    | some module_ => pure (.ok module_)
    | none => loadModule parse bytecode id

/-- A cache that threads share, what each of them is loading, bytecode and id, and the uses of
ids, the latest first. The source keeps no list of uses. -/
structure Loader (Stored : Type) where
  cache : ModuleCache Stored
  loading : Nat → Option (Bytes × Bytes)
  uses : List Bytes

/-- What a thread does between two accesses of others. -/
inductive LoadEvent (Stored : Type) where
  | hit (thread : Nat) (bytecode id : Bytes) (module_ : Stored)
  | miss (thread : Nat) (bytecode id : Bytes)
  | refused (thread : Nat) (bytecode id : Bytes) (error : ErrorCode)
  | inserted (thread : Nat) (bytecode id : Bytes) (module_ : Stored)

/-- The id that an event puts into the cache. -/
def LoadEvent.puts : LoadEvent Stored → Option Bytes
  | .inserted _ _ id _ => some id
  | _ => none

/-- The bytecode and the id that an event looks up. -/
def LoadEvent.asks : LoadEvent Stored → Option (Bytes × Bytes)
  | .hit _ bytecode id _ => some (bytecode, id)
  | .miss _ bytecode id => some (bytecode, id)
  | _ => none

namespace Loader

/-- A thread that loads nothing looks a module up, and has it or starts to load it; a thread that
loads a module is refused by the parser or puts it into the cache. -/
inductive Step (parse : Bytes → Option Stored) :
    Loader Stored → LoadEvent Stored → Loader Stored → Prop where
  | hit {state : Loader Stored} {cache : ModuleCache Stored} {thread : Nat} {bytecode id : Bytes}
      {module_ : Stored} : state.loading thread = none →
        (getModule id).Returns state.cache (some module_) cache →
        Step parse state (.hit thread bytecode id module_)
          ⟨cache, state.loading, id :: state.uses⟩
  | miss {state : Loader Stored} {cache : ModuleCache Stored} {thread : Nat} {bytecode id : Bytes} :
      state.loading thread = none → (getModule id).Returns state.cache none cache →
        Step parse state (.miss thread bytecode id)
          ⟨cache, Function.update state.loading thread (some (bytecode, id)), state.uses⟩
  | refused {state : Loader Stored} {thread : Nat} {bytecode id : Bytes} {error : ErrorCode} :
      state.loading thread = some (bytecode, id) → parseBytecode parse bytecode = .error error →
        Step parse state (.refused thread bytecode id error)
          ⟨state.cache, Function.update state.loading thread none, state.uses⟩
  | inserted {state : Loader Stored} {cache : ModuleCache Stored} {thread : Nat}
      {bytecode id : Bytes} {module_ : Stored} :
      state.loading thread = some (bytecode, id) → parseBytecode parse bytecode = .ok module_ →
        (putModule id module_).Returns state.cache () cache →
        Step parse state (.inserted thread bytecode id module_)
          ⟨cache, Function.update state.loading thread none, id :: state.uses⟩

/-- A new cache, and threads that load nothing. -/
def create (size : Nat) : Loader Stored := ⟨.create size, fun _ => none, []⟩

end Loader

/-- One step of a run, with the states around it. -/
structure LoadMoment (Stored : Type) where
  before : Loader Stored
  event : LoadEvent Stored
  after : Loader Stored

/-- Runs of any threads over a new cache of a size, with all that happened. -/
inductive LoadRun (parse : Bytes → Option Stored) (size : Nat) :
    List (LoadMoment Stored) → Loader Stored → Prop where
  | start : LoadRun parse size [] (.create size)
  | step {trail : List (LoadMoment Stored)} {before after : Loader Stored}
      {event : LoadEvent Stored} : LoadRun parse size trail before →
        Loader.Step parse before event after →
        LoadRun parse size (trail ++ [⟨before, event, after⟩]) after

namespace LoadMoment

/-- The cache is as it is meant to be afterwards, and an id that has lost its entry was used
before all others that had one. -/
structure Sound (moment : LoadMoment Stored) : Prop where
  represented : moment.after.cache.Represented
  leastRecent : ∀ id, moment.before.cache.Holds id → ¬ moment.after.cache.Holds id →
    Lru.LeastRecent moment.before.uses moment.before.cache.Holds id

/-- An id that is put into the cache is not among those that stay in the list. -/
def Fresh (moment : LoadMoment Stored) : Prop :=
  ∀ id, moment.event.puts = some id → id ∉ moment.before.cache.abstraction.kept

end LoadMoment

section Steps

variable {parse : Bytes → Option Stored} {before after : Loader Stored} {event : LoadEvent Stored}

namespace Loader

/-- What holds of the cache whatever threads do: keys and positions are valid, and the list is
not longer than the capacity. -/
structure Sane (state : Loader Stored) : Prop where
  intact : state.cache.Intact
  bounded : state.cache.abstraction.order.length ≤ state.cache.abstraction.capacity

/-- List and map agree, and the list is in the order of use. -/
structure Ordered (state : Loader Stored) : Prop where
  agrees : state.cache.abstraction.Exact
  recent : Lru.Recent state.uses state.cache.abstraction.order

theorem sane_create (size : Nat) : (create size : Loader Stored).Sane :=
  ⟨intact_create size, Nat.zero_le _⟩

theorem ordered_create (size : Nat) : (create size : Loader Stored).Ordered :=
  ⟨Lru.exact_empty size, List.Pairwise.nil⟩

/-- All that a step does to the cache: nothing, a use of a module that is held, or an insertion,
for which there is room. -/
theorem Step.cases (step : Step parse before event after) (intact : before.cache.Intact) :
    (event.puts = none ∧ after.cache.abstraction = before.cache.abstraction ∧
      after.uses = before.uses) ∨
    (∃ id, event.puts = none ∧ (before.cache.abstraction.values id).isSome ∧
      after.cache.abstraction = before.cache.abstraction.touch id ∧
      after.uses = id :: before.uses) ∨
    (∃ id module_, event.puts = some id ∧ (0 < before.cache.cacheSize ∨ before.cache.lruList ≠ []) ∧
      after.cache.abstraction = before.cache.abstraction.insert id module_ ∧
      after.uses = id :: before.uses) := by
  cases step with
  | @hit cache thread bytecode id module_ idle gets =>
    obtain ⟨found, -, touched⟩ := intact.of_getModule gets
    exact .inr (.inl ⟨id, rfl, by rw [← found]; rfl, touched, rfl⟩)
  | @miss cache thread bytecode id idle gets =>
    obtain ⟨found, -, touched⟩ := intact.of_getModule gets
    refine .inl ⟨rfl, touched.trans (if_neg ?_), rfl⟩
    rw [← found]
    exact Bool.false_ne_true
  | refused => exact .inl ⟨rfl, rfl, rfl⟩
  | @inserted cache thread bytecode id module_ busy parses puts =>
    exact .inr (.inr ⟨id, module_, rfl, room_of_putModule puts, (intact.of_putModule puts).2, rfl⟩)

/-- Steps leave the cache intact. -/
theorem Step.intact (step : Step parse before event after) (intact : before.cache.Intact) :
    after.cache.Intact := by
  cases step with
  | hit _ gets => exact (intact.of_getModule gets).2.1
  | miss _ gets => exact (intact.of_getModule gets).2.1
  | refused => exact intact
  | inserted _ _ puts => exact (intact.of_putModule puts).1

/-- Steps leave a loader sane. -/
theorem Step.sane (step : Step parse before event after) (sane : before.Sane) : after.Sane := by
  refine ⟨step.intact sane.intact, ?_⟩
  have bounded := sane.bounded
  rcases step.cases sane.intact with ⟨-, same, -⟩ | ⟨id, -, isHeld, touched, -⟩ |
    ⟨id, module_, -, room, inserted, -⟩
  · rwa [same]
  · have known : (before.cache.abstraction.values id).isSome →
        id ∈ before.cache.abstraction.order :=
      fun isSome_ => sane.intact.mem_of_holds ((sane.intact.holds_iff id).mpr isSome_)
    rw [touched, Lru.length_touch known, Lru.touch_of_isSome isHeld]
    exact bounded
  · have positive : 0 < before.cache.abstraction.capacity := by
      rcases room with positive | present
      · exact positive
      · refine Nat.lt_of_lt_of_le ?_ bounded
        rw [abstraction, List.length_map]
        exact List.length_pos_iff.mpr present
    rw [inserted]
    exact Lru.length_insert_le positive bounded id module_

/-- In a sane state, the cache is as it is meant to be when list and map agree. -/
theorem Sane.represented_iff {state : Loader Stored} (sane : state.Sane) :
    state.cache.Represented ↔ state.cache.abstraction.Exact :=
  sane.intact.represented_iff (by simpa [abstraction] using sane.bounded)

/-- A step that puts no id that stays in the list keeps list and map in agreement. -/
theorem Step.ordered (step : Step parse before event after) (sane : before.Sane)
    (ordered : before.Ordered) (fresh : LoadMoment.Fresh ⟨before, event, after⟩) :
    after.Ordered := by
  rcases step.cases sane.intact with ⟨-, same, sameUses⟩ | ⟨id, -, isHeld, touched, used⟩ |
    ⟨id, module_, puts, -, inserted, used⟩
  · exact ⟨same ▸ ordered.agrees, by rw [same, sameUses]; exact ordered.recent⟩
  · exact ⟨touched ▸ ordered.agrees.touch id,
      by rw [touched, used]; exact ordered.recent.touch isHeld⟩
  · have absent := fresh id puts
    exact ⟨inserted ▸ (ordered.agrees.insert_iff id module_).mpr absent,
      by rw [inserted, used]; exact ordered.recent.insert absent module_⟩

variable {id bytecode : Bytes} {loading : Nat → Option (Bytes × Bytes)} {thread : Nat}
  {pair : Bytes × Bytes} {cache : ModuleCache Stored} {uses : List Bytes}

/-- A step drops no other id than the one that was used before all others. -/
theorem Step.leastRecent (step : Step parse before event after) (sane : before.Sane)
    (ordered : before.Ordered) (isHeld : before.cache.Holds id) (dropped : ¬ after.cache.Holds id) :
    Lru.LeastRecent before.uses before.cache.Holds id := by
  have holds : before.cache.Holds = fun id =>
      ((before.cache.abstraction.values id).isSome : Prop) :=
    funext fun id => propext (sane.intact.holds_iff id)
  have afterHolds := (step.intact sane.intact).holds_iff id
  rw [holds] at isHeld ⊢
  rw [afterHolds] at dropped
  rcases step.cases sane.intact with ⟨-, same, -⟩ | ⟨other, -, -, touched, -⟩ |
    ⟨other, module_, -, -, inserted, -⟩
  · rw [same] at dropped
    exact absurd isHeld dropped
  · rw [touched, Lru.values_touch] at dropped
    exact absurd isHeld dropped
  · rw [inserted] at dropped
    exact ordered.recent.dropped ordered.agrees isHeld (Bool.eq_false_iff.mpr dropped)

/-- From a state in which list and map agree, a step is sound exactly when it puts no id that
stays in the list. -/
theorem Step.sound_iff (step : Step parse before event after) (sane : before.Sane)
    (ordered : before.Ordered) :
    LoadMoment.Sound ⟨before, event, after⟩ ↔ LoadMoment.Fresh ⟨before, event, after⟩ := by
  constructor
  · intro sound id puts
    have agrees := (step.sane sane).represented_iff.mp sound.represented
    rcases step.cases sane.intact with ⟨none, -⟩ | ⟨other, none, -⟩ |
      ⟨other, module_, some, -, inserted, -⟩
    · cases none.symm.trans puts
    · cases none.symm.trans puts
    · obtain rfl : other = id := Option.some.inj (some.symm.trans puts)
      rw [inserted] at agrees
      exact (ordered.agrees.insert_iff other module_).mp agrees
  · intro fresh
    exact ⟨(step.sane sane).represented_iff.mpr (step.ordered sane ordered fresh).agrees,
      fun id isHeld dropped => step.leastRecent sane ordered isHeld dropped⟩

/-- What a thread loads after another has begun or ended to load. -/
theorem loading_of_update {other : Nat} {value : Option (Bytes × Bytes)}
    (loads : Function.update loading thread value other = some pair) :
    (other = thread ∧ value = some pair) ∨ (other ≠ thread ∧ loading other = some pair) := by
  by_cases same : other = thread
  · subst same
    rw [Function.update_self] at loads
    exact .inl ⟨rfl, loads⟩
  · rw [Function.update_of_ne same] at loads
    exact .inr ⟨same, loads⟩

theorem loading_of_ended {other : Nat}
    (loads : Function.update loading thread none other = some pair) :
    other ≠ thread ∧ loading other = some pair := by
  rcases loading_of_update loads with ⟨-, none⟩ | still
  · cases none
  · exact still

/-- A call of `make_module` is a lookup that hits, or one that misses and the end of the loading. -/
theorem steps_of_makeModule (idle : before.loading thread = none) {outcome : Result Stored}
    (gave : (makeModule parse bytecode id).Returns before.cache outcome cache) :
    ∃ after, after.cache = cache ∧ after.loading = before.loading ∧
      ((∃ event, Step parse before event after ∧ event.asks = some (bytecode, id)) ∨
        ∃ middle event, Step parse before (.miss thread bytecode id) middle ∧
          Step parse middle event after ∧ event.asks = none) := by
  rw [makeModule, returns_ite] at gave
  split at gave
  · exact absurd gave not_returns_fail
  obtain ⟨found, mid, gets, gave⟩ := returns_bind.mp gave
  cases found with
  | some module_ =>
    obtain ⟨-, rfl⟩ := returns_pure.mp gave
    exact ⟨⟨cache, before.loading, id :: before.uses⟩, rfl, rfl,
      .inl ⟨.hit thread bytecode id module_, .hit idle gets, rfl⟩⟩
  | none =>
    have miss : Step parse before (.miss thread bytecode id)
        ⟨mid, Function.update before.loading thread (some (bytecode, id)), before.uses⟩ :=
      .miss idle gets
    have busy := Function.update_self thread (some (bytecode, id)) before.loading
    have restored : Function.update
        (Function.update before.loading thread (some (bytecode, id))) thread none =
          before.loading := by
      rw [Function.update_idem, ← idle, Function.update_eq_self]
    simp only [loadModule] at gave
    split at gave
    · rename_i error parses
      obtain ⟨-, rfl⟩ := returns_pure.mp gave
      exact ⟨_, rfl, restored, .inr ⟨_, _, miss, .refused busy parses, rfl⟩⟩
    · rename_i module_ parses
      obtain ⟨_, last, puts, gave⟩ := returns_bind.mp gave
      obtain ⟨-, rfl⟩ := returns_pure.mp gave
      exact ⟨_, rfl, restored, .inr ⟨_, _, miss, .inserted busy parses puts, rfl⟩⟩

end Loader

end Steps

/-! What the cache gives for an id depends on what it was asked for: as long as lookups pair an id
with one bytecode only, it gives what parsing that bytecode gives. -/

section Pairs

variable {parse : Bytes → Option Stored} {before after : Loader Stored} {event : LoadEvent Stored}
  {known wider : Bytes → Bytes → Prop}

/-- Every module that is loaded or held has a bytecode that is known for its id. -/
structure Loader.Faithful (parse : Bytes → Option Stored) (known : Bytes → Bytes → Prop)
    (state : Loader Stored) : Prop where
  loading : ∀ thread bytecode id, state.loading thread = some (bytecode, id) → known bytecode id
  held : ∀ id module_, state.cache.abstraction.values id = some module_ →
    ∃ bytecode, known bytecode id ∧ parseBytecode parse bytecode = .ok module_

/-- A new loader is faithful. -/
theorem Loader.faithful_create (parse : Bytes → Option Stored) (known : Bytes → Bytes → Prop)
    (size : Nat) : (Loader.create size).Faithful parse known :=
  ⟨fun _ _ _ loads => absurd loads (Option.some_ne_none _).symm,
    fun _ _ isHeld => absurd isHeld (Option.some_ne_none _).symm⟩

theorem Loader.Faithful.mono (faithful : before.Faithful parse known)
    (weaker : ∀ bytecode id, known bytecode id → wider bytecode id) : before.Faithful parse wider :=
  ⟨fun thread bytecode id loads => weaker _ _ (faithful.loading thread bytecode id loads),
    fun id module_ isHeld =>
      let ⟨bytecode, isKnown, parses⟩ := faithful.held id module_ isHeld
      ⟨bytecode, weaker _ _ isKnown, parses⟩⟩

/-- Steps of known loads leave a loader faithful. -/
theorem Loader.Faithful.step (faithful : before.Faithful parse known)
    (step : Loader.Step parse before event after) (intact : before.cache.Intact)
    (asked : ∀ bytecode id, event.asks = some (bytecode, id) → known bytecode id) :
    after.Faithful parse known := by
  cases step with
  | hit idle gets =>
    obtain ⟨-, -, touched⟩ := intact.of_getModule gets
    refine ⟨faithful.loading, fun other module_ isHeld => faithful.held other module_ ?_⟩
    rwa [touched, Lru.values_touch] at isHeld
  | @miss cache thread bytecode id idle gets =>
    obtain ⟨-, -, touched⟩ := intact.of_getModule gets
    refine ⟨fun other otherBytecode otherId loads => ?_,
      fun other module_ isHeld => faithful.held other module_ ?_⟩
    · rcases Loader.loading_of_update loads with ⟨-, begun⟩ | ⟨-, still⟩
      · exact asked _ _ begun
      · exact faithful.loading _ _ _ still
    · rwa [touched, Lru.values_touch] at isHeld
  | refused =>
    exact ⟨fun _ _ _ loads => faithful.loading _ _ _ (Loader.loading_of_ended loads).2,
      faithful.held⟩
  | @inserted cache thread bytecode id module_ busy parses puts =>
    have inserted := (intact.of_putModule puts).2
    refine ⟨fun _ _ _ loads => faithful.loading _ _ _ (Loader.loading_of_ended loads).2,
      fun other stored isHeld => ?_⟩
    rw [inserted] at isHeld
    rcases Lru.values_of_insert isHeld with ⟨rfl, rfl⟩ | heldBefore
    · exact ⟨bytecode, faithful.loading _ _ _ busy, parses⟩
    · exact faithful.held other stored heldBefore

/-- Loading a module ends with what its bytecode is parsed to. -/
theorem loadModule_returns {cache : ModuleCache Stored} (intact : cache.Intact)
    (room : 0 < cache.cacheSize) (parse : Bytes → Option Stored) (bytecode id : Bytes) :
    ∃ after, (loadModule parse bytecode id).Returns cache (parseBytecode parse bytecode) after := by
  unfold loadModule
  cases parses : parseBytecode parse bytecode with
  | error error => exact ⟨cache, rfl⟩
  | ok module_ =>
    obtain ⟨after, puts, -, -⟩ := intact.putModule_returns (.inl room) id module_
    exact ⟨after, returns_bind.mpr ⟨_, _, puts, rfl⟩⟩

/-- When no other bytecode is known for an id, making its module gives what its bytecode is
parsed to, whatever the cache holds. -/
theorem Loader.Faithful.makeModule_returns (faithful : before.Faithful parse known)
    (intact : before.cache.Intact) (room : 0 < before.cache.cacheSize) {bytecode id : Bytes}
    (present : id ≠ []) (only : ∀ other, known other id → other = bytecode) :
    ∃ cache, (makeModule parse bytecode id).Returns before.cache (parseBytecode parse bytecode)
      cache := by
  obtain ⟨mid, gets, reachedIntact, touched⟩ := intact.getModule_returns id
  rw [makeModule, if_neg present]
  cases found : before.cache.abstraction.values id with
  | some module_ =>
    -- What is held was parsed from a bytecode that is known for the id, and there is no other.
    obtain ⟨other, isKnown, parses⟩ := faithful.held id module_ found
    rw [only other isKnown] at parses
    rw [found] at gets
    exact ⟨mid, returns_bind.mpr ⟨_, _, gets, returns_pure.mpr ⟨parses, rfl⟩⟩⟩
  | none =>
    have stillRoom : 0 < mid.cacheSize := by
      have same : mid.abstraction.capacity = before.cache.abstraction.capacity := by
        rw [touched, Lru.capacity_touch]
      exact Nat.lt_of_lt_of_eq room same.symm
    obtain ⟨after, loads⟩ := loadModule_returns reachedIntact stillRoom parse bytecode id
    rw [found] at gets
    exact ⟨after, returns_bind.mpr ⟨_, _, gets, loads⟩⟩

end Pairs

section Runs

variable {parse : Bytes → Option Stored} {size : Nat} {trail : List (LoadMoment Stored)}
  {state : Loader Stored}

section

variable (run : LoadRun parse size trail state)
include run

/-- Every run leaves a sane loader. -/
theorem LoadRun.sane : state.Sane := by
  induction run with
  | start => exact Loader.sane_create size
  | step _ step before => exact step.sane before

/-- No run changes the size of the cache. -/
theorem LoadRun.cacheSize :
    state.cache.cacheSize = size := by
  induction run with
  | start => rfl
  | @step _ before after _ run step same =>
    have kept : after.cache.abstraction.capacity = before.cache.abstraction.capacity := by
      rcases step.cases run.sane.intact with ⟨-, unchanged, -⟩ | ⟨id, -, -, touched, -⟩ |
        ⟨id, module_, -, -, inserted, -⟩
      · rw [unchanged]
      · rw [touched, Lru.capacity_touch]
      · rw [inserted]
        rfl
    exact kept.trans same

/-- Fresh runs leave the cache in order. -/
theorem LoadRun.ordered (fresh : ∀ moment ∈ trail, moment.Fresh) : state.Ordered := by
  induction run with
  | start => exact Loader.ordered_create size
  | step run step before =>
    obtain ⟨earlier, last⟩ := List.forall_mem_append.mp fresh
    exact step.ordered run.sane (before earlier) (last _ List.mem_cons_self)

/-- A call of `make_module` that nothing comes between prolongs a run. -/
theorem LoadRun.makeModule {thread : Nat}
    (idle : state.loading thread = none) {bytecode id : Bytes} {outcome : Result Stored}
    {cache : ModuleCache Stored}
    (gave : (makeModule parse bytecode id).Returns state.cache outcome cache) :
    ∃ added after, LoadRun parse size (trail ++ added) after ∧ after.cache = cache ∧
      after.loading = state.loading := by
  obtain ⟨after, cached, restored, ⟨event, hit, -⟩ | ⟨middle, event, miss, ended, -⟩⟩ :=
    Loader.steps_of_makeModule idle gave
  · exact ⟨_, after, run.step hit, cached, restored⟩
  · have both := (run.step miss).step ended
    rw [List.append_assoc] at both
    exact ⟨_, after, both, cached, restored⟩

end

/-- In a run of any threads, the cache is as it is meant to be after every step, and every step
drops no other module than the least recently used one, exactly when no id is put into the cache
that stays in the list. -/
theorem cache_sound_iff_fresh (run : LoadRun parse size trail state) :
    (∀ moment ∈ trail, moment.Sound) ↔ ∀ moment ∈ trail, moment.Fresh := by
  induction run with
  | start => exact ⟨fun _ _ mem => absurd mem List.not_mem_nil,
      fun _ _ mem => absurd mem List.not_mem_nil⟩
  | step run step earlier =>
    rw [List.forall_mem_append, List.forall_mem_append, earlier]
    refine and_congr_right fun fresh => ?_
    rw [List.forall_mem_singleton, List.forall_mem_singleton]
    exact step.sound_iff run.sane (run.ordered fresh)

end Runs

section TwoThreads

/-! Two threads that look up an id each before either of them puts its module. -/

variable (first second : Bytes)

def oneMissed : Loader Bytes :=
  ⟨.create defaultModuleCacheSize, Function.update (fun _ => none) 0 (some ([1], first)), []⟩

def bothMissed : Loader Bytes :=
  ⟨.create defaultModuleCacheSize,
    Function.update (oneMissed first).loading 1 (some ([1], second)), []⟩

def oneLoaded : Loader Bytes :=
  ⟨(putModule first [1] (.create defaultModuleCacheSize)).2,
    Function.update (bothMissed first second).loading 0 none, [first]⟩

def bothLoaded : Loader Bytes :=
  ⟨(putModule second [1] (oneLoaded first second).cache).2,
    Function.update (oneLoaded first second).loading 1 none, [second, first]⟩

def bothTrail : List (LoadMoment Bytes) :=
  [⟨.create defaultModuleCacheSize, .miss 0 [1] first, oneMissed first⟩,
    ⟨oneMissed first, .miss 1 [1] second, bothMissed first second⟩,
    ⟨bothMissed first second, .inserted 0 [1] first [1], oneLoaded first second⟩,
    ⟨oneLoaded first second, .inserted 1 [1] second [1], bothLoaded first second⟩]

/-- A cache of the default size takes any module. -/
theorem putModule_returns_snd {cache : ModuleCache Stored} (intact : cache.Intact)
    (room : 0 < cache.cacheSize) (id : Bytes) (module_ : Stored) :
    (putModule id module_).Returns cache ()
      (putModule id module_ cache).2 := by
  obtain ⟨after, puts, -, -⟩ := intact.putModule_returns (.inl room) id module_
  exact returns_of_fst (congrArg Prod.fst puts)

theorem run_bothTrail :
    LoadRun some defaultModuleCacheSize (bothTrail first second) (bothLoaded first second) := by
  have room : 0 < defaultModuleCacheSize := by decide
  have empty := @ModuleCache.intact_create Bytes defaultModuleCacheSize
  have firstPuts := putModule_returns_snd empty room first [1]
  obtain ⟨oneIntact, inserted⟩ := empty.of_putModule firstPuts
  have stillRoom : 0 < (oneLoaded first second).cache.cacheSize :=
    Nat.lt_of_lt_of_eq room (congrArg Lru.capacity inserted).symm
  have secondPuts := putModule_returns_snd oneIntact stillRoom second [1]
  have firstMisses : Loader.Step some (.create defaultModuleCacheSize) (.miss 0 [1] first)
      (oneMissed first) := .miss rfl rfl
  have secondMisses : Loader.Step some (oneMissed first) (.miss 1 [1] second)
      (bothMissed first second) := .miss rfl rfl
  have firstLoads : Loader.Step some (bothMissed first second) (.inserted 0 [1] first [1])
      (oneLoaded first second) := .inserted rfl rfl firstPuts
  have secondLoads : Loader.Step some (oneLoaded first second) (.inserted 1 [1] second [1])
      (bothLoaded first second) := .inserted rfl rfl secondPuts
  exact (((LoadRun.start.step firstMisses).step secondMisses).step firstLoads).step secondLoads

/-- Threads that load different modules at the same time. -/
theorem cache_sound_of_different_ids : ∃ trail state,
    LoadRun some defaultModuleCacheSize trail state ∧
    state.uses = [[8], [7]] ∧ (∀ moment ∈ trail, moment.Fresh) ∧ ∀ moment ∈ trail,
      moment.Sound := by
  have fresh : ∀ moment ∈ bothTrail [7] [8], moment.Fresh := by
    have firstAbsent : [7] ∉ (bothMissed [7] [8]).cache.abstraction.kept := by decide +kernel
    have secondAbsent : [8] ∉ (oneLoaded [7] [8]).cache.abstraction.kept := by decide +kernel
    simp [bothTrail, LoadMoment.Fresh, LoadEvent.puts, firstAbsent, secondAbsent]
  exact ⟨_, _, run_bothTrail [7] [8], rfl, fresh,
    (cache_sound_iff_fresh (run_bothTrail [7] [8])).mpr fresh⟩

/-- Two threads miss the same id, and both put it: the id is twice in the list. -/
theorem id_is_twice_in_list : ∃ trail state,
    LoadRun some defaultModuleCacheSize trail state ∧
    state.cache.lruList.map CacheNode.id = [[7], [7]] ∧ ¬ state.cache.Represented := by
  have ids : (bothLoaded [7] [7]).cache.lruList.map CacheNode.id = [[7], [7]] := by decide +kernel
  refine ⟨_, _, run_bothTrail [7] [7], ids, fun represented => ?_⟩
  have distinct := represented.distinct
  rw [ids] at distinct
  exact absurd distinct (by decide)

end TwoThreads

end Respublica.Vm
