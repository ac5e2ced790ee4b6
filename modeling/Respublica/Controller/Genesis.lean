import Mathlib.Data.List.Nodup
import Respublica.Controller.LinkedChain

/-!
# Opening a controller

Opening writes the initial objects into a new root. It goes through exactly when the objects have
keys of their own and the genesis key is among them; the root then shows these objects and no
others. With two objects under one key it throws before it looks for the genesis key.

When a reset is asked for, the database is opened a second time over the first. The outcome is the
same, and the new root has what the first one had, but it is not in the index. A block that names
the null id as its predecessor is so applied to the emptied root, where there is no genesis key, and
a controller that was opened this way never accepts a block.
-/

namespace Respublica.Controller

open Foundation Effect Crypto Program Protocol StateDb Heap Context Database Forest

variable {env : Env} {entries : List GenesisEntry} {heap : Heap} {root : Nat}

/-- The keys of the initial objects. -/
def genesisKeys (entries : List GenesisEntry) : List Bytes := entries.map GenesisEntry.compoundKey

/-- Objects under keys of their own are shown, over what was there. -/
theorem written_eq_some_iff {shown : Bytes → Option Bytes} {key value : Bytes}
    (separate : (genesisKeys entries).Nodup) :
    written (genesisWrites entries) shown key = some value ↔
      (∃ entry ∈ entries, entry.compoundKey = key ∧ entry.value = value) ∨
        key ∉ genesisKeys entries ∧ shown key = some value := by
  induction entries generalizing shown with
  | nil => simp [genesisWrites, genesisKeys, written]
  | cons entry rest ih =>
    obtain ⟨fresh, separateRest⟩ := List.nodup_cons.mp separate
    have step : written (genesisWrites (entry :: rest)) shown =
        written (genesisWrites rest)
          (Function.update shown entry.compoundKey (some entry.value)) := rfl
    rw [step, ih separateRest]
    by_cases own : entry.compoundKey = key
    · subst own
      have others : ¬ ∃ other ∈ rest, other.compoundKey = entry.compoundKey ∧
          other.value = value := by
        rintro ⟨other, mem, same, -⟩
        exact fresh (List.mem_map.mpr ⟨other, mem, same⟩)
      simp [others, fresh, genesisKeys]
    · rw [Function.update_of_ne (Ne.symm own)]
      simp [own, Ne.symm own, genesisKeys]

/-- What one initial object does: it is written, unless its key is taken. -/
theorem writeEntries_cons (backed : heap.Backed) (inside : root < heap.size)
    (notFinal : heap.final root = false) (entry : GenesisEntry) (rest : List GenesisEntry) :
    ∃ stored, Heap.Rewritten root heap stored ∧
      stored.view root = Function.update (heap.view root) entry.compoundKey (some entry.value) ∧
      writeEntries root (entry :: rest) heap =
        if (heap.view root entry.compoundKey).isSome then
          (.error (.exception "encountered unexpected object in initial state"), heap)
        else writeEntries root rest stored := by
  obtain ⟨size, puts⟩ := put_of_backed backed inside notFinal entry.compoundKey entry.value
  refine ⟨_, (put_confined entry.value trivial).of_returns puts, view_of_put puts, ?_⟩
  rw [writeEntries, read_bind, get_of_backed backed inside, ofExcept_bind]
  split
  · rfl
  · exact puts.bind_eq _

/-- Objects under free keys of their own are written. -/
theorem writeEntries_returns (backed : heap.Backed) (inside : root < heap.size)
    (notFinal : heap.final root = false) (separate : (genesisKeys entries).Nodup)
    (unset : ∀ key ∈ genesisKeys entries, heap.view root key = none) :
    ∃ after, (writeEntries root entries).Returns heap () after ∧ Heap.Rewritten root heap after ∧
      after.view root = written (genesisWrites entries) (heap.view root) := by
  induction entries generalizing heap with
  | nil => exact ⟨heap, returns_pure.mpr ⟨rfl, rfl⟩, Std.Refl.refl _, rfl⟩
  | cons entry rest ih =>
    obtain ⟨fresh, separateRest⟩ := List.nodup_cons.mp separate
    obtain ⟨stored, rewritten, shows, writes⟩ := writeEntries_cons backed inside notFinal entry rest
    rw [unset _ List.mem_cons_self, if_neg (by simp)] at writes
    have unsetRest : ∀ key ∈ genesisKeys rest, stored.view root key = none := by
      intro key mem
      have apart : key ≠ entry.compoundKey := fun same => fresh (same ▸ mem)
      rw [shows, Function.update_of_ne apart]
      exact unset key (List.mem_cons_of_mem _ mem)
    obtain ⟨after, gave, rewrittenRest, showsRest⟩ := ih (rewritten.backed backed)
      (by rwa [rewritten.size]) (by rw [rewritten.final, notFinal]) separateRest unsetRest
    refine ⟨after, writes.trans gave, IsTrans.trans _ _ _ rewritten rewrittenRest, ?_⟩
    rw [showsRest, shows]
    rfl

/-- One key too many stops the writing. -/
theorem writeEntries_stops (backed : heap.Backed) (inside : root < heap.size)
    (notFinal : heap.final root = false)
    (taken : ¬ ((genesisKeys entries).Nodup ∧
      ∀ key ∈ genesisKeys entries, heap.view root key = none)) :
    ∃ after, (writeEntries root entries).Stops heap
      (.exception "encountered unexpected object in initial state") after := by
  induction entries generalizing heap with
  | nil => exact absurd ⟨List.nodup_nil, fun _ mem => absurd mem List.not_mem_nil⟩ taken
  | cons entry rest ih =>
    obtain ⟨stored, rewritten, shows, writes⟩ := writeEntries_cons backed inside notFinal entry rest
    by_cases present : (heap.view root entry.compoundKey).isSome
    · rw [if_pos present] at writes
      exact ⟨heap, writes⟩
    · rw [if_neg present] at writes
      obtain ⟨after, stopped⟩ := ih (rewritten.backed backed) (by rwa [rewritten.size])
        (by rw [rewritten.final, notFinal]) (by
          rintro ⟨separate, unset⟩
          -- The key of the first object is set by now, so none of the others has it.
          have fresh : entry.compoundKey ∉ genesisKeys rest := by
            intro mem
            have shown := unset _ mem
            rw [shows, Function.update_self] at shown
            cases shown
          refine taken ⟨List.nodup_cons.mpr ⟨fresh, separate⟩, ?_⟩
          refine List.forall_mem_cons.mpr ⟨by simpa using present, fun key mem => ?_⟩
          have apart : key ≠ entry.compoundKey := fun same => fresh (same ▸ mem)
          have shown := unset key mem
          rwa [shows, Function.update_of_ne apart] at shown)
      exact ⟨after, writes.trans stopped⟩

variable (env entries) in
/-- Whether initial objects can be opened with, and what is thrown if not. -/
def openingVerdict : Except Fault Unit :=
  if ¬ (genesisKeys entries).Nodup then
    .error (.exception "encountered unexpected object in initial state")
  else if makeCompoundKey ObjectSpace.metadata (genesisKey env) ∉ genesisKeys entries then
    .error (.exception "could not find genesis public key in database")
  else .ok ()

/-- The initial objects of a new root are as if written without looking, if the verdict is good. -/
theorem writeGenesis_decided (backed : heap.Backed) (inside : root < heap.size)
    (notFinal : heap.final root = false) (blank : heap.view root = fun _ => none) :
    (writeGenesis env entries root heap).1 = openingVerdict env entries ∧
      (openingVerdict env entries = .ok () → writeGenesis env entries root heap =
        writeAll (genesisWrites entries) root heap) := by
  unfold openingVerdict
  by_cases separate : (genesisKeys entries).Nodup
  · obtain ⟨after, gave, rewritten, shows⟩ := writeEntries_returns backed inside notFinal separate
      (fun key _ => by rw [blank])
    have writes := writeAll_of_writeEntries gave
    have afterInside : root < after.size := by rwa [rewritten.size]
    have looks : writeGenesis env entries root heap =
        if (after.view root (makeCompoundKey ObjectSpace.metadata (genesisKey env))).isSome then
          (.ok (), after)
        else (.error (.exception "could not find genesis public key in database"), after) := by
      rw [writeGenesis, gave.bind_eq, read_bind,
        get_of_backed (rewritten.backed backed) afterInside, ofExcept_bind]
      split <;> rfl
    have known : (after.view root (makeCompoundKey ObjectSpace.metadata (genesisKey env))).isSome ↔
        makeCompoundKey ObjectSpace.metadata (genesisKey env) ∈
          genesisKeys entries := by
      rw [shows, blank, Option.isSome_iff_exists]
      constructor
      · rintro ⟨value, shown⟩
        rcases (written_eq_some_iff separate).mp shown with ⟨entry, mem, same, -⟩ | ⟨-, nothing⟩
        · exact List.mem_map.mpr ⟨entry, mem, same⟩
        · cases nothing
      · intro mem
        obtain ⟨entry, isEntry, same⟩ := List.mem_map.mp mem
        exact ⟨entry.value, (written_eq_some_iff separate).mpr (.inl ⟨entry, isEntry, same, rfl⟩)⟩
    rw [if_neg (not_not_intro separate), looks]
    by_cases present : makeCompoundKey ObjectSpace.metadata (genesisKey env) ∈
        genesisKeys entries
    · rw [if_neg (not_not_intro present), if_pos (known.mpr present)]
      exact ⟨rfl, fun _ => writes.symm⟩
    · rw [if_pos present, if_neg (mt known.mp present)]
      exact ⟨rfl, fun good => by cases good⟩
  · obtain ⟨after, stopped⟩ := writeEntries_stops backed inside notFinal
      (fun both => separate both.1)
    have stops : (writeGenesis env entries root).Stops heap
        (.exception "encountered unexpected object in initial state") after :=
      stops_bind.mpr (.inl stopped)
    rw [if_pos separate, show writeGenesis env entries root heap = _ from stops]
    exact ⟨rfl, fun good => by cases good⟩

/-- Opening succeeds with distinct keys, the genesis key among them. -/
theorem openingVerdict_eq_ok_iff : openingVerdict env entries = .ok () ↔
    (genesisKeys entries).Nodup ∧
      makeCompoundKey ObjectSpace.metadata (genesisKey env) ∈ genesisKeys entries := by
  unfold openingVerdict
  split
  · simp_all
  · split <;> simp_all

variable {db : Database} {init : Nat → Effect Fault Heap Unit} {taken : Option Nat}

/-- Opening an index starts by running the init on a new root. -/
theorem onHeap_runInit (backed : db.heap.Backed) (init : Nat → Effect Fault Heap Unit) :
    onHeap (runInit init db.heap.size)
        { db with heap := db.heap.createRoot } =
      onHeap (init db.heap.size)
        { db with heap := db.heap.createRoot } := by
  have begins : runInit init db.heap.size db.heap.createRoot =
      init db.heap.size db.heap.createRoot := by
    rw [runInit, read_bind, (createRoot_blank backed).2.2.1, ofExcept_bind, if_pos rfl]
  simp only [Database.onHeap, Effect.within, begins]

/-- Inits that do the same to a new root open the same. -/
theorem openIndex_congr_created (backed : db.heap.Backed) {other : Nat → Effect Fault Heap Unit}
    (same : init db.heap.size db.heap.createRoot = other db.heap.size db.heap.createRoot) :
    Database.openIndex init db = Database.openIndex other db := by
  have created : (Database.onHeap (Effect.modify createRoot)).Returns db ()
      { db with heap := db.heap.createRoot } := rfl
  rw [openIndex, openIndex, read_bind, read_bind, created.bind_eq, created.bind_eq]
  refine bind_congr_left ?_ _
  rw [onHeap_runInit backed, onHeap_runInit backed]
  simp only [Database.onHeap, Effect.within, same]

/-- An init that throws on a new root lets opening throw. -/
theorem openIndex_faults (backed : db.heap.Backed) {fault : Fault}
    (failed : (init db.heap.size).Faults db.heap.createRoot fault) :
    (Database.openIndex init).Faults db fault := by
  have created : (Database.onHeap (Effect.modify createRoot)).Returns db ()
      { db with heap := db.heap.createRoot } := rfl
  have stops : (Database.onHeap (Database.runInit init db.heap.size)).Faults
      { db with heap := db.heap.createRoot } fault := by
    rw [Effect.Faults, onHeap_runInit backed]
    exact failed
  rw [Effect.Faults, openIndex, read_bind, created.bind_eq]
  exact stops.bind

/-- Opening an index with initial objects follows the verdict. -/
theorem openIndex_decided (backed : db.heap.Backed)
    (inside : ∀ node ∈ db.index, node < db.heap.size) (looked : db.find nullId = .ok taken) :
    (openIndex (writeGenesis env entries) db).1 =
        openingVerdict env entries ∧
      (openingVerdict env entries = .ok () → openIndex (writeGenesis env entries) db =
          openIndex (writeAll (genesisWrites entries)) db) := by
  obtain ⟨createdBacked, -, -, createdNotFinal, createdView⟩ := createRoot_blank backed
  have grown : db.heap.size < size db.heap.createRoot := by
    simp [createRoot]
  obtain ⟨decided, plain⟩ : (writeGenesis env entries _ _).1 =
      openingVerdict env entries ∧ (openingVerdict env entries = .ok () → _) :=
    writeGenesis_decided createdBacked grown createdNotFinal createdView
  cases verdict : openingVerdict env entries with
  | error fault =>
    exact ⟨openIndex_faults backed (decided.trans verdict), fun good => by cases good⟩
  | ok value =>
    have same := openIndex_congr_created backed (plain verdict)
    obtain ⟨after, opens, -⟩ := openIndex_outcome (genesisWrites entries) backed inside looked
    exact ⟨by rw [same, show openIndex _ db = _ from opens], fun _ => same⟩

/-- What resetting an opened database does before it is opened again. -/
theorem reset_eq (backed : db.heap.Backed) (isOpen : db.isOpen = true)
    (isRoot : db.root = some root) (inside : root < db.heap.size)
    (init : Nat → Effect Fault Heap Unit) :
    Database.reset init db =
      Database.openIndex init { db with heap := db.heap.update root Heap.emptied } := by
  have clears : (Database.onHeap (Heap.clear root)).Returns db ()
      { db with heap := db.heap.update root Heap.emptied } :=
    returns_within.mpr ⟨_, clear_of_backed backed inside, rfl⟩
  have isReady : requireOpen.Returns db () db := by
    rw [Effect.Returns, requireOpen, read_bind, if_pos isOpen]
    rfl
  rw [reset, isReady.bind_eq, read_bind, isRoot, expect_bind, clears.bind_eq, isRoot]

/-- A root that is head and final and shows the initial objects and nothing else. -/
structure Fresh (entries : List GenesisEntry) (db : Database) (root : Nat) : Prop where
  isRoot : db.root = some root
  isHead : db.head = some root
  final : db.heap.final root = true
  revised : db.heap.revision root = .ok 0
  shows : ∀ key value, db.heap.get root key = .ok (some value) ↔
    ∃ entry ∈ entries, entry.compoundKey = key ∧ entry.value = value

/-- With a good verdict, opening an index leaves a fresh root, which is indexed if the null id was
free. -/
theorem openIndex_fresh (backed : db.heap.Backed) (inside : ∀ node ∈ db.index, node < db.heap.size)
    (looked : db.find nullId = .ok taken) (good : openingVerdict env entries = .ok ()) :
    ∃ after, (openIndex (writeGenesis env entries)).Returns db () after ∧
      Fresh entries after db.heap.size ∧
      after.index = (if taken.isSome then db.index
        else db.index ++ [db.heap.size]) ∧
      after.heap.size = db.heap.size + 1 := by
  obtain ⟨after, opens, isRoot, isHead, -, index, added⟩ :=
    openIndex_outcome (genesisWrites entries) backed inside looked
  have same := (openIndex_decided backed inside looked).2 good
  have separate := (openingVerdict_eq_ok_iff.mp good).1
  refine ⟨after, same.trans opens,
    ⟨isRoot, isHead, added.final, added.revised, fun key value => ?_⟩, index, added.size⟩
  rw [added.shows, Except.ok.injEq, written_eq_some_iff separate]
  simp

/-- Opening an index changes no delta that is there already. -/
theorem openIndex_below {after : Database} (backed : db.heap.Backed)
    {objects : List (Bytes × Bytes)}
    (gave : (openIndex (writeAll objects)).Returns db () after) {index : Nat}
    (inside : index < db.heap.size) :
    after.heap.node? index = db.heap.node? index ∧
      after.heap.parent? index = db.heap.parent? index := by
  obtain ⟨createdBacked, -, createdRevision, createdNotFinal, -⟩ := createRoot_blank backed
  have grown : db.heap.size < size db.heap.createRoot := by
    simp [createRoot]
  simp only [Database.openIndex, Database.runInit, Database.onHeap, returns_bind,
    returns_read, returns_within, returns_modify, returns_ofExcept] at gave
  obtain ⟨_, db, ⟨rfl, rfl⟩, _, _, ⟨_, rfl, rfl⟩, _, _, ⟨initial, ⟨_, _, ⟨rfl, rfl⟩, revision, _,
    ⟨revised, rfl⟩, inits⟩, rfl⟩, _, _, ⟨_, finalizes, rfl⟩, inserted, indexed, inserts,
    rfl⟩ := gave
  obtain rfl : 0 = revision := Except.ok.inj (createdRevision.symm.trans revised)
  rw [if_pos rfl] at inits
  obtain ⟨_, writes, rewritten, -⟩ := writeAll_outcome objects createdBacked grown createdNotFinal
  obtain ⟨-, rfl⟩ := writes.unique inits
  obtain ⟨_, -, rfl⟩ := returns_finalize.mp finalizes
  have other : index ≠ db.heap.size := Nat.ne_of_lt inside
  have sameHeap := (heap_of_insert inserts).1
  change indexed.heap.node? index = _ ∧ indexed.heap.parent? index = _
  rw [sameHeap]
  constructor
  · rw [node?_update_of_ne other, rewritten.others index other, createRoot, node?_push_of_lt inside]
  · rw [parent?_update, rewritten.parents, createRoot, parent?_push, if_neg other]

/-- With a good verdict a controller is opened on a fresh root. -/
theorem openController_fresh (good : openingVerdict env entries = .ok ()) :
    ∃ db, (openIndex (writeGenesis env entries)).Returns empty ()
        db ∧
      (openController env entries false).Returns empty () db ∧
      Fresh entries db 0 ∧ db.index = [0] := by
  obtain ⟨db, opens, fresh, index, -⟩ := openIndex_fresh backed_empty
    (fun node mem => absurd mem List.not_mem_nil)
    (show empty.find nullId = .ok none from rfl) good
  exact ⟨db, opens, returns_bind.mpr ⟨(), db, opens, returns_pure.mpr ⟨rfl, rfl⟩⟩, fresh, index⟩

/-- Opening with a reset goes through as opening without one does. The first root is emptied and
stays alone in the index. -/
theorem openController_reset (good : openingVerdict env entries = .ok ()) :
    ∃ db, (openController env entries true).Returns empty () db ∧
      Fresh entries db 1 ∧ db.index = [0] ∧ db.heap.size = 2 ∧
      db.heap.view 0 = fun _ => none := by
  obtain ⟨opened, opens, plain, -, -⟩ := openController_fresh good
  obtain ⟨tracked, onlyRoot, size, -⟩ := tracked_of_openController plain
  have rooted := tracked.rooted
  let cleared : Database := { opened with heap := opened.heap.update 0 Heap.emptied }
  have rewritten : Heap.Rewritten 0 opened.heap cleared.heap :=
    (clear_rewritten 0).of_returns (clear_of_backed rooted.backed rooted.inside)
  have clearedSize : cleared.heap.size = 1 := rewritten.size.trans size
  have clearedBacked := rewritten.backed rooted.backed
  have clearedInside : ∀ node ∈ cleared.index, node < cleared.heap.size := by
    intro node mem
    rw [clearedSize, ← size]
    exact tracked.inside node mem
  have looked : cleared.find nullId = .ok (some 0) := by
    have named : cleared.heap.id 0 = .ok nullId := (rewritten.id 0).trans tracked.genesis.2.1
    change findAmong cleared.heap nullId opened.index = _
    rw [onlyRoot, findAmong, named]
    rfl
  obtain ⟨db, reopens, fresh, index, grown⟩ :=
    openIndex_fresh clearedBacked clearedInside looked good
  have resets : reset (writeGenesis env entries) opened = (.ok (), db) :=
    (reset_eq rooted.backed rooted.isOpen rooted.isRoot rooted.inside _).trans reopens
  rw [clearedSize] at fresh
  refine ⟨db, returns_bind.mpr ⟨(), opened, opens, resets⟩, fresh, ?_, ?_, ?_⟩
  · exact index.trans onlyRoot
  · rw [grown, clearedSize]
  · obtain ⟨delta, own, found, held, -⟩ := backend_of_backed rooted.backed rooted.inside
    obtain ⟨sameNode, sameParent⟩ := openIndex_below clearedBacked
      (((openIndex_decided clearedBacked clearedInside looked).2 good).symm.trans reopens)
      (show 0 < cleared.heap.size by omega)
    have emptied : db.heap.node? 0 = some (Heap.emptied delta) := by
      rw [sameNode, node?_update_self, found]
      rfl
    have top : db.heap.parent? 0 = none := by
      rw [sameParent, rewritten.parents]
      exact (rooted.top 0 rooted.inside).mpr rfl
    funext key
    rw [view_eq emptied]
    simp [Heap.emptied, Heap.changeBackend, held, Backend.get, Heap.below, top]

/-- An empty database is opened as the verdict says. -/
theorem openIndex_empty_verdict :
    (openIndex (writeGenesis env entries) empty).1 =
      openingVerdict env entries :=
  (openIndex_decided backed_empty (fun _ mem => absurd mem List.not_mem_nil)
    (show empty.find nullId = .ok none from rfl)).1

/-- What was opened had a good verdict. -/
theorem verdict_of_openController {reset : Bool}
    (gave : (openController env entries reset).Returns empty () db) :
    openingVerdict env entries = .ok () := by
  obtain ⟨_, opened, opens, -⟩ := returns_bind.mp gave
  have decided : (openIndex (writeGenesis env entries) empty).1 = _ := openIndex_empty_verdict
  rw [show openIndex _ _ = _ from opens] at decided
  exact decided.symm

/-- Opening follows the verdict, with a reset as without one. The root it leaves is final and the
head, has revision zero and shows the initial objects and nothing else; it is in the index exactly
when no reset was asked for. -/
theorem opening_decided (env : Env) (entries : List GenesisEntry) (reset : Bool) :
    (openController env entries reset empty).1 =
        openingVerdict env entries ∧
      ∀ db, (openController env entries reset).Returns empty () db →
        ∃ root, Fresh entries db root ∧ (root ∈ db.index ↔ reset = false) := by
  cases verdict : openingVerdict env entries with
  | error fault =>
    have faults : (openController env entries reset).Faults empty fault :=
      Effect.Faults.bind (openIndex_empty_verdict.trans verdict)
    exact ⟨faults, fun db gave => absurd gave faults.not_returns⟩
  | ok value =>
    cases reset with
    | false =>
      obtain ⟨opened, -, returns, fresh, index⟩ := openController_fresh verdict
      refine ⟨congrArg Prod.fst returns, fun db gave => ?_⟩
      obtain ⟨-, rfl⟩ := returns.unique gave
      exact ⟨0, fresh, by simp [index]⟩
    | true =>
      obtain ⟨opened, returns, fresh, onlyOld, -⟩ := openController_reset verdict
      refine ⟨congrArg Prod.fst returns, fun db gave => ?_⟩
      obtain ⟨-, rfl⟩ := returns.unique gave
      exact ⟨1, fresh, by simp [onlyOld]⟩

/-- The runs of a controller that was opened with a reset, whatever comes of its calls. -/
inductive ResetRun (env : Env) (entries : List GenesisEntry) : Database → Prop where
  | opened {db : Database} :
      (openController env entries true).Returns empty () db →
        ResetRun env entries db
  | block {db : Database} (block : Block) (now : Int) :
      ResetRun env entries db →
        ResetRun env entries (processBlock env block now db).2
  | transaction {db : Database} (tx : Transaction) :
      ResetRun env entries db →
        ResetRun env entries (processTransaction env tx db).2

/-- No node that a block can be applied to shows the genesis key: the only final one in the index
is the emptied root. The head is the new one. -/
structure Stalled (env : Env) (db : Database) : Prop where
  isHead : db.head = some 1
  inside : ∀ node ∈ db.index, node < db.heap.size
  emptied : 0 < db.heap.size
  hidden : db.heap.view 0
    (makeCompoundKey ObjectSpace.metadata (genesisKey env)) = none
  only : ∀ node ∈ db.index, db.heap.final node = true → node = 0

namespace Stalled

variable {db after : Database} {block : Block} {now : Int} {fault : Fault}

/-- Settled work leaves a controller stalled. -/
theorem settled (stalled : Stalled env db) {limit : Nat} (positive : 0 < limit)
    (settled : Database.Settled limit db after) : Stalled env after := by
  refine ⟨settled.head.trans stalled.isHead, fun node mem => ?_,
    Nat.lt_of_lt_of_le stalled.emptied settled.heap.size, ?_, fun node mem isFinal => ?_⟩
  · rw [settled.index] at mem
    exact Nat.lt_of_lt_of_le (stalled.inside node mem) settled.heap.size
  · rw [settled.heap.view stalled.emptied positive]
    exact stalled.hidden
  · rw [settled.index] at mem
    rw [settled.heap.final (stalled.inside node mem)] at isFinal
    exact stalled.only node mem isFinal

variable {parent : Nat} {own : Backend} {receipt : BlockReceipt}

/-- A new child is not final. -/
theorem withChild (stalled : Stalled env db) (backs : db.heap.backend parent = .ok own)
    (id : StateNodeId) :
    Stalled env (withChild db parent own id) := by
  have pushed : Heap.Settled 1 db.heap (Controller.withChild db parent own id).heap :=
    settled_makeChild backs id
  have found := node?_withChild db parent own id
  refine ⟨stalled.isHead, fun node mem => ?_,
    Nat.lt_of_lt_of_le stalled.emptied pushed.size, ?_, fun node mem isFinal => ?_⟩
  · rcases List.mem_append.mp mem with old | new
    · exact Nat.lt_of_lt_of_le (stalled.inside node old) pushed.size
    · rw [List.mem_singleton.mp new]
      exact lt_size_withChild db parent own id
  · rw [pushed.view stalled.emptied (by decide)]
    exact stalled.hidden
  · rcases List.mem_append.mp mem with old | new
    · rw [pushed.final (stalled.inside node old)] at isFinal
      exact stalled.only node old isFinal
    · rw [List.mem_singleton.mp new, final_eq found] at isFinal
      cases isFinal

theorem parent_eq (stalled : Stalled env db) (extends_ : Extends block db parent) : parent = 0 :=
  stalled.only parent (id_of_findAmong extends_.named).2 extends_.final

/-- A block cannot be applied to a child of the emptied root. -/
theorem not_applied (stalled : Stalled env db) {checked : Database}
    (checks : (checkBlock env block 0 now).Returns (Controller.withChild db 0 own block.id)
      (.ok ()) checked)
    {context : Context} :
    ¬ (applyBlock env block).Returns
      (Context.create checked.heap db.heap.size .blockApplication) (.ok receipt) context := by
  intro applied
  have settled : Database.Settled (db.heap.size + 1) _ checked :=
    (checkBlock_settled 0).of_returns checks
  have child : (Controller.withChild db 0 own block.id).heap.view db.heap.size =
      db.heap.view 0 := view_makeChild stalled.emptied own block.id
  have shown : checked.heap.view db.heap.size
      (makeCompoundKey ObjectSpace.metadata (genesisKey env)) =
      some block.signer.publicKey.1 := view_of_get (applyBlock_signed applied)
  rw [settled.heap.view (lt_size_withChild db 0 own block.id) (Nat.lt_succ_self _), child,
    stalled.hidden] at shown
  cases shown

/-- Evaluating a block on a child of the emptied root changes that child at most. -/
theorem evaluateBlock_settled (stalled : Stalled env db) (own : Backend) :
    Database.Settled db.heap.size (Controller.withChild db 0 own block.id)
      (evaluateBlock env block 0 db.heap.size now (Controller.withChild db 0 own block.id)).2 := by
  rcases evaluateBlock_cases env block 0 db.heap.size now
    (Controller.withChild db 0 own block.id) with ⟨_, _, evaluates, left, -⟩ |
      ⟨checked, context, applied, checks, -, applies, -⟩
  · rw [evaluates]
    exact left.settled
  · exact absurd applies (stalled.not_applied checks)

/-- An insertion that stops has changed nothing. -/
theorem insert_stops {delta : Nat} (stopped : (insert delta).Stops db fault after) :
    after = db := by
  rw [Effect.Stops, Database.insert, read_bind] at stopped
  cases named : db.heap.id delta with
  | error unnamed =>
    rw [named] at stopped
    exact (Prod.mk.inj stopped).2.symm
  | ok id =>
    rw [named, ofExcept_bind] at stopped
    cases looked : db.find id with
    | error unread =>
      rw [looked] at stopped
      exact (Prod.mk.inj stopped).2.symm
    | ok found =>
      rw [looked, ofExcept_bind] at stopped
      cases found <;> cases (Prod.mk.inj stopped).1

/-- A child that could not be made leaves nothing in the index. -/
theorem makeChild_stops (stopped : (PermanentNode.makeChild 0 block.id).Stops db fault after) :
    Database.Settled 1 db after := by
  have making : (Database.onHeap (makeChild 0 block.id)).Keeps (Database.Settled 1) :=
    Database.onHeap_settled (makeChild_settled _ _)
  rcases stops_bind.mp stopped with makeStops | ⟨child, mid, made, rest⟩
  · exact making.of_stops makeStops
  refine IsTrans.trans _ _ _ (making.of_returns made) ?_
  rcases stops_bind.mp rest with addStops | ⟨_, _, -, ended⟩
  · rcases stops_bind.mp addStops with insertStops | ⟨inserted, indexed, inserts, failing⟩
    · rw [insert_stops insertStops]
      exact Std.Refl.refl _
    · obtain ⟨heap, root, head, forkHeads, index⟩ := heap_of_insert inserts
      cases inserted with
      | true => exact absurd failing not_stops_pure
      | false =>
        obtain rfl : indexed = after := (Prod.mk.inj failing).2
        exact ⟨by rw [heap]; exact Std.Refl.refl _, index, root, head, forkHeads⟩
  · exact absurd ended not_stops_pure

/-- Whatever comes of a block, the controller stays stalled. -/
theorem processBlock (stalled : Stalled env db) (block : Block) (now : Int) :
    Stalled env (processBlock env block now db).2 := by
  have kept : (findParent block db).2 = db := (findParent_keeps db).symm
  unfold Controller.processBlock
  split
  · exact stalled
  refine @related_bind _ _ _ _ (fun _ after => Stalled env after) _ _ _
    (by rwa [kept]) fun found mid looked => ?_
  obtain ⟨rfl, -, extends_iff⟩ := findParent_outcome looked
  cases found with
  | error error => exact stalled
  | ok parent =>
    obtain rfl := stalled.parent_eq ((extends_iff parent).mp rfl)
    refine @related_bind _ _ _ _ (fun _ after => Stalled env after) _ _ _ ?_
      fun node child made => ?_
    · rcases outcome : PermanentNode.makeChild 0 block.id mid with ⟨fault | node, child⟩
      · exact stalled.settled (by decide) (makeChild_stops outcome)
      · obtain ⟨own, backs, -, rfl⟩ := returns_makeChild outcome
        exact stalled.withChild backs block.id
    · obtain ⟨own, backs, rfl, rfl⟩ := returns_makeChild made
      exact (stalled.withChild backs block.id).settled stalled.emptied
        (stalled.evaluateBlock_settled own)

/-- A stalled controller refuses every block. -/
theorem refuses (stalled : Stalled env db) :
    ¬ (Controller.processBlock env block now).Returns db (.ok receipt) after := by
  intro gave
  rcases processBlock_outcome gave with ⟨-, _, isError, -⟩ |
    ⟨parent, own, -, -, extends_, backs, evaluated⟩
  · cases isError
  · obtain rfl := stalled.parent_eq extends_
    obtain ⟨checked, context, applied, checks, -, applies, -⟩ := evaluateBlock_accepted evaluated
    exact stalled.not_applied checks applies

end Stalled

/-- Every run after a reset is stalled. -/
theorem ResetRun.stalled (run : ResetRun env entries db) :
    Stalled env db := by
  induction run with
  | opened gave =>
    obtain ⟨db, opens, fresh, onlyOld, size, blank⟩ :=
      openController_reset (verdict_of_openController gave)
    obtain ⟨-, rfl⟩ := opens.unique gave
    refine ⟨fresh.isHead, fun node mem => ?_, by omega, by rw [blank], fun node mem _ => ?_⟩
    · rw [onlyOld, List.mem_singleton] at mem
      omega
    · rw [onlyOld, List.mem_singleton] at mem
      exact mem
  | block block now _ stalled => exact stalled.processBlock block now
  | transaction tx _ stalled =>
    obtain ⟨heap, mid, settled⟩ := processTransaction_kept _ shelters_settled env tx
    rw [mid]
    exact stalled.settled stalled.emptied ⟨settled, rfl, rfl, rfl, rfl⟩

/-- Whatever blocks and transactions a controller was given that was opened with a reset, its head
is the new root and it accepts no block. -/
theorem reset_controller_accepts_nothing {db : Database}
    (run : ResetRun env entries db) :
    db.head = some 1 ∧ ∀ block now receipt after,
      ¬ (processBlock env block now).Returns db (.ok receipt) after :=
  ⟨run.stalled.isHead, fun _ _ _ _ => run.stalled.refuses⟩

/-- A block that is accepted by a controller that was just opened is not accepted by one that was
opened with a reset. -/
theorem reset_controller_accepts_nothing_at_first :
    (processBlock .plain sampleFirst 0 sampleGenesis).1.map (Except.map BlockReceipt.height) =
        .ok (.ok 1) ∧
      ∃ db, (openController .plain sampleEntries true).Returns empty () db ∧
        ∀ receipt after,
          ¬ (processBlock .plain sampleFirst 0).Returns db (.ok receipt) after := by
  have gave : (openController .plain sampleEntries true).Returns empty () _ :=
    returns_of_fst (by decide +kernel)
  exact ⟨by decide +kernel, _, gave, fun receipt after =>
    (reset_controller_accepts_nothing (.opened gave)).2 sampleFirst 0 receipt after⟩

end Respublica.Controller
