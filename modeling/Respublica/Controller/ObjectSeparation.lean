import Respublica.Controller.Phases

/-!
# Separation of program objects

Programs name their objects by an id and a key, and are to see no object but their own under
that name. The space is the only thing that keeps objects apart, and the copy of the account
runs over the low byte of the id.
-/

namespace Respublica.Controller

open Foundation Effect Program Protocol StateDb Context

/-- The program whose frame is on top. -/
def Context.running (context : Context) : Option Account :=
  (context.stack.map StackFrame.programId).head?

/-- The context in which another program is called. -/
def Context.entering (program : Account) (context : Context) : Context :=
  { context with stack := ⟨program, [], [], [], [], 0⟩ :: context.stack }

/-- The object of one program is told apart from that of another: the two are stored under
different keys unless they are the same object, the first is not stored in a system space, and
writing the first changes what is read of the second only when it is the same object. -/
structure ObjectsApart (program : Account) (id : UInt32) (key : Bytes)
    (other : Account) (otherId : UInt32) (otherKey : Bytes) : Prop where
  keys : makeCompoundKey (ObjectSpace.ofProgram program id) key =
      makeCompoundKey (ObjectSpace.ofProgram other otherId) otherKey →
    program = other ∧ id = otherId ∧ key = otherKey
  system : ∀ systemId systemKey, makeCompoundKey (ObjectSpace.ofProgram program id) key ≠
    makeCompoundKey (ObjectSpace.system systemId) systemKey
  calls : ∀ (before after reading readingAfter : Context) (value found foundAfter : Bytes)
      (code : ErrorCode),
    before.running = some program →
    (putObject id key value).Returns before code after →
    (getObject otherId otherKey).Returns (before.entering other) found reading →
    (getObject otherId otherKey).Returns (after.entering other) foundAfter readingAfter →
    foundAfter ≠ found → program = other ∧ id = otherId ∧ key = otherKey

namespace ObjectSeparation

variable {program other : Account} {id otherId : UInt32} {key otherKey value : Bytes}
  {before after : Context}

/-- What a program reads is what the state node shows under the compound key. -/
theorem returns_getObject {found : Bytes} (top : before.running = some program)
    (gave : (getObject id key).Returns before found after) :
    found = (before.view (makeCompoundKey (ObjectSpace.ofProgram program id) key)).getD [] := by
  obtain ⟨_, charged, charges, called⟩ := returns_bind.mp gave
  obtain ⟨meter, rfl⟩ : ∃ meter, charged = { before with meter := meter } :=
    ⟨_, eq_of_chargeCall charges⟩
  obtain ⟨space, made, creates, reads⟩ := returns_bind.mp called
  have stillTop : running { before with meter := meter } = some program := top
  obtain ⟨rfl, rfl⟩ := returns_createObjectSpace stillTop creates
  simp only [getState, returns_bind, returns_read, returns_ofExcept, returns_pure] at reads
  obtain ⟨object, _, ⟨_, _, ⟨rfl, rfl⟩, got, rfl⟩, rfl, rfl⟩ := reads
  rw [view, Heap.view_of_get got]

/-- A write is not seen under any other key. -/
theorem view_of_putObject {code : ErrorCode} {elsewhere : Bytes}
    (top : before.running = some program)
    (gave : (putObject id key value).Returns before code after)
    (different : elsewhere ≠ makeCompoundKey (ObjectSpace.ofProgram program id) key) :
    after.view elsewhere = before.view elsewhere := by
  have keeps : (putObject id key value).Keeps (FrameIn program
      fun written => written = makeCompoundKey (ObjectSpace.ofProgram program id) key) :=
    onObject_frame (keeps_bind (putState_frame value rfl) fun _ =>
      onMeter_frame (Meter.use_spends _ _))
  exact (keeps.of_returns gave top).view different

/-- Different keys keep the reads apart from the writes. -/
theorem getObject_of_putObject {code : ErrorCode} {found foundAfter : Bytes}
    {reading readingAfter : Context} (top : before.running = some program)
    (written : (putObject id key value).Returns before code after)
    (reads : (getObject otherId otherKey).Returns (before.entering other) found reading)
    (readsAfter : (getObject otherId otherKey).Returns (after.entering other) foundAfter
      readingAfter)
    (different : makeCompoundKey (ObjectSpace.ofProgram other otherId) otherKey ≠
      makeCompoundKey (ObjectSpace.ofProgram program id) key) :
    foundAfter = found := by
  have otherTop (context : Context) : (context.entering other).running = some other := rfl
  have shown := returns_getObject (otherTop before) reads
  have shownAfter := returns_getObject (otherTop after) readsAfter
  have same := view_of_putObject top written different
  rw [shown, shownAfter]
  exact congrArg (Option.getD · []) same

/-- The copy of an account stays inside the address for no program. Even so objects are told
apart, exactly when they are not objects of one program under one key whose ids differ in the low
byte only. -/
theorem objectsApart_iff (program other : Account) (id otherId : UInt32) (key otherKey : Bytes) :
    ¬ ObjectSpace.CopyInside program ∧
      (ObjectsApart program id key other otherId otherKey ↔
        ¬ (program = other ∧ key = otherKey ∧ id ≠ otherId ∧
          id.toNat / 256 = otherId.toNat / 256)) := by
  refine ⟨ObjectSpace.not_copyInside program, ?_, ?_⟩
  · rintro apart ⟨samePrograms, sameKeys, differentIds, samePages⟩
    have shared := makeCompoundKey_ofProgram_eq_iff.mpr ⟨samePrograms, samePages, sameKeys⟩
    exact differentIds (apart.keys shared).2.1
  · intro notAliases
    have keys : makeCompoundKey (ObjectSpace.ofProgram program id) key =
        makeCompoundKey (ObjectSpace.ofProgram other otherId) otherKey →
        program = other ∧ id = otherId ∧ key = otherKey := by
      intro shared
      obtain ⟨samePrograms, samePages, sameKeys⟩ := makeCompoundKey_ofProgram_eq_iff.mp shared
      refine ⟨samePrograms, ?_, sameKeys⟩
      by_contra differentIds
      exact notAliases ⟨samePrograms, sameKeys, differentIds, samePages⟩
    refine ⟨keys, fun _ _ => makeCompoundKey_ofProgram_ne_system _ _ _ _ _, ?_⟩
    intro before after reading readingAfter value found foundAfter code top written reads readsAfter
      changed
    by_contra different
    refine changed (getObject_of_putObject top written reads readsAfter fun shared => ?_)
    exact different (keys shared.symm)

/-- The coin program in a frame of its own, on an empty state. -/
def coinRunning : Context := (blockOn []).entering coin

/-- The ids 0 and 1 of a program name the same objects: what the coin program writes under one
it reads under the other. -/
theorem ids_zero_and_one_alias :
    makeCompoundKey (ObjectSpace.ofProgram coin 0) [5] =
        makeCompoundKey (ObjectSpace.ofProgram coin 1) [5] ∧
      ∃ code after found foundAfter reading readingAfter,
        coinRunning.running = some coin ∧
        (putObject 0 [5] [7]).Returns coinRunning code after ∧
        (getObject 1 [5]).Returns (coinRunning.entering coin) found reading ∧
        (getObject 1 [5]).Returns (after.entering coin) foundAfter readingAfter ∧
        found = [] ∧ foundAfter = [7] := by
  have writes : (putObject 0 [5] [7] coinRunning).1 = .ok (.controller .ok) := by
    decide +kernel
  have reads : (getObject 1 [5] (coinRunning.entering coin)).1 = .ok [] := by
    decide +kernel
  have readsAfter : (getObject 1 [5] ((putObject 0 [5] [7] coinRunning).2.entering
      coin)).1 = .ok [7] := by
    decide +kernel
  exact ⟨by decide +kernel, _, _, _, _, _, _, rfl, returns_of_fst writes,
    returns_of_fst reads, returns_of_fst readsAfter, rfl, rfl⟩

end ObjectSeparation

end Respublica.Controller
