import Respublica.Controller.StorageGrowth

/-!
# Writing objects

`put_object` and `remove_object` change the state node and then take the size that it reports
to the meter. A charge that is refused is returned as an error, with the change left in place.
The size is signed and the amount that a meter takes is not: bytes that are given back are an
amount that no block has left.
-/

namespace Respublica.Controller

open Foundation Effect Program Protocol StateDb Heap Context Backend Meter

namespace Meter

/-- The meter after the tick of a call, which it takes or leaves. -/
def afterTick (meter : Meter) : Meter := (useComputeBandwidth 1 meter).2

/-- Less than what is left of the disk storage is asked for, and an open session can pay. -/
def GrantsStorage (meter : Meter) (bytes : UInt64) : Prop :=
  bytes < meter.remaining.diskStorage ∧ Affordable diskStorage bytes meter

instance (meter : Meter) (bytes : UInt64) : Decidable (meter.GrantsStorage bytes) :=
  inferInstanceAs (Decidable (_ ∧ _))

/-- A use of disk storage goes well when it is granted; otherwise it says what is short. -/
theorem useDiskStorage_code {meter after : Meter} {bytes : UInt64} {code : ErrorCode}
    (gave : (useDiskStorage bytes).Returns meter code after) :
    (meter.GrantsStorage bytes ∧ code = .controller .ok) ∨
      ¬ meter.GrantsStorage bytes ∧
        (code = .controller .diskStorageLimitExceeded ∨
          code = .controller .insufficientResources) := by
  obtain ⟨rfl, used⟩ | ⟨-, refused⟩ := outcome_of_use gave
  · exact .inl ⟨⟨UInt64.not_le.mp (of_decide_eq_false used.available), used.affordable⟩, rfl⟩
  · refine .inr ⟨fun granted => ?_, ?_⟩
    · cases refused with
      | limit tooMuch => exact UInt64.not_le.mpr granted.1 (of_decide_eq_true tooMuch)
      | session held poor => exact Nat.not_lt.mpr (granted.2 _ held) poor
    · cases refused with
      | limit => exact .inl rfl
      | session => exact .inr rfl

end Meter

namespace Write

/-- The size that the state node reports for a write: what the write changes in the node's own
records, less the object that the parent shows. -/
def reported (write : Write) : Int :=
  let own := write.context.heap.ownValue write.context.stateNode write.key
  let below := shownSize write.key
    (write.context.heap.below write.context.stateNode write.key)
  match write.value, own with
  | some value, some old => value.length - old.length - below
  | some value, none => value.length + write.key.length - below
  | none, some old => - objectSize write.key old
  | none, none => - below

variable {write : Write} {size : Int}

/-- The size that is reported is the one computed from the view. -/
theorem size_of_store {heap : Heap} (stored : write.store.Returns write.context.heap size heap) :
    size = write.reported := by
  have parent {sized : Int} (found : write.context.heap.parentSize write.context.stateNode
      write.key = .ok sized) : sized = - shownSize write.key
        (write.context.heap.below write.context.stateNode write.key) := by
    rw [parentSize_eq found, shownSize]
    cases write.context.heap.below write.context.stateNode write.key <;> simp
  obtain ⟨context, key, value, metered, nonempty⟩ := write
  cases value with
  | some value =>
    obtain ⟨-, sized, own, found, held, rfl, -⟩ := returns_put.mp stored
    rw [parent found, reported, (view_eq_own held key).1, putSize]
    cases own.get key with
    | none => exact (Int.add_comm _ _).trans (Int.sub_eq_add_neg).symm
    | some old => exact (Int.add_comm _ _).trans (Int.sub_eq_add_neg).symm
  | none =>
    obtain ⟨-, own, held, sized, -⟩ := returns_remove.mp stored
    rw [reported, (view_eq_own held key).1]
    rw [Heap.removeSize] at sized
    split at sized
    · rename_i nothing
      rw [(removeSize_eq_zero_iff nonempty).mp nothing]
      exact parent sized
    · rename_i something
      obtain rfl := Except.ok.inj sized
      obtain ⟨old, stored⟩ := Option.ne_none_iff_exists'.mp
        ((removeSize_eq_zero_iff nonempty).not.mp something)
      rw [Backend.removeSize, stored]

end Write

/-- The write of an object by a program, or its removal, in a context. -/
def objectWrite (context : Context) (program : Account) (id : UInt32) (key : Bytes)
    (value : Option Bytes) : Write where
  context := context
  key := makeCompoundKey (ObjectSpace.ofProgram program id) key
  value := value
  metered := true
  nonempty := makeCompoundKey_ne_nil _ _

/-- The call that makes such a write. -/
def storeObject (id : UInt32) (key : Bytes) : Option Bytes → Run ErrorCode
  | some value => putObject id key value
  | none => removeObject id key

/-- The meter grants what the write of an object will report, once the call has taken its tick.
The size is taken as an unsigned number. -/
def WriteGranted (context : Context) (program : Account) (id : UInt32) (key : Bytes)
    (value : Option Bytes) : Prop :=
  context.meter.afterTick.GrantsStorage
    (UInt64.ofInt (objectWrite context program id key value).reported)

instance (context : Context) (program : Account) (id : UInt32) (key : Bytes)
    (value : Option Bytes) : Decidable (WriteGranted context program id key value) :=
  inferInstanceAs (Decidable (Meter.GrantsStorage _ _))

variable {before after : Context} {frame : StackFrame} {id : UInt32} {key : Bytes}
  {value : Option Bytes} {code : ErrorCode}

/-- What is left by the tick of a call. -/
theorem eq_afterTick {charged : Context} (paid : chargeCall.Returns before () charged) :
    charged = { before with meter := before.meter.afterTick } := by
  simp only [chargeCall, Context.onMeter, returns_bind, returns_within, returns_pure] at paid
  obtain ⟨_, _, ⟨meter, used, rfl⟩, -, rfl⟩ := paid
  rw [afterTick, show useComputeBandwidth 1 before.meter = _ from used]

/-- The phases of a call that updates the state node under a key of the running program: the
tick, the update, the charge. -/
theorem returns_paidUpdate {store : ObjectSpace → Run Int} (update : Nat → Effect Fault Heap Int)
    (top : before.stack.head? = some frame)
    (updates : ∀ context, store (ObjectSpace.ofProgram frame.programId id) context =
      Context.onHeap (update context.stateNode) context) :
    (do
      chargeCall
      let space ← Context.createObjectSpace id
      let size ← store space
      Context.onMeter (useDiskStorage (UInt64.ofInt size)) : Run ErrorCode).Returns
        before code after ↔
      chargeCall.Returns before () { before with meter := before.meter.afterTick } ∧
      ∃ size heap meter, (update before.stateNode).Returns before.heap size heap ∧
        (useDiskStorage (UInt64.ofInt size)).Returns before.meter.afterTick code meter ∧
        after = { before with heap := heap, meter := meter } := by
  let ticked : Context := { before with meter := before.meter.afterTick }
  have running : (ticked.stack.map StackFrame.programId).head? = some frame.programId := by
    rw [List.head?_map, top]
    rfl
  constructor
  · intro gave
    obtain ⟨_, charged, paid, continued⟩ := returns_bind.mp gave
    obtain rfl := eq_afterTick paid
    obtain ⟨space, mid, created, stored⟩ := returns_bind.mp continued
    obtain ⟨rfl, rfl⟩ := returns_createObjectSpace running created
    obtain ⟨size, written, wrote, charges⟩ := returns_bind.mp stored
    rw [Effect.Returns, updates] at wrote
    obtain ⟨heap, updated, rfl⟩ := returns_within.mp wrote
    obtain ⟨meter, used, rfl⟩ := returns_within.mp charges
    exact ⟨paid, size, heap, meter, updated, used, rfl⟩
  · rintro ⟨paid, size, heap, meter, updated, used, rfl⟩
    have wrote : (store (ObjectSpace.ofProgram frame.programId id)).Returns ticked size
        { ticked with heap := heap } := by
      rw [Effect.Returns, updates]
      exact returns_within.mpr ⟨heap, updated, rfl⟩
    exact returns_bind.mpr ⟨(), ticked, paid, returns_bind.mpr ⟨_, ticked,
      createObjectSpace_returns running id, returns_bind.mpr ⟨size, _, wrote,
        returns_within.mpr ⟨meter, used, rfl⟩⟩⟩⟩

/-- An object write pays a tick, writes, and charges for the size. -/
theorem returns_storeObject (top : before.stack.head? = some frame) :
    (storeObject id key value).Returns before code after ↔
      chargeCall.Returns before () { before with meter := before.meter.afterTick } ∧
      ∃ size heap meter,
        (objectWrite before frame.programId id key value).store.Returns before.heap size heap ∧
        (useDiskStorage (UInt64.ofInt size)).Returns before.meter.afterTick code meter ∧
        after = { before with heap := heap, meter := meter } := by
  cases value with
  | some value => exact returns_paidUpdate (fun node => Heap.put node _ value) top fun _ => rfl
  | none => exact returns_paidUpdate (fun node => Heap.remove node _) top fun _ => rfl

/-- A write of an object is made, and reports success exactly when it is granted. -/
theorem storeObject_outcome (top : before.stack.head? = some frame)
    (gave : (storeObject id key value).Returns before code after) :
    after.view = Function.update before.view
        (makeCompoundKey (ObjectSpace.ofProgram frame.programId id) key) value ∧
      ((WriteGranted before frame.programId id key value ∧ code = .controller .ok) ∨
        ¬ WriteGranted before frame.programId id key value ∧
          (code = .controller .diskStorageLimitExceeded ∨
            code = .controller .insufficientResources)) := by
  obtain ⟨-, size, heap, meter, stored, used, rfl⟩ := (returns_storeObject top).mp gave
  obtain rfl := Write.size_of_store stored
  exact ⟨Write.view_of_store stored, useDiskStorage_code used⟩

/-- An error of a write leaves the view alone exactly when there is no error or the view showed
already what was written. -/
theorem storeObject_atomic_iff (top : before.stack.head? = some frame)
    (gave : (storeObject id key value).Returns before code after) :
    (code.failed = true → after.view = before.view) ↔
      WriteGranted before frame.programId id key value ∨
        before.view (makeCompoundKey (ObjectSpace.ofProgram frame.programId id) key) = value := by
  obtain ⟨shown, outcome⟩ := storeObject_outcome top gave
  have same : after.view = before.view ↔
      before.view (makeCompoundKey (ObjectSpace.ofProgram frame.programId id) key) = value := by
    rw [shown, Function.update_eq_self_iff, eq_comm]
  obtain ⟨granted, rfl⟩ | ⟨refused, short⟩ := outcome
  · exact iff_of_true (fun failed => absurd failed (by decide)) (.inl granted)
  · have failed : code.failed = true := by rcases short with rfl | rfl <;> rfl
    rw [or_iff_right refused, ← same]
    exact forall_prop_of_true failed

/-- Writes of objects that return are atomic exactly when the meter grants the size that the
state node reports, or when nothing would change: the object that is put is shown already, or
the one that is removed is not shown. -/
theorem object_writes_atomic_iff (top : before.stack.head? = some frame) (id : UInt32)
    (key : Bytes) :
    (∀ value code after, (putObject id key value).Returns before code after →
        ((code.failed = true → after.view = before.view) ↔
          WriteGranted before frame.programId id key (some value) ∨
            before.view (makeCompoundKey (ObjectSpace.ofProgram frame.programId id) key) =
              some value)) ∧
      ∀ code after, (removeObject id key).Returns before code after →
        ((code.failed = true → after.view = before.view) ↔
          WriteGranted before frame.programId id key none ∨
            before.view (makeCompoundKey (ObjectSpace.ofProgram frame.programId id) key) =
              none) := by
  constructor
  · intro value code after gave
    have stored : (storeObject id key (some value)).Returns before code after := gave
    exact storeObject_atomic_iff top stored
  · intro code after gave
    have removed : (storeObject id key none).Returns before code after := gave
    exact storeObject_atomic_iff top removed

/-- A module in its frame, in a transaction that can spend a hundred. -/
def poorModule : Context :=
  let block := blockOn []
  { block with
    stack := [⟨moduleId, [], [], [], [], 0⟩]
    meter := { block.meter with session := some (Session.create 100) } }

/-- Where the module stores an object. -/
def moduleObject : Bytes := makeCompoundKey (ObjectSpace.ofProgram moduleId 0) [1]

/-- An object that the transaction cannot pay for is stored, and an error is returned. -/
theorem refused_put_is_made :
    ∃ after, (putObject 0 [1] [2]).Returns poorModule
        (.controller .insufficientResources) after ∧
      poorModule.view moduleObject = none ∧ after.view moduleObject = some [2] :=
  ⟨_, returns_of_fst (by decide +kernel), by decide +kernel, by decide +kernel⟩

/-- A module on a state that holds its object, after it has put the object once more. -/
def rewritingModule : Context :=
  let block := blockOn [(moduleObject, [2])]
  (putObject 0 [1] [2] { block with stack := [⟨moduleId, [], [], [], [], 0⟩] }).2

/-- Putting it again takes away more storage than a block has. The error changes nothing, since the
object is shown already. -/
theorem object_writes_atomic_of_shown :
    ∃ after, (putObject 0 [1] [2]).Returns rewritingModule
        (.controller .diskStorageLimitExceeded) after ∧ after.view = rewritingModule.view := by
  have gave : (putObject 0 [1] [2]).Returns rewritingModule
      (.controller .diskStorageLimitExceeded) _ := returns_of_fst (by decide +kernel)
  have top : rewritingModule.stack.head? = some ⟨moduleId, [], [], [], [], 0⟩ := rfl
  have atomic := ((object_writes_atomic_iff top 0 [1]).1 [2] _ _ gave).mpr
    (.inr (by decide +kernel))
  exact ⟨_, gave, atomic rfl⟩

/-- The call does not come back with a lack of storage or of the session's resources. -/
def NeverShort (routine : Run ErrorCode) (before : Context) : Prop :=
  ∀ code after, routine.Returns before code after →
    code ≠ .controller .diskStorageLimitExceeded ∧ code ≠ .controller .insufficientResources

/-- In a backed heap a node that is not final takes writes. -/
theorem Write.store_returns {write : Write} (backed : write.context.heap.Backed)
    (inside : write.context.stateNode < write.context.heap.size)
    (notFinal : write.context.heap.final write.context.stateNode = false) :
    ∃ size heap, write.store.Returns write.context.heap size heap := by
  obtain ⟨context, key, value, metered, nonempty⟩ := write
  cases value with
  | some value =>
    obtain ⟨size, stored⟩ := put_of_backed backed inside notFinal key value
    exact ⟨size, _, stored⟩
  | none =>
    obtain ⟨-, own, -, -, held⟩ := backend_of_backed backed inside
    obtain ⟨size, sized⟩ := removeSize_of_backed backed context.stateNode key own
    exact ⟨size, _, returns_remove.mpr ⟨notFinal, own, held, sized, rfl⟩⟩

/-- On a node that takes writes, a call that writes an object returns. -/
theorem storeObject_returns (sound : before.Sound)
    (notFinal : before.heap.final before.stateNode = false)
    (top : before.stack.head? = some frame) (id : UInt32) (key : Bytes) (value : Option Bytes) :
    ∃ code after, (storeObject id key value).Returns before code after := by
  obtain ⟨charged, paid⟩ :=
    chargeCall_returns fun isOpen => (sound.payable.computeBandwidth isOpen).1
  obtain rfl := eq_afterTick paid
  have spent : Meter.Spent before.meter before.meter.afterTick := use_spends _ _ _
  have payable := sound.payable.of_spent spent
  let write := objectWrite before frame.programId id key value
  obtain ⟨size, heap, stored⟩ : ∃ size heap, write.store.Returns before.heap size heap :=
    Write.store_returns sound.backed sound.inside notFinal
  obtain ⟨code, meter, used⟩ := use_returns payable.diskStorage (UInt64.ofInt size)
  exact ⟨code, _, (returns_storeObject top).mpr ⟨paid, size, heap, meter, stored, used, rfl⟩⟩

/-- Such a call never comes back with a lack of resources exactly when it is granted. -/
theorem neverShort_iff (sound : before.Sound)
    (notFinal : before.heap.final before.stateNode = false)
    (top : before.stack.head? = some frame) :
    NeverShort (storeObject id key value) before ↔
      WriteGranted before frame.programId id key value := by
  constructor
  · intro never
    obtain ⟨code, after, gave⟩ := storeObject_returns sound notFinal top id key value
    obtain ⟨granted, -⟩ | ⟨-, short⟩ := (storeObject_outcome top gave).2
    · exact granted
    · obtain ⟨notLimit, notSession⟩ := never code after gave
      exact absurd short (not_or.mpr ⟨notLimit, notSession⟩)
  · intro granted code after gave
    obtain ⟨-, rfl⟩ | ⟨refused, -⟩ := (storeObject_outcome top gave).2
    · exact ⟨by decide, by decide⟩
    · exact absurd granted refused

section Visible

variable {write : Write} {old : Bytes} {own : Backend}

/-- Removing a visible object reports that its bytes are given back. -/
theorem Write.reported_of_removal (removal : write.value = none)
    (held : write.context.heap.backend write.context.stateNode = .ok own)
    (visible : write.context.view write.key = some old) :
    write.reported = - objectSize write.key old := by
  rw [reported, removal]
  obtain stored | ⟨absent, shown⟩ := own_or_below held visible
  · rw [stored]
  · rw [absent, shown]
    rfl

/-- Overwriting a visible object reports the difference of the lengths. When the node has a value
of its own, the parent's object is taken off once more. -/
theorem Write.reported_of_overwriting (write : Write) {value : Bytes}
    (overwriting : write.value = some value)
    (held : write.context.heap.backend write.context.stateNode = .ok own)
    (visible : write.context.view write.key = some old) :
    (write.context.heap.ownValue write.context.stateNode write.key = none →
        write.reported = value.length - old.length) ∧
      (write.context.heap.ownValue write.context.stateNode write.key ≠ none →
        write.reported = value.length - old.length - shownSize write.key
          (write.context.heap.below write.context.stateNode write.key)) := by
  rw [reported, overwriting]
  obtain stored | ⟨absent, shown⟩ := own_or_below held visible
  · rw [stored]
    exact ⟨fun absent => absurd absent (Option.some_ne_none old), fun _ => rfl⟩
  · rw [absent, shown]
    refine ⟨fun _ => ?_, fun present => absurd rfl present⟩
    simp only [shownSize, Option.map_some, Option.getD_some, objectSize]
    omega

end Visible

theorem shownSize_nonneg (key : Bytes) (shown : Option Bytes) : 0 ≤ shownSize key shown := by
  cases shown with
  | none => exact Int.le_refl 0
  | some value =>
    simp only [shownSize, Option.map_some, Option.getD_some, objectSize]
    omega

/-- Only what is not shown has size zero. -/
theorem shownSize_eq_zero_iff {key : Bytes} (nonempty : key ≠ []) {shown : Option Bytes} :
    shownSize key shown = 0 ↔ shown = none := by
  have positive : 0 < key.length := List.length_pos_iff.mpr nonempty
  cases shown with
  | none => exact iff_of_true rfl rfl
  | some value =>
    refine iff_of_false ?_ (Option.some_ne_none value)
    simp only [shownSize, Option.map_some, Option.getD_some, objectSize]
    omega

namespace Meter

theorem diskStorage_afterTick (meter : Meter) :
    meter.afterTick.remaining.diskStorage = meter.remaining.diskStorage :=
  (useComputeBandwidth_spares 1 meter).diskStorage

/-- As an unsigned number a negative size is at least what is left of the storage, unless it is
so far below zero that it wraps around once more. -/
theorem grantsStorage_ofInt_iff {meter : Meter} {size : Int} (freed : size ≤ 0)
    (left : 0 < meter.remaining.diskStorage)
    (fits : meter.remaining.diskStorage.toNat - size ≤ 2 ^ 64) :
    meter.GrantsStorage (UInt64.ofInt size) ↔ size = 0 := by
  have some_ := UInt64.lt_iff_toNat_lt.mp left
  rw [UInt64.toNat_zero] at some_
  constructor
  · rintro ⟨less, -⟩
    rw [UInt64.lt_iff_toNat_lt, UInt64.ofInt, UInt64.toNat_ofNat'] at less
    omega
  · rintro rfl
    refine ⟨left, fun session _ => ?_⟩
    rw [show (UInt64.ofInt 0).toNat = 0 from rfl, Nat.zero_mul]
    exact Nat.zero_le _

end Meter

section Freed

variable {program : Account} {objectKey old : Bytes} {own : Backend}
  (named : objectKey = makeCompoundKey (ObjectSpace.ofProgram program id) key)
  (held : before.heap.backend before.stateNode = .ok own)
  (visible : before.view objectKey = some old)
  (left : 0 < before.meter.remaining.diskStorage)
  (fits : before.meter.remaining.diskStorage.toNat + objectSize objectKey old +
    shownSize objectKey (before.heap.below before.stateNode objectKey) ≤ 2 ^ 64)

include left

/-- What is reported is granted when it is nothing. -/
theorem writeGranted_iff_zero (freed : (objectWrite before program id key value).reported ≤ 0)
    (bounded : before.meter.remaining.diskStorage.toNat -
      (objectWrite before program id key value).reported ≤ 2 ^ 64) :
    WriteGranted before program id key value ↔
      (objectWrite before program id key value).reported = 0 := by
  rw [← diskStorage_afterTick] at left bounded
  exact grantsStorage_ofInt_iff freed left bounded

include named held visible fits

/-- A removal is never granted. -/
theorem removal_refused : ¬ WriteGranted before program id key none := by
  subst named
  have hidden := shownSize_nonneg (makeCompoundKey (ObjectSpace.ofProgram program id) key)
    (before.heap.below before.stateNode (makeCompoundKey (ObjectSpace.ofProgram program id) key))
  have positive := List.length_pos_iff.mpr
    (makeCompoundKey_ne_nil (ObjectSpace.ofProgram program id) key)
  have given : (objectWrite before program id key none).reported =
      - objectSize (makeCompoundKey (ObjectSpace.ofProgram program id) key) old :=
    Write.reported_of_removal rfl held visible
  have size : 0 < objectSize (makeCompoundKey (ObjectSpace.ofProgram program id) key)
      old := by
    rw [objectSize]
    omega
  rw [writeGranted_iff_zero left (by omega) (by omega)]
  omega

/-- An overwriting is granted for values of equal length, if the parent's is not counted twice. -/
theorem overwriting_granted_iff {stored : Bytes} (shorter : stored.length ≤ old.length) :
    WriteGranted before program id key (some stored) ↔
      stored.length = old.length ∧ (before.heap.below before.stateNode objectKey = none ∨
        before.heap.ownValue before.stateNode objectKey = none) := by
  subst named
  have hidden := shownSize_nonneg (makeCompoundKey (ObjectSpace.ofProgram program id) key)
    (before.heap.below before.stateNode (makeCompoundKey (ObjectSpace.ofProgram program id) key))
  have shown : shownSize (makeCompoundKey (ObjectSpace.ofProgram program id) key)
        (before.heap.below before.stateNode
          (makeCompoundKey (ObjectSpace.ofProgram program id) key)) = 0 ↔
      before.heap.below before.stateNode
        (makeCompoundKey (ObjectSpace.ofProgram program id) key) = none :=
    shownSize_eq_zero_iff (makeCompoundKey_ne_nil _ _)
  obtain ⟨whenAbsent, whenPresent⟩ := Write.reported_of_overwriting
    (objectWrite before program id key (some stored)) rfl held visible
  rw [objectSize] at fits
  by_cases absent : before.heap.ownValue before.stateNode
      (makeCompoundKey (ObjectSpace.ofProgram program id) key) = none
  · have given := whenAbsent absent
    rw [writeGranted_iff_zero left (by omega) (by omega)]
    simp only [absent, or_true, and_true]
    omega
  · have given : (objectWrite before program id key (some stored)).reported =
        stored.length - old.length - shownSize
          (makeCompoundKey (ObjectSpace.ofProgram program id) key) (before.heap.below
            before.stateNode (makeCompoundKey (ObjectSpace.ofProgram program id) key)) :=
      whenPresent absent
    rw [writeGranted_iff_zero left (by omega) (by omega)]
    simp only [absent, or_false, ← shown]
    omega

end Freed

/-- On a node that takes writes, removing a visible object of the running program, or overwriting
it with a value that is not longer, is never refused for lack of storage exactly when the meter
grants the reported size as an unsigned number. While the sizes stay far below the range of a
word, that is: removing is always refused, and overwriting is refused unless the values are
equally long and the parent does not show the key or the node has no value of its own. -/
theorem freeing_granted_iff (sound : before.Sound)
    (notFinal : before.heap.final before.stateNode = false)
    (top : before.stack.head? = some frame) {id : UInt32} {key objectKey old : Bytes}
    (named : objectKey = makeCompoundKey (ObjectSpace.ofProgram frame.programId id) key)
    (visible : before.view objectKey = some old) :
    (NeverShort (removeObject id key) before ↔ WriteGranted before frame.programId id key none) ∧
      (∀ value, value.length ≤ old.length → (NeverShort (putObject id key value) before ↔
          WriteGranted before frame.programId id key (some value))) ∧
      (0 < before.meter.remaining.diskStorage →
        before.meter.remaining.diskStorage.toNat + objectSize objectKey old +
            shownSize objectKey (before.heap.below before.stateNode objectKey) ≤ 2 ^ 64 →
          ¬ NeverShort (removeObject id key) before ∧
          ∀ value, value.length ≤ old.length →
            (NeverShort (putObject id key value) before ↔ value.length = old.length ∧
                (before.heap.below before.stateNode objectKey = none ∨
                  before.heap.ownValue before.stateNode objectKey = none))) := by
  have never (value : Option Bytes) : NeverShort (storeObject id key value) before ↔
      WriteGranted before frame.programId id key value := neverShort_iff sound notFinal top
  obtain ⟨-, own, -, -, held⟩ := backend_of_backed sound.backed sound.inside
  refine ⟨never none, fun value _ => never (some value), fun left fits => ⟨?_, ?_⟩⟩
  · exact (never none).not.mpr (removal_refused named held visible left fits)
  · intro value shorter
    exact (never (some value)).trans (overwriting_granted_iff named held visible left fits shorter)

/-- A module in its frame, in a new block over a state that has an object of the module. -/
def moduleInBlock : Context :=
  { blockOn [(moduleObject, [5, 6])] with stack := [⟨moduleId, [], [], [], [], 0⟩] }

/-- With the whole storage of the block left, removing or shortening the object is refused. -/
theorem freeing_is_refused :
    moduleInBlock.view moduleObject = some [5, 6] ∧
      moduleInBlock.meter.remaining.diskStorage = 409600 ∧
      (removeObject 0 [1] moduleInBlock).1 =
        .ok (.controller .diskStorageLimitExceeded) ∧
      (putObject 0 [1] [7] moduleInBlock).1 =
        .ok (.controller .diskStorageLimitExceeded) :=
  ⟨by decide +kernel, rfl, by decide +kernel, by decide +kernel⟩

/-- Overwriting it with two bytes again is not refused. -/
theorem freeing_granted_of_equal_length :
    moduleInBlock.view moduleObject = some [5, 6] ∧
      NeverShort (putObject 0 [1] [7, 8]) moduleInBlock := by
  have visible : moduleInBlock.view moduleObject = some [5, 6] := by decide +kernel
  have sound : moduleInBlock.Sound := by
    have unpaid (metered : Meter.Metered) : Meter.Priced metered moduleInBlock.meter :=
      fun isOpen => absurd isOpen (by decide)
    exact ⟨backed_blockOn _, by decide, unpaid _, unpaid _, unpaid _⟩
  have top : moduleInBlock.stack.head? = some ⟨moduleId, [], [], [], [], 0⟩ := rfl
  have granted := (freeing_granted_iff sound rfl top rfl visible).2.1 [7, 8] (by decide)
  exact ⟨visible, granted.mpr (by decide +kernel)⟩

end Respublica.Controller
