import Respublica.Controller.Ownership
import Respublica.Controller.Receipt
import Respublica.StateDb.Accounting

/-!
# Who pays for the growth of the state

A transaction writes to the state one object after the other: its nonce, the objects of the
programs it runs and the programs it uploads. Most writes report a size that is then taken
to the meter, but the charge may be refused with the write left in place, the size may be
too small, and an upload is not taken to the meter at all.

The writes of a transaction are collected in a list, each with the context it was made in.
What the state grew by is what the receipt reports as used plus what each write left unpaid,
so the growth is paid for when every write is covered.
-/

namespace Respublica.Controller

open Foundation Effect Crypto Program Protocol StateDb Context Meter

namespace Context

/-- The bytes of all keys and values that the state node shows. -/
noncomputable def storage (context : Context) : Int := context.heap.storage context.stateNode

/-- The disk storage that the meter has left. -/
def diskLeft (context : Context) : Int := context.meter.remaining.diskStorage.toNat

end Context

/-- A write to the state node of a context: the key, its new value or none for a removal, and
whether the size that is reported is taken to the meter. -/
structure Write where
  context : Context
  key : Bytes
  value : Option Bytes
  metered : Bool
  nonempty : key ≠ []

namespace Write

/-- The routine of the state that makes the write. -/
def store (write : Write) : Effect Fault Heap Int :=
  match write.value with
  | some value => Heap.put write.context.stateNode write.key value
  | none => Heap.remove write.context.stateNode write.key

/-- The meter after the write has reported a size. It is as before when the charge is refused. -/
def meterAfter (write : Write) (size : Int) : Meter :=
  if write.metered then (useDiskStorage (UInt64.ofInt size) write.context.meter).2
  else write.context.meter

/-- The bytes by which the write makes the state grow. -/
def growth (write : Write) : Int :=
  Heap.shownSize write.key write.value -
    Heap.shownSize write.key (write.context.view write.key)

/-- The bytes that the write takes from the meter. -/
def paid (write : Write) : Int :=
  match (write.store write.context.heap).1 with
  | .ok size => write.context.diskLeft - (write.meterAfter size).remaining.diskStorage.toNat
  | .error _ => 0

/-- The bytes that are left unpaid, negative when too much was paid. -/
def unpaid (write : Write) : Int := write.growth - write.paid

/-- The write makes nothing grow; or it is metered, the parent does not show the key or the node
has no record of its own for it, and the meter grants the growth. -/
def Covered (write : Write) : Prop :=
  write.growth ≤ 0 ∨
    write.metered = true ∧
      (write.context.heap.below write.context.stateNode write.key = none ∨
        write.context.heap.ownValue write.context.stateNode write.key = none ∧
          write.context.heap.removed write.context.stateNode write.key = false) ∧
      write.growth < 2 ^ 64 ∧
      (useDiskStorage (UInt64.ofInt write.growth) write.context.meter).1 =
        .ok (.controller .ok)

/-- What is left by a write that is made: the new state, and the meter it was taken to. -/
structure Leaves (write : Write) (size : Int) (after : Context) : Prop where
  stored : write.store.Returns write.context.heap size after.heap
  stateNode : after.stateNode = write.context.stateNode
  meter : after.meter = write.meterAfter size

variable {write : Write} {size : Int} {after : Context}

variable {heap : Heap}

/-- A write changes what is shown under its key. -/
theorem view_of_store (stored : write.store.Returns write.context.heap size heap) :
    heap.view write.context.stateNode =
      Function.update write.context.view write.key write.value := by
  obtain ⟨context, key, value, metered, nonempty⟩ := write
  cases value with
  | some value => exact Heap.view_of_put stored
  | none => exact Heap.view_of_remove nonempty stored

/-- A write is made, or it is stopped by a fault and changes nothing. -/
theorem store_outcome (write : Write) :
    (∃ size heap, write.store.Returns write.context.heap size heap) ∨
      ∃ fault, write.store write.context.heap = (.error fault, write.context.heap) := by
  obtain ⟨context, key, value, metered, nonempty⟩ := write
  cases value with
  | some value => exact Heap.put_outcome _ _ _ _
  | none => exact Heap.remove_outcome _ _ _

/-- A write leaves a heap backed. -/
theorem backed_of_store (backed : write.context.heap.Backed)
    (stored : write.store.Returns write.context.heap size heap) : heap.Backed := by
  obtain ⟨context, key, value, metered, nonempty⟩ := write
  cases value with
  | some value =>
    have confined : (Heap.put context.stateNode key value).Keeps
        (Heap.Confined (fun _ => True) context.stateNode) := Heap.put_confined value trivial
    exact (confined.of_returns stored).backed backed
  | none =>
    have confined : (Heap.remove context.stateNode key).Keeps
        (Heap.Confined (fun _ => True) context.stateNode) := Heap.remove_confined trivial
    exact (confined.of_returns stored).backed backed

/-- Removing an object makes nothing grow. -/
theorem growth_nonpos_of_removal (removal : write.value = none) : write.growth ≤ 0 := by
  rw [growth, removal, Heap.shownSize, Heap.shownSize]
  cases write.context.view write.key with
  | none => simp
  | some shown =>
    simp only [Option.map_none, Option.getD_none, Option.map_some, Option.getD_some,
      Backend.objectSize]
    omega

/-- No write gives anything back to the meter. -/
theorem diskLeft_meterAfter_le (write : Write) (size : Int) :
    ((write.meterAfter size).remaining.diskStorage.toNat : Int) ≤ write.context.diskLeft := by
  have spent : Meter.Spent write.context.meter (write.meterAfter size) := by
    rw [meterAfter]
    split
    · exact use_spends _ _ _
    · exact Std.Refl.refl _
  exact Int.ofNat_le.mpr (UInt64.le_iff_toNat_le.mp spent.remaining.1)

/-- What the meter grants it has less. -/
theorem diskLeft_of_granted {meter : Meter} {bytes : UInt64}
    (granted : (useDiskStorage bytes meter).1 = .ok (.controller .ok)) :
    (useDiskStorage bytes meter).2.remaining.diskStorage.toNat + bytes.toNat =
      meter.remaining.diskStorage.toNat := by
  obtain ⟨-, used⟩ | ⟨-, refused⟩ := outcome_of_use (returns_of_fst granted)
  · have available : bytes < meter.remaining.diskStorage :=
      UInt64.not_le.mp (of_decide_eq_false used.available)
    have bound := UInt64.lt_iff_toNat_lt.mp available
    have left : (useDiskStorage bytes meter).2.remaining.diskStorage =
        meter.remaining.diskStorage - bytes := congrArg ResourceState.diskStorage used.remaining
    rw [left, UInt64.toNat_sub_of_le _ _ (UInt64.le_of_lt available)]
    omega
  · cases refused

namespace Leaves

variable (leaves : write.Leaves size after)

include leaves

/-- The state grows by the growth of the write. -/
theorem storage : after.storage - write.context.storage = write.growth := by
  rw [Context.storage, Context.storage, leaves.stateNode]
  exact Heap.storage_sub (view_of_store leaves.stored)

theorem paid_eq : write.paid = write.context.diskLeft - after.diskLeft := by
  have gave : (write.store write.context.heap).1 = .ok size := congrArg Prod.fst leaves.stored
  rw [paid, gave, diskLeft, diskLeft, leaves.meter]

/-- A write that nobody else pays for is paid from the meter, up to what is left unpaid. -/
theorem balance : after.storage - write.context.storage =
    write.context.diskLeft - after.diskLeft + write.unpaid := by
  rw [leaves.storage, unpaid, leaves.paid_eq]
  omega

/-- A covered write leaves nothing unpaid. -/
theorem unpaid_nonpos (covered : write.Covered) : write.unpaid ≤ 0 := by
  have takes := write.diskLeft_meterAfter_le size
  rw [unpaid, leaves.paid_eq, diskLeft, diskLeft, leaves.meter]
  by_cases grows : write.growth ≤ 0
  · rw [diskLeft] at takes
    omega
  · obtain ⟨metered, exact_, fits, granted⟩ := covered.resolve_left grows
    cases value : write.value with
    | none => exact absurd (growth_nonpos_of_removal value) grows
    | some stored =>
      have reported := leaves.stored
      rw [store, value] at reported
      have sized : size = write.growth := by
        rw [(Heap.put_exact_iff write.nonempty reported).mpr exact_,
          Heap.storage_sub (Heap.view_of_put reported), growth, value]
        rfl
      have amount : ((UInt64.ofInt write.growth).toNat : Int) = write.growth := by
        rw [UInt64.ofInt, UInt64.toNat_ofNat']
        omega
      have taken := diskLeft_of_granted granted
      rw [meterAfter, if_pos metered, sized]
      omega

end Leaves

end Write

/-- A change that touches neither the state nor the disk storage left. -/
structure Quiet (before after : Context) : Prop where
  heap : after.heap = before.heap
  stateNode : after.stateNode = before.stateNode
  diskStorage : after.meter.remaining.diskStorage = before.meter.remaining.diskStorage

instance : Std.Refl Quiet := ⟨fun _ => ⟨rfl, rfl, rfl⟩⟩

instance : IsTrans Context Quiet :=
  ⟨fun _ _ _ first second => ⟨second.heap.trans first.heap, second.stateNode.trans first.stateNode,
    second.diskStorage.trans first.diskStorage⟩⟩

theorem quiet_overlooks : Overlooks Quiet :=
  ⟨fun _ _ spares => ⟨rfl, rfl, spares.diskStorage⟩, fun _ _ _ => ⟨rfl, rfl, rfl⟩,
    fun _ _ => ⟨rfl, rfl, rfl⟩⟩

/-- The writes made on the way from one context to another, in order. Between writes a context
may change quietly, turn to a new child of its state node, or turn back to the parent with the
child squashed into it. -/
inductive WriteRun : Context → List Write → Context → Prop where
  | quiet {before after : Context} (quiet : Quiet before after) : WriteRun before [] after
  | write {write : Write} {size : Int} {after : Context} (leaves : write.Leaves size after) :
      WriteRun write.context [write] after
  | child {before : Context} {node : Nat} {heap : Heap}
      (made : (Heap.makeChild before.stateNode nullId).Returns before.heap node heap) :
      WriteRun before [] { before with heap := heap, stateNode := node }
  | squashed {before : Context} {parent : Nat} {heap : Heap}
      (points : before.heap.parent? before.stateNode = some parent)
      (squash : (Heap.squashTemporary before.stateNode).Returns before.heap () heap) :
      WriteRun before [] { before with heap := heap, stateNode := parent }
  | append {first middle last : Context} {writes others : List Write}
      (earlier : WriteRun first writes middle) (later : WriteRun middle others last) :
      WriteRun first (writes ++ others) last

/-- The one context is reached from the other by writes. -/
def ReachedByWrites (before after : Context) : Prop := ∃ writes, WriteRun before writes after

instance : Std.Refl ReachedByWrites := ⟨fun _ => ⟨[], .quiet (Std.Refl.refl _)⟩⟩

instance : IsTrans Context ReachedByWrites :=
  ⟨fun _ _ _ earlier later => ⟨_, .append earlier.choose_spec later.choose_spec⟩⟩

namespace WriteRun

variable {before after : Context} {writes : List Write}

/-- What the state grows by in a run is what the meter has less plus what the writes left
unpaid. The induction goes over the run, with every delta that is met having its backend. -/
theorem balance (run : WriteRun before writes after) (backed : before.heap.Backed) :
    after.heap.Backed ∧ after.storage - before.storage =
      before.diskLeft - after.diskLeft + (writes.map Write.unpaid).sum := by
  induction run with
  | quiet quiet =>
    rw [quiet.heap]
    refine ⟨backed, ?_⟩
    rw [storage, storage, diskLeft, diskLeft, quiet.heap, quiet.stateNode, quiet.diskStorage]
    simp
  | write leaves =>
    refine ⟨Write.backed_of_store backed leaves.stored, ?_⟩
    rw [leaves.balance]
    simp
  | child made =>
    obtain ⟨own, backs, rfl, rfl⟩ := Heap.returns_makeChild.mp made
    refine ⟨Heap.backed_push backed rfl, ?_⟩
    simp only [storage, diskLeft, Heap.storage,
      Heap.view_makeChild (Heap.lt_size_of_backend backs)]
    simp
  | squashed points squash =>
    have gave := Heap.squash_of_squashTemporary squash
    obtain ⟨_, again, stillBacked⟩ := Heap.squash_of_backed backed points
    obtain ⟨-, rfl⟩ := gave.unique again
    refine ⟨stillBacked, ?_⟩
    simp only [storage, diskLeft, Heap.storage, Heap.view_of_squash backed points gave]
    simp
  | append earlier later earlierBalance laterBalance =>
    obtain ⟨middleBacked, first⟩ := earlierBalance backed
    obtain ⟨lastBacked, second⟩ := laterBalance middleBacked
    refine ⟨lastBacked, ?_⟩
    rw [List.map_append, List.sum_append]
    omega

/-- When every write of a run is covered, nothing is left unpaid. -/
theorem unpaid_nonpos (run : WriteRun before writes after)
    (covered : ∀ write ∈ writes, write.Covered) : (writes.map Write.unpaid).sum ≤ 0 := by
  induction run with
  | write leaves => simpa using leaves.unpaid_nonpos (covered _ List.mem_cons_self)
  | append earlier later earlierPaid laterPaid =>
    rw [List.forall_mem_append] at covered
    have first := earlierPaid covered.1
    have second := laterPaid covered.2
    rw [List.map_append, List.sum_append]
    omega
  | quiet | child | squashed => simp

end WriteRun

namespace Context

variable {env : Env} {before after : Context}

/-- A write that is then paid for, whatever comes of the payment. -/
theorem paidStore_reached (write : Write) (metered : write.metered = true) :
    ReachedByWrites write.context ((do
      let size ← onHeap write.store
      onMeter (useDiskStorage (UInt64.ofInt size)) : Run ErrorCode) write.context).2 := by
  obtain ⟨size, heap, stored⟩ | ⟨fault, stopped⟩ := write.store_outcome
  · have wrote : (onHeap write.store).Returns write.context size
        { write.context with heap := heap } := returns_within.mpr ⟨heap, stored, rfl⟩
    rw [wrote.bind_eq]
    exact ⟨_, .write ⟨stored, rfl, by rw [Write.meterAfter, if_pos metered]; rfl⟩⟩
  · have threw : onHeap write.store write.context = (.error fault, write.context) := by
      rw [onHeap, Effect.within, stopped]
    rw [bind_eq_of_error threw]
    exact Std.Refl.refl _

/-- A write is a step of its own. -/
theorem putState_reached (space : ObjectSpace) (key value : Bytes) :
    (putState space key value).Keeps ReachedByWrites := by
  intro before
  let write : Write :=
    ⟨before, makeCompoundKey space key, some value, false, makeCompoundKey_ne_nil space key⟩
  obtain ⟨size, heap, stored⟩ | ⟨fault, stopped⟩ := write.store_outcome
  · have wrote : (putState space key value).Returns before size { before with heap := heap } :=
      returns_bind.mpr ⟨before, before, returns_read.mpr ⟨rfl, rfl⟩,
        returns_within.mpr ⟨heap, stored, rfl⟩⟩
    have leaves : write.Leaves size { before with heap := heap } := ⟨stored, rfl, rfl⟩
    rw [wrote]
    exact ⟨[write], .write leaves⟩
  · have threw : putState space key value before = (.error fault, before) := by
      rw [putState, read_bind, onHeap, Effect.within]
      rw [show Heap.put before.stateNode (makeCompoundKey space key) value before.heap =
        (.error fault, before.heap) from stopped]
    rw [threw]
    exact Std.Refl.refl _

/-- Whatever programs do to the state, they do by writes. -/
theorem reachedByWrites_endures (env : Env) :
    Endures env ReachedByWrites := by
  have quietly {before after : Context} (quiet : Quiet before after) :
      ReachedByWrites before after := ⟨[], .quiet quiet⟩
  have overlooks : Overlooks ReachedByWrites :=
    ⟨fun _ _ spares => quietly (quiet_overlooks.meter _ _ spares),
      fun _ _ same => quietly (quiet_overlooks.contents _ _ same),
      fun _ _ => quietly (quiet_overlooks.record _ _)⟩
  refine ⟨overlooks.meter, fun _ _ => quietly ⟨rfl, rfl, rfl⟩, overlooks.record,
    checkSignature_kept (fun _ _ => quietly ⟨rfl, rfl, rfl⟩) env.crypto,
    putObject_kept overlooks fun space key value before => ?_,
    removeObject_kept overlooks fun space key before => ?_⟩
  · exact paidStore_reached ⟨before, makeCompoundKey space key, some value, true,
      makeCompoundKey_ne_nil space key⟩ rfl
  · exact paidStore_reached ⟨before, makeCompoundKey space key, none, true,
      makeCompoundKey_ne_nil space key⟩ rfl

/-- The write of a transaction's nonce. -/
def nonceWrite (tx : Transaction) (context : Context) : Write :=
  ⟨context, nonceKey (Transaction.nonceAccount tx), some (storeWord tx.nonce), true,
    makeCompoundKey_ne_nil _ _⟩

variable {tx : Transaction} {receipt : TransactionReceipt}

/-- A charged transaction has written its nonce. -/
theorem chargeTransaction_writes (gave : (chargeTransaction tx).Returns before (.ok ()) after) :
    WriteRun before [nonceWrite tx before] after := by
  obtain ⟨size, heap, meter, charged⟩ := chargeTransaction_charged gave
  obtain ⟨_, used, -⟩ := charged.paid
  obtain ⟨_, sent⟩ := charged.sent
  let wrote : Context := { before with heap := heap, meter := meter }
  have leaves : (nonceWrite tx before).Leaves size wrote :=
    ⟨charged.put, rfl, (congrArg Prod.snd used).symm⟩
  have sending : Quiet wrote after := by
    rw [charged.after_eq]
    exact ⟨rfl, rfl, ((useNetworkBandwidth_spares _).of_returns sent).diskStorage⟩
  exact .append (.write leaves) (.quiet sending)

/-- Operations go through writes only. -/
theorem applyOperations_reached (operations : List Operation) :
    (applyOperations env operations).Keeps ReachedByWrites :=
  applyOperations_kept (reachedByWrites_endures env).requireAuthority
    (fun id => putState_reached ObjectSpace.programData id.1)
    ((reachedByWrites_endures env).runProgramAt fullRoom .strict) operations

/-- When operations go well, what they write on their own node is written. -/
theorem executeTransaction_writes {code : ErrorCode}
    (gave : (executeTransaction env tx).Returns before code after)
    (well : code.failed = false) :
    ∃ start outcome finished,
      (applyOperations env tx.operations).Returns start outcome finished ∧
      ∀ writes, WriteRun start writes finished → WriteRun before writes after := by
  obtain ⟨node, heap, outcome, finished, made, ran, ended⟩ := returns_executeTransaction.mp gave
  have frame := (applyOperations_frame tx.operations).of_returns ran
  split at ended <;> rename_i failed
  · obtain ⟨rfl, -⟩ := ended
    cases well.symm.trans failed
  · obtain ⟨squashed, squash, -, rfl⟩ := ended
    have stateNode : finished.stateNode = node := frame.stateNode
    have points : finished.heap.parent? finished.stateNode = some before.stateNode := by
      obtain ⟨own, backs, rfl, rfl⟩ := Heap.returns_makeChild.mp made
      rw [frame.heap.parents, stateNode]
      exact Forest.parent?_push_child (Heap.lt_size_of_backend backs) _
    rw [← stateNode] at squash
    refine ⟨_, outcome, finished, ran, fun writes wrote => ?_⟩
    have run := WriteRun.append (.child made) (.append wrote (.squashed points squash))
    rwa [List.nil_append, List.append_nil] at run

/-- A transaction that is applied without being reverted gets from its beginning to its end by
writes. -/
theorem applyTransaction_reached
    (applied : (applyTransaction env tx).Returns before (.ok receipt) after)
    (kept : receipt.reverted = false) :
    ∃ writes executed, WriteRun (beginTransaction tx before) writes executed ∧
      after = endSession { executed with frames := [] } := by
  obtain ⟨authorized, charged, executed, code, authorizes, charges, executes, reverted, ended⟩ :=
    applyTransaction_phases applied
  obtain ⟨first, authorizing⟩ :=
    ((reachedByWrites_endures env).authorizeTransaction tx).of_returns authorizes
  obtain ⟨start, outcome, finished, ran, executing⟩ :=
    executeTransaction_writes executes (reverted.symm.trans kept)
  obtain ⟨last, operating⟩ := (applyOperations_reached tx.operations).of_returns ran
  exact ⟨_, executed,
    .append authorizing (.append (chargeTransaction_writes charges) (executing last operating)),
    ended⟩

/-- The disk storage that a receipt reports is what the meter has less. -/
theorem diskStorageUsed_eq
    (applied : (applyTransaction env tx).Returns before (.ok receipt) after) :
    (receipt.diskStorageUsed.toNat : Int) = before.diskLeft - after.diskLeft := by
  obtain ⟨-, reported, less, -⟩ := applyTransaction_accounted applied
  have used : receipt.diskStorageUsed =
      before.meter.remaining.diskStorage - after.meter.remaining.diskStorage :=
    congrArg ResourceState.diskStorage reported
  have bound := UInt64.le_iff_toNat_le.mp less.1
  rw [used, UInt64.toNat_sub_of_le _ _ less.1, diskLeft, diskLeft]
  omega

/-- A transaction that is applied without being reverted is a run of writes. However its way is
split into writes, the state has grown by the disk storage that the receipt reports plus what the
writes left unpaid; and when all of them are covered, by no more than the receipt reports. -/
theorem growth_paid_when_writes_covered {tx : Transaction} {receipt : TransactionReceipt}
    (backed : before.heap.Backed)
    (applied : (applyTransaction env tx).Returns before (.ok receipt) after)
    (kept : receipt.reverted = false) :
    (∃ writes executed, WriteRun (beginTransaction tx before) writes executed ∧
        after = endSession { executed with frames := [] }) ∧
      ∀ writes executed, WriteRun (beginTransaction tx before) writes executed →
        after = endSession { executed with frames := [] } →
          after.storage - before.storage =
              receipt.diskStorageUsed.toNat + (writes.map Write.unpaid).sum ∧
            ((∀ write ∈ writes, write.Covered) →
              after.storage - before.storage ≤ receipt.diskStorageUsed.toNat) := by
  refine ⟨applyTransaction_reached applied kept, fun writes executed run ended => ?_⟩
  have used := diskStorageUsed_eq applied
  subst ended
  have balanced : (endSession { executed with frames := [] }).storage - before.storage =
      before.diskLeft - (endSession { executed with frames := [] }).diskLeft +
        (writes.map Write.unpaid).sum := (run.balance backed).2
  rw [← used] at balanced
  refine ⟨balanced, fun covered => ?_⟩
  have nothing := run.unpaid_nonpos covered
  omega

/-- A transaction that does nothing but advance the nonce of its payer. -/
def idleTransaction : Transaction := sampleTransaction (SizedBytes.zero 32) 1 []

/-- The context in which it writes its nonce. -/
def idleAuthorized : Context :=
  (authorizeTransaction .plain idleTransaction (beginTransaction idleTransaction keyed)).2

/-- Its only write is covered, so the 81 bytes it reports are all that the state grows by. -/
theorem growth_of_nonce_paid :
    ∃ receipt after writes executed,
      (applyTransaction .plain idleTransaction).Returns keyed (.ok receipt) after ∧
      WriteRun (beginTransaction idleTransaction keyed) writes executed ∧
      (∀ write ∈ writes, write.Covered) ∧ receipt.diskStorageUsed = 81 ∧
      after.storage - keyed.storage ≤ 81 := by
  obtain ⟨receipt, applied, reported⟩ := returns_ok_of_map_fst
    (show (applyTransaction .plain idleTransaction keyed).1.map
        (Except.map fun receipt => (receipt.reverted, receipt.diskStorageUsed)) =
      .ok (.ok (false, 81)) by decide +kernel)
  obtain ⟨kept, used⟩ := Prod.mk.inj reported
  obtain ⟨authorized, charged, executed, code, authorizes, charges, executes, reverted, ended⟩ :=
    applyTransaction_phases applied
  obtain rfl : idleAuthorized = authorized := congrArg Prod.snd authorizes
  have authorizing : Quiet (beginTransaction idleTransaction keyed) idleAuthorized :=
    authorizeTransaction_of_signers quiet_overlooks (fun _ _ => ⟨rfl, rfl, rfl⟩) (by decide)
      (by decide) _
  obtain ⟨start, outcome, finished, ran, executing⟩ :=
    executeTransaction_writes executes (reverted.symm.trans kept)
  obtain ⟨-, rfl⟩ := returns_pure.mp ran
  have run := WriteRun.append (.quiet authorizing) (.append (chargeTransaction_writes charges)
    (executing [] (.quiet (Std.Refl.refl _))))
  have covered : ∀ write ∈ [] ++ ([nonceWrite idleTransaction idleAuthorized] ++ []),
      write.Covered := by
    intro write mem
    obtain rfl : write = nonceWrite idleTransaction idleAuthorized := by simpa using mem
    exact .inr ⟨rfl, .inl (by decide +kernel), by decide +kernel, by decide +kernel⟩
  have bound := ((growth_paid_when_writes_covered (backed_blockOn _) applied kept).2 _ _ run
    ended).2 covered
  rw [used] at bound
  exact ⟨receipt, _, _, executed, applied, run, covered, used, bound⟩

/-- A transaction that uploads a program reports the 81 bytes of its nonce, while the state grows
by 187. -/
theorem upload_grows_unpaid :
    ∃ receipt after,
      (applyTransaction .plain (firstUpload moduleId)).Returns (blockOn []) (.ok receipt) after ∧
      receipt.reverted = false ∧ receipt.diskStorageUsed = 81 ∧
      after.storage - (blockOn []).storage = 187 := by
  obtain ⟨receipt, applied, reported⟩ := returns_ok_of_map_fst
    (show (applyTransaction .plain (firstUpload moduleId) (blockOn [])).1.map
        (Except.map fun receipt => (receipt.reverted, receipt.diskStorageUsed)) =
      .ok (.ok (false, 81)) by decide +kernel)
  obtain ⟨kept, used⟩ := Prod.mk.inj reported
  refine ⟨receipt, _, applied, kept, used, ?_⟩
  rw [storage, storage, Heap.storage_eq_sum, Heap.storage_eq_sum]
  decide +kernel

end Context

end Respublica.Controller
