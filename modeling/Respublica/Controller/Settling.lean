import Respublica.Controller.Phases
import Respublica.StateDb.Settled

/-!
# What applying a block leaves alone

A block is applied on a node of its own, and its transactions on children of that node. The
deltas before that node are settled throughout, on every exit; a routine of a context keeps
this as long as the context works on that node or on a later one. The argument is the same for
every relation of heaps that work on later deltas keeps, so it is made for those.
-/

namespace Respublica.Controller

open Foundation Effect Program Protocol StateDb Heap

/-- From a state node at or above the limit a context stays there, and its heap is kept as a
relation of heaps says, such as that the deltas below the limit are settled. -/
def Beyond (limit : Nat) (kept : Heap → Heap → Prop) (before after : Context) : Prop :=
  limit ≤ before.stateNode → limit ≤ after.stateNode ∧ kept before.heap after.heap

namespace Beyond

variable {limit : Nat} {kept : Heap → Heap → Prop}

instance [Std.Refl kept] : Std.Refl (Beyond limit kept) :=
  ⟨fun _ above => ⟨above, Std.Refl.refl _⟩⟩

instance [IsTrans Heap kept] : IsTrans Context (Beyond limit kept) :=
  ⟨fun _ _ _ first second above => by
    obtain ⟨stays, keeps⟩ := first above
    obtain ⟨staysOn, keepsOn⟩ := second stays
    exact ⟨staysOn, IsTrans.trans _ _ _ keeps keepsOn⟩⟩

end Beyond

/-- Whatever stays in a frame stays beyond the limit. -/
theorem Frame.beyond {limit : Nat} {kept : Heap → Heap → Prop}
    (shelters : Heap.Shelters limit kept) {writes : Bytes → Prop} {before after : Context}
    (frame : Frame writes before after) : Beyond limit kept before after :=
  fun above => ⟨frame.stateNode.symm ▸ above, shelters.confined frame.heap above⟩

namespace Context

variable {limit : Nat} {env : Env}

/-- Charging a transaction writes under its nonce key. -/
theorem chargeTransaction_frame (tx : Transaction) :
    (chargeTransaction tx).Keeps
      (Frame fun key => key = nonceKey (Transaction.nonceAccount tx)) :=
  chargeTransaction_kept frame_overlooks fun _ => keeps_bind (putState_frame _ rfl) fun _ =>
    onMeter_frame (Meter.use_spends _ _)

section Beyond

variable {kept : Heap → Heap → Prop} [Std.Refl kept] [IsTrans Heap kept]

omit [IsTrans Heap kept] in
/-- A change of a context that leaves its heap and its node alone. -/
theorem modify_beyond {change : Context → Context}
    (same : ∀ context, (change context).stateNode = context.stateNode ∧
      (change context).heap = context.heap) :
    (Effect.modify change : Run Unit).Keeps (Beyond limit kept) := by
  refine keeps_modify fun context above => ?_
  obtain ⟨sameNode, sameHeap⟩ := same context
  rw [sameNode, sameHeap]
  exact ⟨above, Std.Refl.refl _⟩

variable (shelters : Heap.Shelters limit kept)

include shelters

omit [Std.Refl kept] [IsTrans Heap kept] in
/-- Whatever keeps a frame stays beyond the limit. -/
theorem beyond_of_frame {Value : Type} {routine : Run Value} {writes : Bytes → Prop}
    (keeps : routine.Keeps (Frame writes)) : routine.Keeps (Beyond limit kept) :=
  keeps.mono fun _ _ => Frame.beyond shelters

/-- Operations run on a child, which is squashed into the node it was made on. -/
theorem executeTransaction_beyond (tx : Transaction) :
    (executeTransaction env tx).Keeps (Beyond limit kept) := by
  intro before
  by_cases above : limit ≤ before.stateNode
  case neg => exact fun isAbove => absurd isAbove above
  refine related_bind (Std.Refl.refl _) fun _ before read => ?_
  obtain ⟨rfl, rfl⟩ := returns_read.mp read
  have makes : (onHeap (makeChild before.stateNode nullId)).Keeps (Beyond limit kept) :=
    keeps_within (shelters.makeChild _ _) fun _ _ made above => ⟨above, made⟩
  refine related_bind (makes before) fun node created made => ?_
  obtain ⟨-, grown⟩ := makes.of_returns made above
  obtain ⟨heap, madeHeap, rfl⟩ := returns_within.mp made
  obtain ⟨own, backs, rfl, rfl⟩ := returns_makeChild.mp madeHeap
  have inside := lt_size_of_backend backs
  let entered : Context := { before with
    heap := before.heap.push (some before.stateNode) (childOf own nullId)
    stateNode := before.heap.size }
  have points : entered.heap.parent? before.heap.size = some before.stateNode :=
    Forest.parent?_push_child inside _
  have enters : Beyond limit kept before entered := fun _ => ⟨by simp only [entered]; omega, grown⟩
  have moves : (setStateNode before.heap.size).Returns { before with heap := entered.heap } ()
      entered := returns_modify.mpr rfl
  rw [moves.bind_eq]
  have runs : (applyOperations env tx.operations).Keeps (Frame OperationKey) :=
    applyOperations_frame tx.operations
  refine IsTrans.trans _ _ _ enters (related_bind ((runs entered).beyond shelters)
    fun code finished ran => ?_)
  have frame := runs.of_returns ran
  refine IsTrans.trans _ _ _ (frame.beyond shelters) ?_
  split
  · exact fun _ => ⟨above, Std.Refl.refl _⟩
  · have finishedPoints : finished.heap.parent? before.heap.size = some before.stateNode :=
      (frame.heap.parents _).trans points
    have squashes := shelters.squash finishedPoints above
    refine related_bind (fun stays => ⟨stays, squashes⟩) fun _ squashed squash => ?_
    obtain ⟨heap, squashed, rfl⟩ := returns_within.mp squash
    rw [squashed] at squashes
    exact fun _ => ⟨above, squashes⟩

/-- Applying a transaction works beyond its node. -/
theorem applyTransaction_beyond (tx : Transaction) :
    (applyTransaction env tx).Keeps (Beyond limit kept) := by
  have phases : Effect.Keeps (Beyond limit kept) (do
      let context ← Effect.read
      Effect.modify (beginTransaction tx)
      andThen (authorizeTransaction env tx) fun _ =>
        andThen (chargeTransaction tx) fun _ => do
          let code ← executeTransaction env tx
          let receipt ← transactionReceipt tx context.meter.remaining code
          pure (.ok receipt) : Run (Result TransactionReceipt)) := by
    refine keeps_bind keeps_read fun context => ?_
    refine keeps_bind (modify_beyond fun _ => ⟨rfl, rfl⟩) fun _ => ?_
    refine keeps_andThen (beyond_of_frame shelters (authorizeTransaction_frame tx))
      fun _ => ?_
    refine keeps_andThen (beyond_of_frame shelters (chargeTransaction_frame tx))
      fun _ => ?_
    refine keeps_bind (executeTransaction_beyond shelters tx) fun code => ?_
    refine keeps_bind (keeps_bind keeps_read fun _ => ?_) fun _ =>
      keeps_pure _
    exact keeps_bind (modify_beyond fun _ => ⟨rfl, rfl⟩) fun _ => keeps_pure _
  intro before above
  exact phases before above

theorem applyTransactions_beyond (transactions : List Transaction) :
    (applyTransactions env transactions).Keeps (Beyond limit kept) := by
  induction transactions with
  | nil => exact keeps_pure _
  | cons tx rest ih =>
    exact keeps_andThen (applyTransaction_beyond shelters tx) fun _ =>
      keeps_andThen ih fun _ => keeps_pure _

/-- Applying a block works beyond its node. -/
theorem applyBlock_beyond (block : Block) :
    (applyBlock env block).Keeps (Beyond limit kept) := by
  refine keeps_bind (modify_beyond fun _ => ⟨rfl, rfl⟩) fun _ => ?_
  refine keeps_bind keeps_read fun start => ?_
  have reads : (getState ObjectSpace.metadata (genesisKey env)).Keeps
      (Frame fun _ => False) := getState_kept _ _
  refine keeps_bind (beyond_of_frame shelters reads) fun key => ?_
  cases key with
  | none => exact keeps_fail _
  | some key =>
    refine keeps_ite (keeps_pure _) ?_
    refine keeps_andThen (applyTransactions_beyond shelters block.transactions) fun receipts => ?_
    refine keeps_bind keeps_read fun context => ?_
    exact keeps_bind (modify_beyond fun _ => ⟨rfl, rfl⟩) fun _ => keeps_pure _

end Beyond

end Context

end Respublica.Controller
