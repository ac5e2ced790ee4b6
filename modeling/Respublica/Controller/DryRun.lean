import Respublica.Controller.History

/-!
# A transaction on its own leaves no trace

`controller::process` of a transaction applies it to a temporary child of the head and drops
the child. Every write goes to that child or to a child of it: the deltas that were there are
the same afterwards, whether a receipt or an error came back, or an exception.
-/

namespace Respublica.StateDb.Heap

open Foundation

/-- A read depends on the deltas along the path and on which of them are roots. -/
theorem getAlong_congr {first second : Heap} {path : List Nat} (key : Bytes)
    (nodes : ∀ index ∈ path, second.node? index = first.node? index)
    (parents : ∀ index ∈ path, second.parent? index = first.parent? index) :
    second.getAlong key path = first.getAlong key path := by
  induction path with
  | nil => rfl
  | cons index ancestors ih =>
    have above := ih (fun other mem => nodes other (List.mem_cons_of_mem _ mem))
      fun other mem => parents other (List.mem_cons_of_mem _ mem)
    have sameRoot : second.root index = first.root index := by
      rw [root, root, parents index List.mem_cons_self]
    rw [getAlong, getAlong, nodes index List.mem_cons_self, above, sameRoot]

/-- A delta below the limit shows what it showed when nothing below the limit is touched. -/
theorem Untouched.get {limit : Nat} {before after : Heap} (untouched : Untouched limit before after)
    (settled : Settled limit before after) {node : Nat} (inside : node < before.size)
    (below : node < limit) (key : Bytes) : after.get node key = before.get node key := by
  rw [Heap.get, Heap.get, settled.lineage inside]
  refine getAlong_congr key (fun index mem => ?_) fun index mem => ?_
  · have above := Forest.le_of_mem_lineage mem
    exact untouched.nodes index (by omega) (by omega)
  · exact settled.parents index (Nat.lt_of_le_of_lt (Forest.le_of_mem_lineage mem) inside)

end Respublica.StateDb.Heap

namespace Respublica.Controller

open Foundation Protocol StateDb

/-- Nothing can be told from a database about a call that led to another one: index, head, root
and fork heads are the same, and every delta that was there shows the same under every key,
has the same Merkle root and is final or not as before. -/
structure NoTrace (before after : Database) : Prop where
  index : after.index = before.index
  head : after.head = before.head
  root : after.root = before.root
  forkHeads : after.forkHeads = before.forkHeads
  view : ∀ node < before.heap.size, ∀ key, after.heap.get node key = before.heap.get node key
  merkleRoot : ∀ node < before.heap.size, ∀ hash,
    (Heap.merkleRoot hash node after.heap).1 = (Heap.merkleRoot hash node before.heap).1
  final : ∀ node < before.heap.size, after.heap.final node = before.heap.final node

/-- Applying any transaction on its own leaves no trace in any database, on every exit; and in
every run of a controller the nodes of the index are deltas of which this is said. -/
theorem transaction_alone_leaves_no_trace (env : Env) (tx : Transaction) :
    (∀ db, NoTrace db (processTransaction env tx db).2) ∧
      ∀ entries history db, ProcessRun env entries history db →
          ∀ node ∈ db.index, node < db.heap.size := by
  refine ⟨fun db => ?_, fun _ _ _ run => run.tracked.inside⟩
  obtain ⟨heap, mid, settled⟩ := processTransaction_kept db Heap.shelters_settled env tx
  obtain ⟨other, alsoReached, untouched⟩ :=
    processTransaction_kept db Heap.shelters_untouched env tx
  obtain rfl : heap = other := congrArg Database.heap (mid.symm.trans alsoReached)
  rw [mid]
  refine ⟨rfl, rfl, rfl, rfl, fun node inside key => untouched.get settled inside inside key,
    fun node inside hash => Heap.merkleRoot_congr (untouched.nodes node inside inside),
    fun node inside => settled.final inside⟩

end Respublica.Controller
