import Respublica.Controller.LinkedChain
import Respublica.Controller.Mirror
import Respublica.StateDb.IndexTree

/-!
# What a run leaves in its nodes

The node of an accepted block holds what the block makes of the layers of its predecessor, and
nothing that comes later changes that: refused blocks, blocks that throw and transactions on
their own work on deltas of their own. A node's layers are so a function of the blocks on the
way to it. The Merkle root that a node answers with is that of what it holds.
-/

namespace Respublica.Controller

open Foundation Effect Crypto Program Protocol StateDb Forest Context Heap Database

variable {env : Env} {entries : List GenesisEntry} {history : List (Nat × Block)}
  {db after : Database} {root node : Nat} {block : Block} {now : Int}

/-- The deltas have changed as a relation of heaps says. -/
def HeapsRelated (kept : Heap → Heap → Prop) (before after : Database) : Prop :=
  kept before.heap after.heap

/-- The deltas below the limit keep their layers, and what is cached of them is right. -/
abbrev HonestWork (env : Env) (limit : Nat) : Database → Database → Prop :=
  HeapsRelated (Heap.Honest env.crypto.hash limit)

section Stages

variable {limit : Nat} {kept : Heap → Heap → Prop}

instance [Std.Refl kept] : Std.Refl (HeapsRelated kept) :=
  ⟨fun before => show kept before.heap before.heap from Std.Refl.refl _⟩

instance [IsTrans Heap kept] : IsTrans Database (HeapsRelated kept) :=
  ⟨fun before middle after earlier later => show kept before.heap after.heap from
    IsTrans.trans before.heap middle.heap after.heap earlier later⟩

/-- The checks of a block change the database by asking its predecessor for a Merkle root. -/
theorem checkBlock_keeps [Std.Refl kept] [IsTrans Heap kept] {parent : Nat}
    (caches : (merkleRoot env.crypto.hash parent).Keeps kept) :
    (checkBlock env block parent now).Keeps (HeapsRelated kept) := by
  have asks : (PermanentNode.merkleRoot env.crypto.hash parent).Keeps
      (HeapsRelated kept) :=
    keeps_within caches fun _ _ related => related
  refine keeps_ite (keeps_ite (keeps_pure _) (keeps_pure _)) ?_
  refine keeps_bind asks fun _ => ?_
  refine keeps_ite (keeps_pure _) (keeps_bind ?_ fun _ =>
    keeps_ite (keeps_pure _) (keeps_pure _))
  refine keeps_bind keeps_read fun _ => ?_
  refine keeps_bind (keeps_ofExcept _) fun _ => ?_
  refine keeps_bind (keeps_ofExcept _) fun _ => ?_
  refine keeps_bind (keeps_ofExcept _) fun _ => ?_
  exact keeps_bind asks fun _ => keeps_pure _

/-- The checks of a block keep cached roots honest. -/
theorem checkBlock_honest (parent : Nat) :
    (checkBlock env block parent now).Keeps (HonestWork env limit) :=
  checkBlock_keeps (merkleRoot_honest parent)

/-- The checks cache a root for the predecessor only. -/
theorem checkBlock_sameBut (parent : Nat) :
    (checkBlock env block parent now).Keeps (HeapsRelated (Heap.SameBut parent)) :=
  checkBlock_keeps (merkleRoot_keeps fun _ _ _ _ _ _ _ apart => node?_update_of_ne apart)

/-- Applying a block keeps cached roots honest. -/
theorem applyBlock_honest (node : Nat) :
    (inContext node .blockApplication (applyBlock env block)).Keeps
      (HonestWork env node) := by
  intro before
  exact (applyBlock_beyond shelters_honest block
    (create before.heap node .blockApplication) (Nat.le_refl node)).2

end Stages

/-- The index is the same, or a new node was added under an id that was free. -/
def Indexes (before after : Database) : Prop :=
  after.index = before.index ∨ ∃ id, before.find id = .ok none ∧
    after.index = before.index ++ [before.heap.size] ∧ after.heap.id before.heap.size = .ok id

/-- What was indexed stays indexed. -/
theorem Indexes.subset (indexes : Indexes db after) (mem : node ∈ db.index) :
    node ∈ after.index := by
  rcases indexes with same | ⟨id, -, added, -⟩
  · rwa [same]
  · rw [added]
    exact List.mem_append_left _ mem

/-- Nothing that was there has moved: deltas are settled and keep their layers, indexed nodes
stay indexed, and the head is the same. -/
structure Unmoved (env : Env) (before after : Database) : Prop where
  settled : Heap.Settled before.heap.size before.heap after.heap
  honest : Heap.Honest env.crypto.hash before.heap.size before.heap after.heap
  indexes : Indexes before after
  head : after.head = before.head

namespace Unmoved

theorem refl (db : Database) : Unmoved env db db :=
  ⟨Std.Refl.refl _, Std.Refl.refl _, .inl rfl, rfl⟩

theorem carried (unmoved : Unmoved env db after) : Carried db.heap.size db after :=
  Carried.of_heap unmoved.settled fun _ => unmoved.indexes.subset

/-- What is added to a new child moves nothing else. -/
theorem of_withChild (tracked : Tracked history db root) {parent : Nat} {own : Backend}
    (extends_ : Extends block db parent) (backs : db.heap.backend parent = .ok own)
    (settled : Database.Settled db.heap.size (withChild db parent own block.id) after)
    (honest : HonestWork env db.heap.size (withChild db parent own block.id) after) :
    Unmoved env db after where
  settled := IsTrans.trans _ _ _ (settled_makeChild backs block.id) settled.heap
  honest := IsTrans.trans _ _ _ (honest_push _ _) honest
  indexes := by
    obtain ⟨-, named, -⟩ := tracked.child_outcome extends_ backs
    exact .inr ⟨block.id, extends_.unknown, settled.index,
      (settled.heap.id (lt_size_withChild db parent own block.id)).trans named⟩
  head := settled.head

end Unmoved

variable {parent : Nat} {own : Backend} {checked opened : Database} {context : Context}
  {applied receipt : BlockReceipt}

/-- What a refused block leaves behind is honest. -/
theorem LeftBehind.honest {before : Database}
    (left : LeftBehind env block parent node now before after) :
    HonestWork env node before after := by
  rcases left with rfl | ⟨checked, checks, rfl⟩
  · exact checkBlock_honest parent before
  · have checkHonest : HonestWork env node before checked :=
      (checkBlock_honest parent).of_returns checks
    exact IsTrans.trans _ _ _ checkHonest (applyBlock_honest node checked)

/-- A block that is left behind has moved nothing but its own node. -/
theorem LeftBehind.unmoved (tracked : Tracked history db root) (extends_ : Extends block db parent)
    (backs : db.heap.backend parent = .ok own)
    (left : LeftBehind env block parent db.heap.size now (withChild db parent own block.id) after) :
    Unmoved env db after :=
  .of_withChild tracked extends_ backs left.settled left.honest

namespace Context

variable {before after : Context}

/-- A transaction ends on the node it began on. -/
theorem executeTransaction_stateNode {tx : Transaction} {code : ErrorCode}
    (gave : (executeTransaction env tx).Returns before code after) :
    after.stateNode = before.stateNode := by
  obtain ⟨node, heap, outcome, finished, -, -, ended⟩ := returns_executeTransaction.mp gave
  split at ended
  · rw [ended.2]
  · obtain ⟨squashed, -, -, rfl⟩ := ended
    rfl

/-- So do transactions in a row. -/
theorem applyTransactions_stateNode {transactions : List Transaction}
    {receipts : List TransactionReceipt}
    (gave : (applyTransactions env transactions).Returns before (.ok receipts) after) :
    after.stateNode = before.stateNode := by
  induction transactions generalizing before receipts with
  | nil => rw [(returns_pure.mp gave).2]
  | cons tx rest ih =>
    obtain ⟨receipt, middle, applied, later⟩ := returns_andThen_ok.mp gave
    obtain ⟨receipts, mid, appliedRest, ended⟩ := returns_andThen_ok.mp later
    obtain ⟨-, rfl⟩ := returns_pure.mp ended
    obtain ⟨authorized, charged, executed, code, authorizes, charges, executes, -, rfl⟩ :=
      applyTransaction_phases applied
    have authorizedNode := ((authorizeTransaction_frame tx).of_returns authorizes).stateNode
    have chargedNode := ((chargeTransaction_frame tx).of_returns charges).stateNode
    have restNode := ih appliedRest
    calc after.stateNode
      _ = executed.stateNode := restNode
      _ = charged.stateNode := executeTransaction_stateNode executes
      _ = before.stateNode := chargedNode.trans authorizedNode

/-- A context that has applied a block is back at the node it started from. -/
theorem applyBlock_stateNode {receipt : BlockReceipt}
    (gave : (applyBlock env block).Returns before (.ok receipt) after) :
    after.stateNode = before.stateNode := by
  obtain ⟨mid, applied, rfl⟩ := applyBlock_phases gave
  have sameNode := applyTransactions_stateNode applied
  exact sameNode

end Context

/-- What a block makes of the layers it builds on: it is applied to a new node on top of them,
and that node is made final. -/
def Yields (env : Env) (block : Block) (below above : List Content)
    (receipt : BlockReceipt) : Prop :=
  ∃ heap node context, heap.layers node = blankContent :: below ∧
    (applyBlock env block).Returns
      (create heap node .blockApplication) (.ok receipt) context ∧
    above = sealTop (context.heap.layers context.stateNode)

/-- A block makes one thing of given layers, and earns one receipt. -/
theorem Yields.unique {below first second : List Content}
    {firstReceipt secondReceipt : BlockReceipt}
    (localsAgree : Context.LocalsAgreeOn Context.Mirrored env)
    (yields : Yields env block below first firstReceipt)
    (yieldsAgain : Yields env block below second secondReceipt) :
    first = second ∧ firstReceipt = secondReceipt := by
  obtain ⟨heap, node, context, layers, applied, rfl⟩ := yields
  obtain ⟨otherHeap, otherNode, otherContext, otherLayers, otherApplied, rfl⟩ := yieldsAgain
  have mirrored : Context.Mirrored (create heap node .blockApplication)
      (create otherHeap otherNode .blockApplication) :=
    ⟨otherHeap, otherNode, .blockApplication, layers.trans otherLayers.symm, Iff.rfl, rfl⟩
  obtain ⟨mid, appliedAgain, reachedMirrored⟩ :=
    applyBlock_mirrored localsAgree block _ _ _ _ mirrored applied
  obtain ⟨same, rfl⟩ := appliedAgain.unique otherApplied
  obtain ⟨_, _, _, sameLayers, -, rfl⟩ := reachedMirrored
  exact ⟨congrArg sealTop sameLayers, Except.ok.inj same⟩

/-- Processing a block that is not accepted moves nothing, unless the block makes another one
irreversible. -/
theorem unmoved_of_refused (tracked : Tracked history db root) {error : ErrorCode}
    (gave : (processBlock env block now).Returns db (.error error) after) :
    Unmoved env db after := by
  rcases processBlock_outcome gave with ⟨rfl, -⟩ |
    ⟨parent, own, -, -, extends_, backs, evaluated⟩
  · exact .refl _
  · exact (leftBehind_of_refused evaluated).unmoved tracked extends_ backs

/-- A call that throws moves nothing, as long as no block becomes irreversible. -/
theorem unmoved_of_stopped (tracked : Tracked history db root) {fault : Fault}
    (reversible : ∀ parent, Extends block db parent → ¬ MakesIrreversible db parent)
    (stopped : (processBlock env block now).Stops db fault after) :
    Unmoved env db after := by
  rcases processBlock_stopped tracked stopped with rfl | ⟨parent, own, extends_, backs,
    evaluating⟩
  · exact .refl _
  · exact (leftBehind_of_stopped tracked backs (reversible parent extends_) evaluating).unmoved
      tracked extends_ backs

/-- A transaction on its own moves nothing. -/
theorem unmoved_of_transaction (db : Database) (tx : Transaction) :
    Unmoved env db (processTransaction env tx db).2 := by
  obtain ⟨heap, mid, settled⟩ := processTransaction_kept db shelters_settled env tx
  obtain ⟨other, alsoReached, honest⟩ := processTransaction_kept db shelters_honest env tx
  obtain rfl : heap = other := congrArg Database.heap (mid.symm.trans alsoReached)
  rw [mid]
  exact ⟨settled, honest, .inl rfl, rfl⟩

/-- What holds of an opened database, is kept when nothing moves and is kept by every accepted
block holds throughout a run. -/
theorem ProcessRun.invariant (Holds : List (Nat × Block) → Database → Prop)
    (opens : ∀ db, (openController env entries false).Returns empty () db → Holds [] db)
    (stays : ∀ history before after, ProcessRun env entries history before →
      Unmoved env before after → Holds history before → Holds history after)
    (accepts : ∀ history before after block now receipt, ProcessRun env entries history before →
      (processBlock env block now).Returns before (.ok receipt) after →
        Holds history before → Holds (history ++ [(before.heap.size, block)]) after)
    (run : ProcessRun env entries history db) : Holds history db := by
  induction run with
  | opened gave => exact opens _ gave
  | accepted earlier gave ih => exact accepts _ _ _ _ _ _ earlier gave ih
  | refused earlier gave ih =>
    exact stays _ _ _ earlier (unmoved_of_refused earlier.chained.tracked gave) ih
  | threw earlier reversible stopped ih =>
    exact stays _ _ _ earlier
      (unmoved_of_stopped earlier.chained.tracked reversible stopped) ih
  | transaction tx earlier ih =>
    exact stays _ _ _ earlier (unmoved_of_transaction _ tx) ih

/-- What is on record about an accepted block: its node holds what the block makes of its
predecessor's layers, and the Merkle root of what it holds is cached there. -/
structure Recorded (env : Env) (heap : Heap) (node : Nat) (block : Block) : Prop where
  inside : node < heap.size
  derived : ∃ parent receipt, heap.parent? node = some parent ∧
    Yields env block (heap.layers parent) (heap.layers node) receipt
  root : ∀ content, (heap.layers node).head? = some content →
    heap.cachedRoot node = some (contentRoot env.crypto.hash content)

/-- Records are kept where layers and roots are. -/
theorem Recorded.kept {before after : Heap} (recorded : Recorded env before node block)
    (size : before.size ≤ after.size) (parents : after.parent? node = before.parent? node)
    (layers : ∀ index < before.size, after.layers index = before.layers index)
    (roots : ∀ root, before.cachedRoot node = some root → after.cachedRoot node = some root) :
    Recorded env after node block := by
  obtain ⟨parent, receipt, points, yields⟩ := recorded.derived
  have older := Nat.lt_trans (parent?_lt points) recorded.inside
  refine ⟨Nat.lt_of_lt_of_le recorded.inside size, ⟨parent, receipt, parents.trans points, ?_⟩, ?_⟩
  · rwa [layers parent older, layers node recorded.inside]
  · intro content isContent
    rw [layers node recorded.inside] at isContent
    exact roots _ (recorded.root content isContent)

theorem Recorded.unmoved (recorded : Recorded env db.heap node block)
    (unmoved : Unmoved env db after) : Recorded env after.heap node block :=
  recorded.kept unmoved.settled.size (unmoved.settled.parents node recorded.inside)
    (fun index inside => unmoved.honest.layered.layers index inside inside)
    fun root cached => unmoved.settled.roots node recorded.inside root cached

/-- What an accepted block has done: it has moved nothing that was there, and its own node is
final and holds what the block makes of the layers of the node it extends. The receipt names the
Merkle root of that, which is cached. The node is the head now if it is higher than the head. -/
structure Accepted (env : Env) (block : Block) (before after : Database)
    (receipt : BlockReceipt) (parent : Nat) (applied : BlockReceipt) (content : Content) :
    Prop where
  size : before.heap.size < after.heap.size
  honest : Heap.Honest env.crypto.hash before.heap.size before.heap after.heap
  extends_ : Extends block before parent
  points : after.heap.parent? before.heap.size = some parent
  yields : Yields env block (before.heap.layers parent)
    (after.heap.layers before.heap.size) applied
  top : (after.heap.layers before.heap.size).head? = some content
  receipt : receipt =
    { applied with stateMerkleRoot := contentRoot env.crypto.hash content }
  root : after.heap.cachedRoot before.heap.size =
    some (contentRoot env.crypto.hash content)
  head : ∃ head headRevision revision, before.head = some head ∧
    before.heap.revision head = .ok headRevision ∧
    after.heap.revision before.heap.size = .ok revision ∧
    after.head = some (if headRevision < revision then before.heap.size else head)

/-- Up to its application nothing is cached for the node of a block. -/
theorem cachedRoot_of_applied (inside : parent < db.heap.size)
    (checks : (checkBlock env block parent now).Returns (withChild db parent own block.id)
      (.ok ()) checked)
    (grown : (withChild db parent own block.id).heap.size ≤ checked.heap.size)
    (applies : (applyBlock env block).Returns
      (create checked.heap db.heap.size .blockApplication) (.ok applied) context) :
    context.heap.cachedRoot db.heap.size = none := by
  have kept : (applyBlock env block).Keeps (Beyond 0 Heap.SameRoots) :=
    applyBlock_beyond shelters_sameRoots block
  have sameRoots := (kept.of_returns applies (Nat.zero_le _)).2
  have checkedInside := Nat.lt_of_lt_of_le (lt_size_withChild db parent own block.id) grown
  have unchecked : checked.heap.node? db.heap.size = some (childOf own block.id) := by
    have others := (checkBlock_sameBut parent).of_returns checks
    rw [others _ (Nat.ne_of_gt inside), node?_withChild]
  have same := sameRoots.roots db.heap.size checkedInside
  rw [same]
  change checked.heap.cachedRoot db.heap.size = none
  rw [cachedRoot, unchecked]
  rfl

/-- What is cached stays right while a block is checked and applied on a new node, the node is made
final and its Merkle root is computed. -/
theorem honest_of_accepted {heap : Heap} {stateRoot : Digest}
    (checks : (checkBlock env block parent now).Returns (withChild db parent own block.id)
      (.ok ()) checked)
    (applies : (applyBlock env block).Returns
      (create checked.heap db.heap.size .blockApplication) (.ok applied) context)
    (caches : (merkleRoot env.crypto.hash db.heap.size).Returns
      (context.heap.update db.heap.size fun delta => { delta with final := true })
      stateRoot heap) :
    Heap.Honest env.crypto.hash db.heap.size db.heap heap := by
  have pushed : Heap.Honest env.crypto.hash db.heap.size db.heap
      (withChild db parent own block.id).heap := honest_push _ _
  have checkHonest : HonestWork env db.heap.size _ checked :=
    (checkBlock_honest parent).of_returns checks
  have applyHonest : Heap.Honest env.crypto.hash db.heap.size checked.heap context.heap :=
    ((applyBlock_beyond shelters_honest block).of_returns applies (Nat.le_refl _)).2
  have finalHonest : Heap.Honest env.crypto.hash db.heap.size context.heap
      (context.heap.update db.heap.size fun delta => { delta with final := true }) :=
    honest_finalized _ (Nat.le_refl _)
  have cacheHonest : Heap.Honest env.crypto.hash db.heap.size _ heap :=
    (merkleRoot_honest _).of_returns caches
  exact IsTrans.trans _ _ _ pushed (IsTrans.trans _ _ _ checkHonest
    (IsTrans.trans _ _ _ applyHonest (IsTrans.trans _ _ _ finalHonest cacheHonest)))

/-- Every accepted block has done so. -/
theorem accepted_outcome (tracked : Tracked history db root)
    (gave : (processBlock env block now).Returns db (.ok receipt) after) :
    ∃ parent applied content,
      Accepted env block db after receipt parent applied content := by
  rcases processBlock_outcome gave with ⟨-, _, isError, -⟩ |
    ⟨parent, own, valid, -, extends_, backs, evaluated⟩
  · cases isError
  obtain ⟨checked, context, applied, checks, checkSettled, applies, applySettled, accepts⟩ :=
    evaluateBlock_accepted evaluated
  have inside := lt_size_of_backend backs
  have childInside := lt_size_withChild db parent own block.id
  have settled := IsTrans.trans _ _ _ checkSettled applySettled
  have rooted := ((tracked.withChild backs block.id).settled settled).rooted
  have contextInside : db.heap.size < context.heap.size :=
    Nat.lt_of_lt_of_le childInside settled.heap.size
  obtain ⟨head, isHead, headFinal⟩ := tracked.rooted.head
  have headInside := lt_size_of_final headFinal
  obtain ⟨headRevision, headRevised⟩ := revision_of_backed tracked.rooted.backed headInside
  obtain ⟨_, rootRevised⟩ := revision_of_backed rooted.backed rooted.inside
  have revised := (revisions_of_settled tracked settled).1
  obtain ⟨-, stateRoot, heap, forkHeads, caches, rfl, rfl⟩ := acceptBlock_accepted rooted
    contextInside (settled.head.trans isHead)
    ((revision_of_settled headInside settled).trans headRevised) revised rootRevised accepts
  -- Nothing was cached for the new node, so its Merkle root is computed now.
  obtain ⟨ended, cached, content, top, rfl⟩ := merkleRoot_finalized rooted.backed contextInside
    (cachedRoot_of_applied inside checks checkSettled.heap.size applies) caches
  have kept : Heap.Settled 0 _ heap := (merkleRoot_settled _ _).of_returns caches
  have finalInside : db.heap.size <
      (context.heap.update db.heap.size fun delta => { delta with final := true }).size := by
    rwa [size_update]
  refine ⟨parent, applied, content, Nat.lt_of_lt_of_le finalInside kept.size,
    honest_of_accepted checks applies caches, extends_, ?_,
    ⟨checked.heap, _, context, ?_, applies, ?_⟩, top, rfl, cached,
    ⟨head, headRevision, _, isHead, headRevised, ?_, rfl⟩⟩
  · rw [kept.parents _ finalInside, parent?_update]
    exact (settled.heap.parents _ childInside).trans (parent?_push_child inside _)
  · rw [← (checkBlock_alike checks).layers]
    exact layers_push_child inside _
  · rw [applyBlock_stateNode applies]
    exact ended
  · exact (kept.revision finalInside).trans ((revision_finalized _ _ _).trans revised)

/-- What holds of a database in a run from an opened one: the root has the layers it had, with
a Merkle root of them if any, and every accepted block is on record. -/
structure OnRecord (env : Env) (opened : Database) (history : List (Nat × Block))
    (db : Database) : Prop where
  base : db.heap.layers 0 = opened.heap.layers 0
  baseRoot : db.heap.HonestAt env.crypto.hash 0
  records : ∀ node block, (node, block) ∈ history → Recorded env db.heap node block

/-- What is on record stays so where nothing moves. -/
theorem OnRecord.unmoved (onRecord : OnRecord env opened history db) (nonempty : 0 < db.heap.size)
    (unmoved : Unmoved env db after) :
    OnRecord env opened history after :=
  ⟨(unmoved.honest.layered.layers 0 nonempty nonempty).trans onRecord.base,
    onRecord.baseRoot.kept unmoved.honest nonempty nonempty,
    fun node block mem => (onRecord.records node block mem).unmoved unmoved⟩

/-- An accepted block comes on record. -/
theorem OnRecord.accept (onRecord : OnRecord env opened history db) (tracked : Tracked history db 0)
    (gave : (processBlock env block now).Returns db (.ok receipt) after) :
    OnRecord env opened (history ++ [(db.heap.size, block)]) after := by
  obtain ⟨_, _, _, acceptance⟩ := tracked.acceptance gave
  have carried := acceptance.carried
  obtain ⟨parent, applied, content, accepted⟩ := accepted_outcome tracked gave
  have nonempty := tracked.rooted.inside
  refine ⟨(accepted.honest.layered.layers 0 nonempty nonempty).trans onRecord.base,
    onRecord.baseRoot.kept accepted.honest nonempty nonempty, ?_⟩
  intro node other mem
  rcases List.mem_append.mp mem with old | new
  · have recorded := onRecord.records node other old
    exact recorded.kept carried.size (carried.parents node recorded.inside)
      (fun index inside => accepted.honest.layered.layers index inside inside)
        (carried.roots node recorded.inside)
  · obtain ⟨rfl, rfl⟩ := Prod.mk.inj (List.mem_singleton.mp new)
    refine ⟨accepted.size, ⟨parent, applied, accepted.points, ?_⟩, fun top isTop => ?_⟩
    · have older := lt_size_of_final accepted.extends_.final
      rw [accepted.honest.layered.layers parent older older]
      exact accepted.yields
    · obtain rfl := Option.some.inj (accepted.top.symm.trans isTop)
      exact accepted.root

/-- An opened database has cached no Merkle root of its root. -/
theorem cachedRoot_of_openIndex {writes : List (Bytes × Bytes)}
    (gave : (openIndex (writeAll writes)).Returns empty () db) :
    db.heap.cachedRoot 0 = none := by
  have keeps : (writeAll writes 0).Keeps Heap.SameRoots := by
    clear gave
    induction writes with
    | nil => exact keeps_pure _
    | cons write rest ih =>
      have puts : (put 0 write.1 write.2).Keeps (Heap.Confined (fun _ => True) 0) :=
        put_confined write.2 trivial
      exact keeps_bind
        (puts.mono fun _ _ kept => shelters_sameRoots.confined kept (Nat.le_refl 0)) fun _ =>
          ih
  have initKeeps : (runInit (writeAll writes) 0).Keeps Heap.SameRoots :=
    keeps_bind keeps_read fun _ => keeps_bind (keeps_ofExcept _) fun _ =>
      keeps_ite keeps (keeps_pure _)
  simp only [Database.openIndex, Database.onHeap, returns_bind, returns_read,
    returns_within, returns_modify] at gave
  obtain ⟨_, _, ⟨rfl, rfl⟩, _, _, ⟨created, rfl, rfl⟩, _, _, ⟨initial, wrote, rfl⟩, _, _,
    ⟨finalized, finalReturned, rfl⟩, _, indexed, inserted, rfl⟩ := gave
  obtain ⟨sameHeap, -⟩ := heap_of_insert inserted
  obtain ⟨delta, found, rfl⟩ := returns_finalize.mp finalReturned
  have writesSame := initKeeps.of_returns wrote
  have finalSame : Heap.SameRoots initial
      (initial.update 0 fun delta => { delta with final := true }) :=
    sameRoots_update initial 0 fun _ => rfl
  have nonempty : 0 < initial.size := Nat.lt_of_lt_of_le (by decide) writesSame.size
  change indexed.heap.cachedRoot 0 = none
  rw [sameHeap]
  exact (finalSame.roots 0 nonempty).trans (writesSame.roots 0 (by decide))

/-- Every run is on record from the database that was opened. -/
theorem ProcessRun.onRecord (run : ProcessRun env entries history db) :
    ∃ opened, (openController env entries false).Returns empty () opened ∧
      OnRecord env opened history db := by
  refine run.invariant (fun history db => ∃ opened, (openController env entries
    false).Returns empty () opened ∧ OnRecord env opened history db) ?_ ?_ ?_
  · intro db gave
    refine ⟨db, gave, rfl, fun root cached => ?_, fun _ _ mem => absurd mem List.not_mem_nil⟩
    rw [cachedRoot_of_openIndex (openIndex_of_openController gave)] at cached
    cases cached
  · rintro history before after earlier unmoved ⟨start, opens, onRecord⟩
    exact ⟨start, opens, onRecord.unmoved earlier.chained.tracked.rooted.inside unmoved⟩
  · rintro history before after block now receipt earlier gave ⟨start, opens, onRecord⟩
    exact ⟨start, opens, onRecord.accept earlier.chained.tracked gave⟩

/-- The index after an accepted block has its node at the end. -/
theorem Acceptance.index (acceptance : Acceptance env block now db after parent checked context) :
    after.index = db.index ++ [db.heap.size] := by
  obtain ⟨own, -, -, checkSettled⟩ := acceptance.child
  obtain ⟨head, forkHeads, -, settled⟩ := acceptance.finalized
  exact (settled 0).index.trans checkSettled.index

/-- An accepted block adds its node to the index, under its id. -/
theorem Acceptance.indexes (acceptance : Acceptance env block now db after parent checked context)
    (chained : Chained env history db root) : Indexes db after := by
  exact .inr ⟨block.id, acceptance.extends_.unknown, acceptance.index,
    (acceptance.link chained).named⟩

/-- Ids in an index stay distinct. -/
theorem Indexes.nodup (indexes : Indexes db after)
    (carried : Carried db.heap.size db after)
    (inside : ∀ node ∈ db.index, node < db.heap.size)
    (distinct : (db.index.map db.heap.id).Nodup) :
    (after.index.map after.heap.id).Nodup := by
  have same : db.index.map after.heap.id = db.index.map db.heap.id :=
    List.map_congr_left fun node mem => carried.ids node (inside node mem)
  rcases indexes with unchanged | ⟨id, free, added, named⟩
  · rwa [unchanged, same]
  · rw [added, List.map_append, same, List.map_singleton, named]
    refine List.nodup_append.mpr ⟨distinct, List.nodup_singleton _, ?_⟩
    rintro _ isOld _ isNew rfl
    obtain ⟨other, mem, isId⟩ := List.mem_map.mp isOld
    have found := findAmong_isSome mem (isId.trans (List.mem_singleton.mp isNew)) free
    cases found

/-- In a run ids are distinct. -/
theorem ProcessRun.distinct (run : ProcessRun env entries history db) :
    (db.index.map db.heap.id).Nodup := by
  refine run.invariant (fun _ db => (db.index.map db.heap.id).Nodup) ?_ ?_ ?_
  · intro db gave
    obtain ⟨-, onlyRoot, -, -⟩ := tracked_of_openController gave
    rw [onlyRoot]
    exact List.nodup_singleton _
  · intro history before after earlier unmoved distinct
    exact unmoved.indexes.nodup unmoved.carried earlier.chained.tracked.inside distinct
  · intro history before after block now receipt earlier gave distinct
    obtain ⟨parent, checked, context, acceptance⟩ := earlier.chained.tracked.acceptance gave
    exact (acceptance.indexes earlier.chained).nodup acceptance.carried
      earlier.chained.tracked.inside distinct

/-- A node of the index is found under its id. -/
theorem ProcessRun.find_of_mem (run : ProcessRun env entries history db)
    {id : StateNodeId} (mem : node ∈ db.index) (named : db.heap.id node = .ok id) :
    db.find id = .ok (some node) := by
  have tracked := run.chained.tracked
  exact findAmong_of_mem run.distinct
    (fun other mem => id_of_backed tracked.rooted.backed (tracked.inside other mem))
    mem named

/-- A block that was applied and accepted makes no other one irreversible. -/
theorem ProcessRun.reversible (run : ProcessRun env entries history db) {mid : Database}
    (backs : db.heap.backend parent = .ok own)
    (settled : Database.Settled db.heap.size (withChild db parent own block.id) mid)
    (accepts : (acceptBlock env block db.heap.size applied).Returns mid receipt after) :
    ¬ 0 < irreversibleBlock (own.revision + 1) := by
  have tracked := run.chained.tracked
  rw [← makesIrreversible_iff tracked.rooted.isRoot run.chained.rootRevised
    (revision_of_backend backs)]
  exact reversible_of_accepted tracked backs settled accepts

end Respublica.Controller
