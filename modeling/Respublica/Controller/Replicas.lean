import Respublica.Controller.AccountNonce
import Respublica.Controller.NextBlock

/-!
# Replicas

Two controllers that were opened with the same initial objects may be given different blocks in
different orders, at different times, with transactions on their own in between; they may
refuse blocks and hold different forks. For a block that both have accepted they hold the same
layers all the same: what a block leaves is a function of what its predecessor left.
-/

namespace Respublica.Controller

open Foundation Effect Crypto Program Protocol StateDb Heap Context

variable {env : Env} {entries : List GenesisEntry} {history : List (Nat × Block)}
  {db after : Database} {root node : Nat} {block : Block} {now : Int}

/-- Among the blocks of two histories an id stands for one block. -/
def SameIds (history otherHistory : List (Nat × Block)) : Prop :=
  ∀ entry ∈ history, ∀ other ∈ otherHistory, entry.2.id = other.2.id → entry.2 = other.2

/-- A routine answers alike in new contexts for nodes with the same layers. -/
theorem inContext_of_same_layers {Value : Type} {routine : Run Value} {other mid : Database}
    {otherNode : Nat} {intent : Intent} {value : Value}
    (parallel : Context.Parallel Context.Mirrored routine)
    (same : db.heap.layers node = other.heap.layers otherNode)
    (gave : (inContext node intent routine).Returns db value mid) :
    ∃ otherReached, (inContext otherNode intent routine).Returns other value otherReached := by
  obtain ⟨context, ran, -⟩ := returns_within.mp gave
  have mirrored : Context.Mirrored (Context.create db.heap node intent)
      (Context.create other.heap otherNode intent) := ⟨_, _, intent, same, Iff.rfl, rfl⟩
  obtain ⟨otherContext, otherRan, -⟩ := parallel _ _ _ _ mirrored ran
  exact ⟨_, returns_within.mpr ⟨otherContext, otherRan, rfl⟩⟩

/-- New children of nodes with the same layers have the same layers. -/
theorem layers_of_children {heap otherHeap : Heap} {otherNode : Nat} {own otherOwn : Backend}
    {childId : StateNodeId} (backs : heap.backend node = .ok own)
    (otherBackend : otherHeap.backend otherNode = .ok otherOwn)
    (below : heap.layers node = otherHeap.layers otherNode) :
    Heap.layers (heap.push (some node) (childOf own childId)) heap.size =
      Heap.layers (otherHeap.push (some otherNode) (childOf otherOwn childId))
        otherHeap.size := by
  rw [layers_push_child (lt_size_of_backend backs),
    layers_push_child (lt_size_of_backend otherBackend), below]
  rfl

/-- A transaction on its own is applied alike. -/
theorem applyAlone_mirrored (localsAgree : Context.LocalsAgreeOn Context.Mirrored env)
    (tx : Transaction) :
    Context.Parallel Context.Mirrored (applyAlone env tx) :=
  simulates_bind (mirrored_conceals.modify fun _ _ _ _ => rfl) fun _ =>
    applyTransaction_mirrored localsAgree tx

section Heads

variable {other : Database} {otherNode : Nat} (isHead : db.head = some node)
  (otherHead : other.head = some otherNode)
  (same : db.heap.layers node = other.heap.layers otherNode)

include isHead otherHead same

/-- What is read on heads with the same layers is the same. -/
theorem read_of_same_layers {Value : Type} {routine : Run Value} {value : Value}
    (parallel : Context.Parallel Context.Mirrored routine)
    (gave : (do
      let db ← Effect.read
      let head ← Effect.expect Fault.nullDereference db.head
      inContext head .readOnly routine : Effect Fault Database Value).Returns db value after) :
    ∃ otherAfter, (do
      let db ← Effect.read
      let head ← Effect.expect Fault.nullDereference db.head
      inContext head .readOnly routine : Effect Fault Database Value).Returns other value
        otherAfter := by
  simp only [returns_bind, returns_read, returns_expect] at gave ⊢
  obtain ⟨_, _, ⟨rfl, rfl⟩, _, _, ⟨isHeadAgain, rfl⟩, ran⟩ := gave
  obtain rfl := Option.some.inj (isHead.symm.trans isHeadAgain)
  obtain ⟨otherAfter, otherRan⟩ := inContext_of_same_layers parallel same ran
  exact ⟨otherAfter, other, other, ⟨rfl, rfl⟩, otherNode, other, ⟨otherHead, rfl⟩, otherRan⟩

/-- Transactions on their own are answered alike on heads with the same layers. -/
theorem processTransaction_of_same_layers {tx : Transaction} {own : Backend}
    {result : Result TransactionReceipt}
    (localsAgree : Context.LocalsAgreeOn Context.Mirrored env)
    (backs : db.heap.backend node = .ok own)
    (gave : (processTransaction env tx).Returns db result after) :
    ∃ otherAfter, (processTransaction env tx).Returns other result otherAfter := by
  rcases processTransaction_cases env tx with ⟨error, refuses⟩ | applies
  · obtain ⟨rfl, -⟩ := gave.unique (refuses db)
    exact ⟨other, refuses other⟩
  · obtain ⟨otherOwn, otherBackend, -⟩ := backend_of_layers_eq same backs
    rw [Effect.Returns, applies isHead backs] at gave
    refine (inContext_of_same_layers (applyAlone_mirrored localsAgree tx) ?_ gave).imp
      fun _ otherRan => (applies otherHead otherBackend).trans otherRan
    exact layers_of_children backs otherBackend same

end Heads

section Two

variable {otherHistory : List (Nat × Block)} {other : Database} {otherNode : Nat} {id : StateNodeId}
  (localsAgree : Context.LocalsAgreeOn Context.Mirrored env)
  (run : ProcessRun env entries history db)
  (otherRun : ProcessRun env entries otherHistory other)
  (identified : SameIds history otherHistory)

include run otherRun identified

/-- Final nodes with the same id are the roots, or they were made for the same block. -/
theorem standing_of_same_id (finalNode : FinalNode db node id)
    (otherFinalNode : FinalNode other otherNode id) :
    (node = 0 ∧ otherNode = 0) ∨
      ∃ block, (node, block) ∈ history ∧ (otherNode, block) ∈ otherHistory := by
  rcases run.chained.standing finalNode with ⟨rfl, isNull⟩ | ⟨notNull, block, accepted, named⟩
  · rcases otherRun.chained.standing otherFinalNode with ⟨rfl, -⟩ | ⟨notNull, -⟩
    · exact .inl ⟨rfl, rfl⟩
    · exact absurd isNull notNull
  · rcases otherRun.chained.standing otherFinalNode with
      ⟨-, isNull⟩ | ⟨-, otherBlock, otherAccepted, otherNamed⟩
    · exact absurd isNull notNull
    · obtain rfl : block = otherBlock :=
        identified _ accepted _ otherAccepted (named.trans otherNamed.symm)
      exact .inr ⟨block, accepted, otherAccepted⟩

/-- Final nodes with the same id have the same revision. -/
theorem revision_of_same_id (finalNode : FinalNode db node id)
    (otherFinalNode : FinalNode other otherNode id) :
    db.heap.revision node = other.heap.revision otherNode := by
  rcases standing_of_same_id run otherRun identified finalNode otherFinalNode with
    ⟨rfl, rfl⟩ | ⟨block, accepted, otherAccepted⟩
  · rw [run.chained.rootRevised, otherRun.chained.rootRevised]
  · rw [(run.chained.links node block accepted).revised,
      (otherRun.chained.links otherNode block otherAccepted).revised]

/-- Final nodes with the same id have predecessors with the same id. -/
theorem parentId_of_same_id (finalNode : FinalNode db node id)
    (otherFinalNode : FinalNode other otherNode id) :
    db.heap.parentId node = other.heap.parentId otherNode := by
  rcases standing_of_same_id run otherRun identified finalNode otherFinalNode with
    ⟨rfl, rfl⟩ | ⟨block, accepted, otherAccepted⟩
  · have rooted := run.chained.tracked.rooted
    have otherRooted := otherRun.chained.tracked.rooted
    rw [Heap.parentId, Heap.parentId, (rooted.top 0 rooted.inside).mpr rfl,
      (otherRooted.top 0 otherRooted.inside).mpr rfl]
  · obtain ⟨_, -, points, -, isPrevious, -⟩ := (run.chained.links node block accepted).parent
    obtain ⟨_, -, otherPoints, -, isOtherPrevious, -⟩ :=
      (otherRun.chained.links otherNode block otherAccepted).parent
    rw [Heap.parentId, Heap.parentId, points, otherPoints]
    exact isPrevious.trans isOtherPrevious.symm

omit identified in
/-- Final nodes with the same layers have cached the same Merkle root, apart from the root. -/
theorem roots_of_same_id (finalNode : FinalNode db node id)
    (otherFinalNode : FinalNode other otherNode id)
    (same : db.heap.layers node = other.heap.layers otherNode) :
    ∃ stateRoot, (id ≠ nullId → db.heap.cachedRoot node = some stateRoot) ∧
      (id ≠ nullId → other.heap.cachedRoot otherNode = some stateRoot) := by
  by_cases isNull : id = nullId
  · exact ⟨SizedBytes.zero 32, absurd isNull, absurd isNull⟩
  obtain ⟨content, top, cached⟩ := run.cachedRoot finalNode isNull
  obtain ⟨otherContent, otherTop, otherCached⟩ := otherRun.cachedRoot otherFinalNode isNull
  rw [same, otherTop] at top
  obtain rfl := Option.some.inj top
  exact ⟨_, fun _ => cached, fun _ => otherCached⟩

include localsAgree

/-- Final nodes with the same id have the same layers. -/
theorem layers_of_same_id (finalNode : FinalNode db node id)
    (otherFinalNode : FinalNode other otherNode id) :
    db.heap.layers node = other.heap.layers otherNode := by
  obtain ⟨opened, opens, onRecord⟩ := run.onRecord
  obtain ⟨_, opensAgain, otherOnRecord⟩ := otherRun.onRecord
  obtain ⟨-, rfl⟩ := opens.unique opensAgain
  induction node using Nat.strong_induction_on generalizing otherNode id with
  | _ node ih =>
    rcases standing_of_same_id run otherRun identified finalNode otherFinalNode with
      ⟨rfl, rfl⟩ | ⟨block, accepted, otherAccepted⟩
    · rw [onRecord.base, otherOnRecord.base]
    · obtain ⟨parent, receipt, points, yields⟩ := (onRecord.records node block accepted).derived
      obtain ⟨otherParent, otherReceipt, otherPoints, otherYields⟩ :=
        (otherOnRecord.records otherNode block otherAccepted).derived
      -- The predecessors are final nodes with the id that the block names.
      obtain ⟨_, indexed, isParent, isFinal, parentNamed, -⟩ :=
        (run.chained.links node block accepted).parent
      obtain rfl := Option.some.inj (points.symm.trans isParent)
      obtain ⟨_, otherIndexed, isOtherParent, isOtherFinal, otherParentNamed, -⟩ :=
        (otherRun.chained.links otherNode block otherAccepted).parent
      obtain rfl := Option.some.inj (otherPoints.symm.trans isOtherParent)
      have below := ih parent (Forest.parent?_lt points) ⟨indexed, isFinal, parentNamed⟩
        ⟨otherIndexed, isOtherFinal, otherParentNamed⟩
      rw [below] at yields
      exact (yields.unique localsAgree otherYields).1

/-- For a block that both accept, at whatever times, they give the same receipt. -/
theorem receipts_of_same_block {otherNow : Int} {receipt otherReceipt : BlockReceipt}
    {otherAfter : Database}
    (gave : (processBlock env block now).Returns db (.ok receipt) after)
    (otherReturned : (processBlock env block otherNow).Returns other (.ok otherReceipt)
      otherAfter) : receipt = otherReceipt := by
  obtain ⟨parent, applied, content, accepted⟩ := accepted_outcome run.chained.tracked gave
  obtain ⟨otherParent, otherApplied, otherContent, otherAccepted⟩ :=
    accepted_outcome otherRun.chained.tracked otherReturned
  have below := layers_of_same_id localsAgree run otherRun identified accepted.extends_.finalNode
    otherAccepted.extends_.finalNode
  have yields := accepted.yields
  rw [below] at yields
  obtain ⟨above, rfl⟩ := yields.unique localsAgree otherAccepted.yields
  have top := accepted.top
  rw [above, otherAccepted.top] at top
  rw [accepted.receipt, otherAccepted.receipt, Option.some.inj top]

section Block

variable {parent otherParent : Nat} {own otherOwn : Backend} {mid otherMid : Database}
  (extends_ : Extends block db parent) (otherExtends : Extends block other otherParent)
  (backs : db.heap.backend parent = .ok own)
  (otherBackend : other.heap.backend otherParent = .ok otherOwn)

include extends_ otherExtends backs otherBackend

/-- The checks of a block that extends a node of each come out alike. -/
theorem checks_of_same_block (now : Int) :
    ∃ decided, (checkBlock env block parent now).Returns (withChild db parent own block.id)
        decided (withChild db parent own block.id) ∧
      (checkBlock env block otherParent now).Returns
        (withChild other otherParent otherOwn block.id) decided
        (withChild other otherParent otherOwn block.id) := by
  have below := layers_of_same_id localsAgree run otherRun identified extends_.finalNode
    otherExtends.finalNode
  have sameRevision := revision_of_same_id run otherRun identified extends_.finalNode
    otherExtends.finalNode
  obtain ⟨stateRoot, cached, otherCached⟩ := roots_of_same_id run otherRun extends_.finalNode
    otherExtends.finalNode below
  have revised := revision_of_backend backs
  exact ⟨_, run.checks now extends_ backs revised cached,
    otherRun.checks now otherExtends otherBackend (sameRevision.symm.trans revised) otherCached⟩

/-- It is applied alike on the two new nodes. -/
theorem applies_of_same_block {applied : Result BlockReceipt}
    (applies : (inContext db.heap.size .blockApplication (applyBlock env block)).Returns
      (withChild db parent own block.id) applied mid) :
    ∃ otherMid, (inContext other.heap.size .blockApplication (applyBlock env block)).Returns
      (withChild other otherParent otherOwn block.id) applied otherMid :=
  inContext_of_same_layers (applyBlock_mirrored localsAgree block)
    (layers_of_children backs otherBackend (layers_of_same_id localsAgree run otherRun
      identified extends_.finalNode otherExtends.finalNode)) applies

omit localsAgree in
/-- Accepting an applied block returns for both or for none, since whether the block makes another
irreversible is settled by its height. -/
theorem accepts_of_same_block {applied receipt : BlockReceipt}
    (applies : (inContext db.heap.size .blockApplication (applyBlock env block)).Returns
      (withChild db parent own block.id) (.ok applied) mid)
    (otherApplies : (inContext other.heap.size .blockApplication (applyBlock env block)).Returns
      (withChild other otherParent otherOwn block.id) (.ok applied) otherMid)
    (accepts : (acceptBlock env block db.heap.size applied).Returns mid receipt after) :
    ∃ otherReceipt otherAfter, (acceptBlock env block other.heap.size applied).Returns otherMid
      otherReceipt otherAfter := by
  have applying (node : Nat) : (inContext node .blockApplication
      (applyBlock env block)).Keeps (Database.Settled node) :=
    inContext_settled (applyBlock_beyond shelters_settled block) (Nat.le_refl _)
  have notLater := run.reversible backs ((applying _).of_returns applies) accepts
  have sameRevision := revision_of_same_id run otherRun identified extends_.finalNode
    otherExtends.finalNode
  have reversible : ¬ MakesIrreversible other otherParent := fun makes =>
    notLater ((makesIrreversible_iff otherRun.chained.tracked.rooted.isRoot
      otherRun.chained.rootRevised (sameRevision.symm.trans (revision_of_backend backs))).mp
      makes)
  exact acceptBlock_of_reversible env otherRun.chained.tracked otherBackend reversible
    ((applying _).of_returns otherApplies) applied

end Block

/-- What one of them returns for a block that both can extend a node with, at a time, the other
returns too. -/
theorem answer_of_same_block {parent otherParent : Nat} {result : Result BlockReceipt}
    (extends_ : Extends block db parent) (otherExtends : Extends block other otherParent)
    (gave : (processBlock env block now).Returns db result after) :
    ∃ otherAfter, (processBlock env block now).Returns other result otherAfter := by
  have tracked := run.chained.tracked
  have otherTracked := otherRun.chained.tracked
  by_cases valid : block.validate env.crypto = true
  case neg =>
    rw [processBlock, if_pos valid] at gave
    obtain ⟨rfl, -⟩ := returns_pure.mp gave
    refine ⟨other, ?_⟩
    rw [processBlock, if_pos valid]
    exact returns_pure.mpr ⟨rfl, rfl⟩
  obtain ⟨-, own, -, -, backs⟩ :=
    backend_of_backed tracked.rooted.backed (lt_size_of_final extends_.final)
  obtain ⟨-, otherOwn, -, -, otherBackend⟩ :=
    backend_of_backed otherTracked.rooted.backed (lt_size_of_final otherExtends.final)
  have processed (answer : Result BlockReceipt) (otherAfter : Database)
      (evaluates : (evaluateBlock env block otherParent other.heap.size now).Returns
        (withChild other otherParent otherOwn block.id) answer otherAfter) :
      (processBlock env block now).Returns other answer otherAfter :=
    (processBlock_iff_evaluated otherTracked valid otherExtends otherBackend).mpr evaluates
  obtain ⟨decided, checks, otherChecks⟩ := checks_of_same_block localsAgree run otherRun
    identified extends_ otherExtends backs otherBackend now
  obtain ⟨_, _, checksAgain, rest⟩ := returns_bind.mp
    ((processBlock_iff_evaluated tracked valid extends_ backs).mp gave)
  obtain ⟨rfl, rfl⟩ := checks.unique checksAgain
  cases decided with
  | error error =>
    obtain ⟨rfl, -⟩ := returns_pure.mp rest
    exact ⟨_, processed _ _ (returns_bind.mpr ⟨_, _, otherChecks, returns_pure.mpr ⟨rfl, rfl⟩⟩)⟩
  | ok passed =>
    obtain ⟨applied, mid, applies, rest⟩ := returns_bind.mp rest
    obtain ⟨otherMid, otherApplies⟩ := applies_of_same_block localsAgree run otherRun identified
      extends_ otherExtends backs otherBackend applies
    cases applied with
    | error error =>
      obtain ⟨rfl, -⟩ := returns_pure.mp rest
      exact ⟨_, processed _ _ (returns_bind.mpr ⟨_, _, otherChecks,
        returns_bind.mpr ⟨_, _, otherApplies, returns_pure.mpr ⟨rfl, rfl⟩⟩⟩)⟩
    | ok applied =>
      obtain ⟨receipt, _, accepts, ended⟩ := returns_bind.mp rest
      obtain ⟨rfl, rfl⟩ := returns_pure.mp ended
      obtain ⟨otherReceipt, otherAfter, otherAccepts⟩ := accepts_of_same_block run otherRun
        identified extends_ otherExtends backs otherBackend applies otherApplies accepts
      have otherReturned := processed (.ok otherReceipt) otherAfter (returns_bind.mpr
        ⟨_, _, otherChecks, returns_bind.mpr ⟨_, _, otherApplies,
          returns_bind.mpr ⟨_, _, otherAccepts, returns_pure.mpr ⟨rfl, rfl⟩⟩⟩⟩)
      obtain rfl := receipts_of_same_block localsAgree run otherRun identified gave
        otherReturned
      exact ⟨otherAfter, otherReturned⟩

/-- Heads with the same id are reported alike. -/
theorem head_of_same_id {info : HeadInfo} (isHead : db.head = some node)
    (otherHead : other.head = some otherNode) (finalNode : FinalNode db node id)
    (otherFinalNode : FinalNode other otherNode id)
    (gave : (head env).Returns db info after) :
    ∃ otherAfter, (head env).Returns other info otherAfter := by
  obtain ⟨_, isHeadAgain, informs⟩ := returns_head.mp gave
  obtain rfl := Option.some.inj (isHead.symm.trans isHeadAgain)
  obtain ⟨named, revised, isPrevious, noBlock, noTime, asks⟩ := returns_headInfo.mp informs
  obtain ⟨content, _, top, answers⟩ := run.merkleRoot finalNode
  obtain ⟨otherContent, otherAfter, otherTop, otherAnswers⟩ := otherRun.merkleRoot otherFinalNode
  have same := layers_of_same_id localsAgree run otherRun identified finalNode otherFinalNode
  rw [same, otherTop] at top
  obtain rfl := Option.some.inj top
  obtain ⟨isRoot, -⟩ := asks.unique answers
  refine ⟨otherAfter, returns_head.mpr ⟨otherNode, otherHead, returns_headInfo.mpr
    ⟨?_, ?_, ?_, noBlock, noTime, isRoot ▸ otherAnswers⟩⟩⟩
  · rw [← named, finalNode.named, otherFinalNode.named]
  · rw [← revised, revision_of_same_id run otherRun identified finalNode otherFinalNode]
  · rw [← isPrevious, parentId_of_same_id run otherRun identified finalNode otherFinalNode]

end Two

section Agreement

variable {otherHistory : List (Nat × Block)} {other : Database}

/-- Two runs from the same initial objects, whatever blocks and transactions each was given and
in whatever order and at whatever times, show the same objects and the same Merkle root for every
block that both have accepted. -/
theorem replicas_agree_on_state (localsAgree : Context.LocalsAgreeOn Context.Mirrored env)
    (run : ProcessRun env entries history db)
    (otherRun : ProcessRun env entries otherHistory other)
    (identified : SameIds history otherHistory) :
    ∀ node otherNode block, (node, block) ∈ history → (otherNode, block) ∈ otherHistory →
      (∀ key, db.heap.get node key = other.heap.get otherNode key) ∧
      ∃ stateRoot mid otherReached,
        (PermanentNode.merkleRoot env.crypto.hash node).Returns db stateRoot
          mid ∧
        (PermanentNode.merkleRoot env.crypto.hash otherNode).Returns other stateRoot
          otherReached := by
  intro node otherNode block accepted otherAccepted
  have placed := run.chained.tracked.placed node block accepted
  have otherPlaced := otherRun.chained.tracked.placed otherNode block otherAccepted
  have finalNode : FinalNode db node block.id := ⟨placed.indexed, placed.final, placed.named⟩
  have otherFinalNode : FinalNode other otherNode block.id :=
    ⟨otherPlaced.indexed, otherPlaced.final, otherPlaced.named⟩
  have same := layers_of_same_id localsAgree run otherRun identified finalNode otherFinalNode
  obtain ⟨content, mid, top, answers⟩ := run.merkleRoot finalNode
  obtain ⟨otherContent, otherReached, otherTop, otherAnswers⟩ := otherRun.merkleRoot otherFinalNode
  rw [same, otherTop] at top
  obtain rfl := Option.some.inj top
  exact ⟨fun key => get_of_layers_eq same key, _, mid, otherReached, answers, otherAnswers⟩

/-- Two such runs decide alike: on a block that extends a node of each they come to the same
answer at the same time, be it a receipt or an error, and whenever both accept a block, at
whatever times, they give the same receipt. -/
theorem replicas_decide_alike (localsAgree : Context.LocalsAgreeOn Context.Mirrored env)
    (run : ProcessRun env entries history db)
    (otherRun : ProcessRun env entries otherHistory other)
    (identified : SameIds history otherHistory) (block : Block) :
    (∀ now parent otherParent result after, Extends block db parent →
      Extends block other otherParent →
      (processBlock env block now).Returns db result after →
        ∃ otherAfter, (processBlock env block now).Returns other result otherAfter) ∧
    ∀ now otherNow receipt otherReceipt after otherAfter,
      (processBlock env block now).Returns db (.ok receipt) after →
      (processBlock env block otherNow).Returns other (.ok otherReceipt) otherAfter →
        receipt = otherReceipt := by
  constructor
  · intro now parent otherParent result after extends_ otherExtends gave
    exact answer_of_same_block localsAgree run otherRun identified extends_ otherExtends gave
  · intro now otherNow receipt otherReceipt after otherAfter gave otherReturned
    exact receipts_of_same_block localsAgree run otherRun identified gave otherReturned

/-- Two such runs whose heads have the same id cannot be told apart by asking: they report the
same head and the same nonces, programs read alike, and transactions on their own are answered
alike. -/
theorem replicas_answer_alike (localsAgree : Context.LocalsAgreeOn Context.Mirrored env)
    (run : ProcessRun env entries history db)
    (otherRun : ProcessRun env entries otherHistory other)
    (identified : SameIds history otherHistory) {node otherNode : Nat}
    (isHead : db.head = some node) (otherHead : other.head = some otherNode)
    (sameId : db.heap.id node = other.heap.id otherNode) :
    (∀ info after, (head env).Returns db info after →
      ∃ otherAfter, (head env).Returns other info otherAfter) ∧
    (∀ account nonce after, (accountNonce account).Returns db nonce after →
      ∃ otherAfter, (accountNonce account).Returns other nonce otherAfter) ∧
    (∀ limit account input result after,
      (readProgram env limit account input).Returns db result after →
        ∃ otherAfter, (readProgram env limit account input).Returns other result otherAfter) ∧
    ∀ tx result after,
      (processTransaction env tx).Returns db result after →
        ∃ otherAfter, (processTransaction env tx).Returns other result otherAfter := by
  obtain ⟨id, finalNode⟩ := run.head_final isHead
  obtain ⟨otherId, otherFinal⟩ := otherRun.head_final otherHead
  have otherFinalNode : FinalNode other otherNode id :=
    ⟨otherFinal.indexed, otherFinal.final, sameId.symm.trans finalNode.named⟩
  have same := layers_of_same_id localsAgree run otherRun identified finalNode otherFinalNode
  refine ⟨fun info after gave => ?_, fun account nonce after gave => ?_,
    fun limit account input result after gave => ?_, fun tx result after gave => ?_⟩
  · exact head_of_same_id localsAgree run otherRun identified isHead otherHead finalNode
      otherFinalNode gave
  · exact read_of_same_layers isHead otherHead same (mirrored_conceals.accountNonce account)
      gave
  · refine read_of_same_layers isHead otherHead same (simulates_bind
      (mirrored_conceals.modify fun _ _ _ _ => rfl) fun _ => ?_) gave
    exact mirrored_conceals.runProgramAt localsAgree _ _ _ _ _
  · obtain ⟨-, own, -, -, backs⟩ := backend_of_backed run.chained.tracked.rooted.backed
      (lt_size_of_final finalNode.final)
    exact processTransaction_of_same_layers isHead otherHead same localsAgree backs gave

end Agreement

/-- A replica that was given a transaction on its own before the first block. -/
def afterDetour : Database :=
  (processBlock .plain sampleFirst 0
    (processTransaction .plain (sampleTransaction (networkId .plain) 1 []) sampleGenesis).2).2

/-- There the first block has another node. -/
theorem run_afterDetour : ProcessRun .plain sampleEntries [(3, sampleFirst)] afterDetour := by
  have detour := run_sampleGenesis.transaction (sampleTransaction (networkId .plain) 1 [])
  obtain ⟨receipt, gave, -⟩ := returns_ok_of_map_fst
    (show (processBlock .plain sampleFirst 0 (processTransaction .plain
      (sampleTransaction (networkId .plain) 1 []) sampleGenesis).2).1.map
        (Except.map BlockReceipt.height) = .ok (.ok 1) by decide +kernel)
  have accepted := detour.accepted gave
  have size : (processTransaction .plain (sampleTransaction (networkId .plain) 1 [])
      sampleGenesis).2.heap.size = 3 := by decide +kernel
  rw [size] at accepted
  exact accepted

theorem sameIds_detour : SameIds [(1, sampleFirst)] [(3, sampleFirst)] := by
  intro entry mem other otherMember _
  obtain rfl := List.mem_singleton.mp mem
  obtain rfl := List.mem_singleton.mp otherMember
  rfl

/-- The two replicas agree on what the first block has left. -/
theorem replicas_agree_on_state_detour :
    (∀ key, afterFirst.heap.get 1 key = afterDetour.heap.get 3 key) ∧
      ∃ stateRoot mid otherReached,
        (PermanentNode.merkleRoot Env.plain.crypto.hash 1).Returns afterFirst stateRoot
          mid ∧
        (PermanentNode.merkleRoot Env.plain.crypto.hash 3).Returns afterDetour stateRoot
          otherReached := by
  exact replicas_agree_on_state (fun _ _ _ => rfl) run_afterFirst run_afterDetour sameIds_detour 1 3
    sampleFirst (List.mem_singleton.mpr rfl) (List.mem_singleton.mpr rfl)

/-- The second block is decided alike on both. -/
theorem replicas_decide_alike_detour :
    ∃ otherAfter receipt,
      (processBlock .plain (secondBlock 3000) 0).Returns afterDetour (.ok receipt) otherAfter := by
  obtain ⟨answers, -⟩ := replicas_decide_alike (fun _ _ _ => rfl) run_afterFirst run_afterDetour
    sameIds_detour (secondBlock 3000)
  obtain ⟨receipt, gave, -⟩ := returns_ok_of_map_fst
    (show (processBlock .plain (secondBlock 3000) 0 afterFirst).1.map
      (Except.map BlockReceipt.height) = .ok (.ok 2) by decide +kernel)
  obtain ⟨otherAfter, otherReturned⟩ := answers 0 1 3 _ _
    ⟨by decide +kernel, by decide +kernel, by decide +kernel⟩
    ⟨by decide +kernel, by decide +kernel, by decide +kernel⟩ gave
  exact ⟨otherAfter, receipt, otherReturned⟩

/-- Both report the first block as their head. -/
theorem replicas_answer_alike_detour :
    ∃ otherAfter, (head .plain).Returns afterDetour firstReport otherAfter := by
  obtain ⟨reports, -⟩ := replicas_answer_alike (fun _ _ _ => rfl) run_afterFirst run_afterDetour
    sameIds_detour (show afterFirst.head = some 1 by decide +kernel)
    (show afterDetour.head = some 3 by decide +kernel) (by decide +kernel)
  exact reports _ _ firstReport_reported

end Respublica.Controller
