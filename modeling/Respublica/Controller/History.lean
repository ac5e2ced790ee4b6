import Respublica.Controller.Run

/-!
# The histories of a controller

The runs of a controller from its opening, over arbitrary blocks and transactions, with what
holds in every state on the way: the accepted blocks are the final nodes of the index, each below
the node of its predecessor, and final nodes never change again.

A call that throws is left with the state it has reached and the run goes on. A run ends only with
a block that makes another one irreversible, and no such block returns.
-/

namespace Respublica.Controller

open Foundation Effect Crypto Program Protocol StateDb Forest Database Heap

variable {env : Env} {block : Block} {now : Int}

/-- The initial writes of a controller. -/
def genesisWrites (entries : List GenesisEntry) : List (Bytes × Bytes) :=
  entries.map fun entry => (entry.compoundKey, entry.value)

variable {entries : List GenesisEntry} {root : Nat} {db after : Database}
  {history : List (Nat × Block)} {kept : Heap → Heap → Prop}

/-- Initial objects that were all written are as if written without looking. -/
theorem writeAll_of_writeEntries {before after : Heap} {result : Unit}
    (gave : (writeEntries root entries).Returns before result after) :
    (writeAll (genesisWrites entries) root).Returns before () after := by
  induction entries generalizing before with
  | nil =>
    obtain ⟨-, rfl⟩ := returns_pure.mp gave
    exact returns_pure.mpr ⟨rfl, rfl⟩
  | cons entry rest ih =>
    simp only [writeEntries, returns_bind, returns_read, returns_ofExcept] at gave
    obtain ⟨_, _, ⟨rfl, rfl⟩, existing, _, ⟨-, rfl⟩, stored⟩ := gave
    split at stored
    · exact absurd stored not_returns_fail
    · obtain ⟨size, mid, put, later⟩ := returns_bind.mp stored
      exact returns_bind.mpr ⟨size, mid, put, ih later⟩

/-- Opening a controller opens its database with the initial objects. -/
theorem openIndex_of_openController
    (gave : (openController env entries false).Returns empty () db) :
    (openIndex (writeAll (genesisWrites entries))).Returns empty ()
      db := by
  obtain ⟨_, opened, opens, rest⟩ := returns_bind.mp gave
  obtain ⟨-, rfl⟩ := returns_pure.mp rest
  refine openIndex_congr (fun heap mid wrote => ?_) opens
  obtain ⟨_, written, writes, checks⟩ := returns_bind.mp wrote
  simp only [returns_bind, returns_read, returns_ofExcept] at checks
  obtain ⟨_, _, ⟨rfl, rfl⟩, key, _, ⟨-, rfl⟩, checked⟩ := checks
  split at checked
  · obtain ⟨-, rfl⟩ := returns_pure.mp checked
    exact writeAll_of_writeEntries writes
  · exact absurd checked not_returns_fail

/-- The node of an accepted block, and the node below which it stands. -/
structure Placed (history : List (Nat × Block)) (db : Database) (node : Nat) (block : Block) :
    Prop where
  inside : node < db.heap.size
  indexed : node ∈ db.index
  final : db.heap.final node = true
  named : db.heap.id node = .ok block.id
  parent : ∃ parent, db.heap.parent? node = some parent ∧
    db.heap.id parent = .ok block.previous ∧
    (db.heap.parent? parent = none ∨ ∃ previous, (parent, previous) ∈ history)

/-- A placed node stays placed while the history and the database grow. -/
theorem Placed.mono {longer : List (Nat × Block)} {node : Nat} {block : Block}
    (placed : Placed history db node block) (longerHistory : ∀ entry ∈ history, entry ∈ longer)
    (size : db.heap.size ≤ after.heap.size) (kept : ∀ other ∈ db.index, other ∈ after.index)
    (parents : ∀ other < db.heap.size, after.heap.parent? other = db.heap.parent? other)
    (ids : ∀ other < db.heap.size, after.heap.id other = db.heap.id other)
    (finals : ∀ other < db.heap.size, db.heap.final other = true → after.heap.final other = true) :
    Placed longer after node block := by
  obtain ⟨parent, points, named, above⟩ := placed.parent
  have parentInside := Nat.lt_trans (parent?_lt points) placed.inside
  refine ⟨Nat.lt_of_lt_of_le placed.inside size, kept node placed.indexed,
    finals node placed.inside placed.final, (ids node placed.inside).trans placed.named, parent,
    (parents node placed.inside).trans points, (ids parent parentInside).trans named, ?_⟩
  rw [parents parent parentInside]
  exact above.imp id (Exists.imp fun _ mem => longerHistory _ mem)

/-- What holds of the database of a controller that has accepted the given blocks. -/
structure Tracked (history : List (Nat × Block)) (db : Database) (root : Nat) : Prop where
  rooted : RootedAt db root
  genesis : root ∈ db.index ∧ db.heap.id root = .ok nullId ∧
    db.heap.final root = true
  inside : ∀ node ∈ db.index, node < db.heap.size
  accepted : ∀ node ∈ db.index, db.heap.final node = true →
    db.heap.parent? node = none ∨ ∃ block, (node, block) ∈ history
  placed : ∀ node block, (node, block) ∈ history → Placed history db node block
  ordered : history.Pairwise fun earlier later => earlier.1 < later.1

namespace Tracked

variable {history : List (Nat × Block)} {db after : Database} {root : Nat}

variable {limit parent : Nat} {own : Backend}

section

variable (tracked : Tracked history db root)
include tracked

/-- A settled database with new nodes that are not final is tracked as before. -/
theorem grown (rooted : RootedAt after root)
    (settled : Heap.Settled limit db.heap after.heap) (kept : ∀ node ∈ db.index, node ∈ after.index)
    (fresh : ∀ node ∈ after.index, node ∈ db.index ∨ node < after.heap.size ∧
      after.heap.final node = false) :
    Tracked history after root := by
  obtain ⟨rootIndexed, rootNamed, rootFinal⟩ := tracked.genesis
  refine ⟨rooted, ⟨kept root rootIndexed, ?_, ?_⟩, ?_, ?_, ?_, tracked.ordered⟩
  · rw [settled.id tracked.rooted.inside, rootNamed]
  · rw [settled.final tracked.rooted.inside, rootFinal]
  · intro node mem
    rcases fresh node mem with old | ⟨inside, -⟩
    · exact Nat.lt_of_lt_of_le (tracked.inside node old) settled.size
    · exact inside
  · intro node mem isFinal
    rcases fresh node mem with old | ⟨-, notFinal⟩
    · have inside := tracked.inside node old
      rw [settled.final inside] at isFinal
      rw [settled.parents node inside]
      exact tracked.accepted node old isFinal
    · rw [isFinal] at notFinal
      cases notFinal
  · intro node block mem
    exact (tracked.placed node block mem).mono (fun _ mem => mem) settled.size kept
      settled.parents (fun _ inside => settled.id inside)
      fun _ inside isFinal => (settled.final inside).trans isFinal

/-- Settled work leaves the history tracked. -/
theorem settled (settled : Database.Settled limit db after) :
    Tracked history after root :=
  tracked.grown (tracked.rooted.settled settled) settled.heap
    (fun _ mem => settled.index ▸ mem) fun _ mem => .inl (settled.index ▸ mem)

/-- The new child of a node is tracked, and not final. -/
theorem withChild (backs : db.heap.backend parent = .ok own) (id : StateNodeId) :
    Tracked history (withChild db parent own id) root := by
  have pushed : Heap.Settled 0 db.heap
      (db.heap.push (some parent) (childOf own id)) :=
    settled_makeChild backs id
  have pushedSettled : Database.Settled 0 db { db with
      heap := db.heap.push (some parent) (childOf own id) } :=
    ⟨pushed, rfl, rfl, rfl, rfl⟩
  have pushedRooted := tracked.rooted.settled pushedSettled
  have rooted : RootedAt (Controller.withChild db parent own id) root :=
    ⟨pushedRooted.backed, pushedRooted.isRoot, pushedRooted.inside, pushedRooted.top,
      pushedRooted.head⟩
  refine tracked.grown rooted pushed (fun node mem => List.mem_append_left _ mem) ?_
  intro node mem
  rcases List.mem_append.mp mem with old | new
  · exact .inl old
  · obtain rfl := List.mem_singleton.mp new
    have fresh := node?_withChild db parent own id
    exact .inr ⟨lt_size_of_node? fresh, final_eq fresh⟩

/-- The block that extends a node is not named like the root. -/
theorem id_ne_nullId {block : Block}
    (extends_ : Extends block db parent) : block.id ≠ nullId := by
  intro same
  obtain ⟨rootIndexed, rootNamed, -⟩ := tracked.genesis
  have unknown := extends_.unknown
  rw [same] at unknown
  cases findAmong_isSome rootIndexed rootNamed unknown

/-- A node that is made final is tracked as the node of the next accepted block. -/
theorem finalized {node head : Nat}
    {forkHeads : Finset Nat} {block : Block} (mem : node ∈ db.index)
    (named : db.heap.id node = .ok block.id)
    (above : ∃ parent, db.heap.parent? node = some parent ∧ db.heap.id parent = .ok block.previous ∧
      (db.heap.parent? parent = none ∨ ∃ previous, (parent, previous) ∈ history))
    (later : ∀ entry ∈ history, entry.1 < node)
    (headFinal : final (db.heap.update node fun delta => { delta with final := true })
      head = true) :
    Tracked (history ++ [(node, block)]) { db with
      heap := db.heap.update node fun delta => { delta with final := true }
      head := some head
      forkHeads := forkHeads } root := by
  have inside := tracked.inside node mem
  have sameId (index : Nat) :
      id (db.heap.update node fun delta => { delta with final := true }) index =
        db.heap.id index := by
    rw [Heap.id, Heap.backend_finalized, ← Heap.id]
  obtain ⟨rootIndexed, rootNamed, rootFinal⟩ := tracked.genesis
  refine ⟨tracked.rooted.finalized node headFinal forkHeads, ⟨rootIndexed, ?_, ?_⟩, ?_, ?_, ?_, ?_⟩
  · exact (sameId root).trans rootNamed
  · exact (final_finalized inside root).mpr (.inr rootFinal)
  · intro other isIndexed
    rw [size_update]
    exact tracked.inside other isIndexed
  · intro other isIndexed isFinal
    rw [parent?_update]
    rcases (final_finalized inside other).mp isFinal with rfl | old
    · exact .inr ⟨block, List.mem_append_right _ List.mem_cons_self⟩
    · rcases tracked.accepted other isIndexed old with top | ⟨accepted, isAccepted⟩
      · exact .inl top
      · exact .inr ⟨accepted, List.mem_append_left _ isAccepted⟩
  · intro other accepted isAccepted
    rcases List.mem_append.mp isAccepted with old | new
    · exact (tracked.placed other accepted old).mono (fun _ => List.mem_append_left _)
        (Nat.le_of_eq (size_update _ _ _).symm) (fun _ mem => mem)
        (fun index _ => parent?_update _ _ index _) (fun index _ => sameId index)
        fun index _ isFinal => (final_finalized inside index).mpr (.inr isFinal)
    · obtain ⟨rfl, rfl⟩ := Prod.mk.inj (List.mem_singleton.mp new)
      obtain ⟨parent, points, parentNamed, parentAbove⟩ := above
      refine ⟨?_, mem, (final_finalized inside other).mpr (.inl rfl), ?_, parent, ?_, ?_, ?_⟩
      · rwa [size_update]
      · exact (sameId other).trans named
      · rw [parent?_update, points]
      · exact (sameId parent).trans parentNamed
      · rw [parent?_update]
        exact parentAbove.imp id (Exists.imp fun _ old => List.mem_append_left _ old)
  · rw [List.pairwise_append]
    refine ⟨tracked.ordered, List.pairwise_singleton _ _, ?_⟩
    intro entry isEntry last isLast
    obtain rfl := List.mem_singleton.mp isLast
    exact later entry isEntry

/-- The new child that a block is evaluated on. -/
theorem child_outcome {block : Block}
    (extends_ : Extends block db parent) (backs : db.heap.backend parent = .ok own) :
    let child := Controller.withChild db parent own block.id
    db.heap.size ∈ child.index ∧ child.heap.id db.heap.size = .ok block.id ∧
      child.heap.parent? db.heap.size = some parent ∧
      child.heap.id parent = .ok block.previous ∧
      (child.heap.parent? parent = none ∨ ∃ previous, (parent, previous) ∈ history) := by
  have inside := lt_size_of_backend backs
  have settled : Heap.Settled 0 db.heap
      (db.heap.push (some parent) (childOf own block.id)) :=
    settled_push_child inside rfl
  obtain ⟨named, indexed⟩ := id_of_findAmong extends_.named
  refine ⟨List.mem_append_right _ List.mem_cons_self, ?_, ?_, ?_, ?_⟩
  · have stored := Heap.backend_eq_ok_iff.mpr ⟨_, node?_withChild db parent own block.id, rfl⟩
    rw [Heap.id, stored, if_neg (tracked.id_ne_nullId extends_)]
    rfl
  · exact parent?_push_child inside _
  · exact (settled.id inside).trans named
  · change Forest.parent? (db.heap.push (some parent) (childOf own block.id)) parent = none ∨ _
    rw [settled.parents parent inside]
    exact tracked.accepted parent indexed extends_.final

end

end Tracked

/-- How a block was accepted: on the node it extends it was given a child, checked there,
applied to the child, and the child was finalized. -/
structure Acceptance (env : Env) (block : Block) (now : Int)
    (before after : Database) (parent : Nat) (checked : Database) (context : Context) : Prop where
  valid : block.validate env.crypto = true
  extends_ : Extends block before parent
  child : ∃ own, before.heap.backend parent = .ok own ∧
    (checkBlock env block parent now).Returns (withChild before parent own block.id)
      (.ok ()) checked ∧
    Database.Settled before.heap.size (withChild before parent own block.id) checked
  applied : ∃ receipt, (Context.applyBlock env block).Returns
    (Context.create checked.heap before.heap.size .blockApplication) (.ok receipt) context
  settled : Database.Settled before.heap.size checked { checked with heap := context.heap }
  finalized : ∃ head forkHeads,
    final (context.heap.update before.heap.size fun delta => { delta with final := true })
      head = true ∧ ∀ limit, Database.Settled limit { checked with
      heap := context.heap.update before.heap.size fun delta => { delta with final := true }
      head := some head
      forkHeads := forkHeads } after

/-- Every accepted block was accepted so. -/
theorem Tracked.acceptance {receipt : BlockReceipt} (tracked : Tracked history db root)
    (gave : (processBlock env block now).Returns db (.ok receipt) after) :
    ∃ parent checked context,
      Acceptance env block now db after parent checked context := by
  rcases processBlock_outcome gave with ⟨-, _, isError, -⟩ |
    ⟨parent, own, valid, -, extends_, backs, evaluated⟩
  · cases isError
  obtain ⟨checked, context, applied, checks, checkSettled, applies, applySettled, accepts⟩ :=
    evaluateBlock_accepted evaluated
  obtain ⟨indexed, -⟩ := tracked.child_outcome extends_ backs
  have appliedTracked :=
    ((tracked.withChild backs block.id).settled checkSettled).settled applySettled
  have appliedIndexed : db.heap.size ∈ checked.index := by
    rw [checkSettled.index]
    exact indexed
  obtain ⟨-, -, head, forkHeads, headFinal, settled⟩ := acceptBlock_outcome appliedTracked.rooted
    (appliedTracked.inside db.heap.size appliedIndexed) accepts
  exact ⟨parent, checked, context, valid, extends_, ⟨own, backs, checks, checkSettled⟩,
    ⟨applied, applies⟩, applySettled, head, forkHeads, headFinal, settled⟩

/-- An accepted block is tracked. -/
theorem Tracked.accept {checked : Database} {parent : Nat} {context : Context}
    (tracked : Tracked history db root)
    (acceptance : Acceptance env block now db after parent checked context) :
    Tracked (history ++ [(db.heap.size, block)]) after root := by
  obtain ⟨own, backs, -, checkSettled⟩ := acceptance.child
  obtain ⟨head, forkHeads, headFinal, settled⟩ := acceptance.finalized
  obtain ⟨indexed, named, points, parentNamed, above⟩ :=
    tracked.child_outcome acceptance.extends_ backs
  have applySettled := IsTrans.trans _ _ _ checkSettled acceptance.settled
  have appliedTracked := (tracked.withChild backs block.id).settled applySettled
  have inside := (tracked.withChild backs block.id).inside _ indexed
  have parentInside := Nat.lt_trans (parent?_lt points) inside
  have appliedIndexed : db.heap.size ∈ checked.index := by
    rw [checkSettled.index]
    exact indexed
  refine (appliedTracked.finalized appliedIndexed ?_ ⟨parent, ?_, ?_, ?_⟩ ?_ headFinal).settled
    (settled 0)
  · exact (applySettled.heap.id inside).trans named
  · exact (applySettled.heap.parents _ inside).trans points
  · exact (applySettled.heap.id parentInside).trans parentNamed
  · rw [applySettled.heap.parents parent parentInside]
    exact above
  · exact fun entry mem => (tracked.placed entry.1 entry.2 mem).inside

/-- A block that is refused leaves the accepted blocks tracked. -/
theorem Tracked.refuse {error : ErrorCode} (tracked : Tracked history db root)
    (gave : (processBlock env block now).Returns db (.error error) after) :
    Tracked history after root := by
  rcases processBlock_outcome gave with ⟨rfl, -⟩ |
    ⟨parent, own, -, -, -, backs, evaluated⟩
  · exact tracked
  · exact (tracked.withChild backs block.id).settled (evaluateBlock_refused evaluated)

/-- A transaction on its own works on nodes beyond those of the database. -/
theorem applyAlone_beyond {limit : Nat} [Std.Refl kept] [IsTrans Heap kept]
    (shelters : Heap.Shelters limit kept) (tx : Transaction) :
    (applyAlone env tx).Keeps (Beyond limit kept) :=
  keeps_bind (Context.modify_beyond fun _ => ⟨rfl, rfl⟩) fun _ =>
    Context.applyTransaction_beyond shelters tx

/-- A transaction on its own changes nothing but deltas, and works on new ones. -/
theorem processTransaction_kept (db : Database) [Std.Refl kept] [IsTrans Heap kept]
    (shelters : Heap.Shelters db.heap.size kept) (env : Env) (tx : Transaction) :
    Database.HeapOnly kept db (processTransaction env tx db).2 := by
  have same : Database.HeapOnly kept db db := ⟨db.heap, rfl, Std.Refl.refl _⟩
  unfold processTransaction
  split
  · exact same
  split
  · exact same
  rw [read_bind]
  refine related_bind ?_ fun head mid found => ?_
  · cases db.head <;> exact same
  obtain ⟨-, rfl⟩ := returns_expect.mp found
  have makes := shelters.makeChild head nullId mid.heap
  refine related_bind ⟨_, rfl, makes⟩ fun node child made => ?_
  obtain ⟨heap, madeHeap, rfl⟩ := returns_within.mp made
  rw [madeHeap] at makes
  obtain ⟨own, -, rfl, -⟩ := Heap.returns_makeChild.mp madeHeap
  have works : (applyAlone env tx).Keeps (Beyond mid.heap.size kept) :=
    applyAlone_beyond shelters tx
  have applies := (works (Context.create heap mid.heap.size .transactionApplication)
    (Nat.le_refl _)).2
  exact ⟨_, rfl, IsTrans.trans _ _ _ makes applies⟩

/-- A transaction on its own settles all nodes. -/
theorem processTransaction_settled (db : Database) (tx : Transaction) :
    Database.Settled db.heap.size db (processTransaction env tx db).2 := by
  obtain ⟨heap, mid, settled⟩ := processTransaction_kept db shelters_settled env tx
  rw [mid]
  exact ⟨settled, rfl, rfl, rfl, rfl⟩

/-- Opening leaves an empty history tracked, and shows the initial objects. -/
theorem tracked_of_openController
    (gave : (openController env entries false).Returns empty () db) :
    Tracked [] db 0 ∧ db.index = [0] ∧ db.heap.size = 1 ∧
      db.heap.view 0 = written (genesisWrites entries) fun _ => none := by
  have opens := openIndex_of_openController gave
  obtain ⟨opened, opensAgain, reopened, size⟩ := openIndex_reopened (genesisWrites entries)
  obtain ⟨-, rfl⟩ := opens.unique opensAgain
  obtain ⟨backed, ⟨root, isRoot, inside, top⟩, -⟩ := openIndex_rooted (writeAll_extends _ 0) opens
  obtain rfl := Option.some.inj (isRoot.symm.trans reopened.isRoot)
  obtain ⟨-, -, onlyRoot, -, rootFinal⟩ := openIndex_opens (writeAll_extends _ 0) opens
  obtain ⟨named, indexed⟩ := id_of_findAmong reopened.found
  have only : ∀ node < db.heap.size, node = 0 := fun node below => by omega
  refine ⟨⟨⟨backed, isRoot, inside, ?_, 0, reopened.isHead, rootFinal⟩, ⟨indexed, named, rootFinal⟩,
    ?_, ?_, ?_, ?_⟩, onlyRoot, size, ?_⟩
  · intro index below
    rw [only index below]
    exact iff_of_true top rfl
  · simpa [onlyRoot] using inside
  · intro node mem _
    rw [onlyRoot, List.mem_singleton] at mem
    exact .inl (mem ▸ top)
  · exact fun _ _ mem => absurd mem List.not_mem_nil
  · exact List.Pairwise.nil
  · funext key
    exact view_of_get (reopened.view key)

section Stops

variable {history : List (Nat × Block)} {db after : Database} {root parent node : Nat}
  {own : Backend}

/-- The node for a block that extends another is created: its id is not taken. -/
theorem makeChild_returns (tracked : Tracked history db root)
    (extends_ : Extends block db parent) (backs : db.heap.backend parent = .ok own) :
    (PermanentNode.makeChild parent block.id).Returns db db.heap.size
      (withChild db parent own block.id) := by
  obtain ⟨-, named, -⟩ := tracked.child_outcome extends_ backs
  let created : Database := { db with heap := db.heap.push (some parent) (childOf own block.id) }
  have creates : (onHeap (makeChild parent block.id)).Returns db
      db.heap.size created :=
    returns_within.mpr ⟨_, Heap.returns_makeChild.mpr ⟨own, backs, rfl, rfl⟩, rfl⟩
  have notTaken : created.find block.id = .ok none := by
    refine Eq.trans (findAmong_congr fun node mem => ?_) extends_.unknown
    rw [Heap.id, Heap.id, Heap.backend_push_of_lt (tracked.inside node mem)]
  have inserts : (insert db.heap.size).Returns created true
      (withChild db parent own block.id) :=
    insert_returns (show created.heap.id db.heap.size = .ok block.id from named)
      notTaken
  refine returns_bind.mpr ⟨_, _, creates, returns_bind.mpr ⟨(), _, ?_, returns_pure.mpr ⟨rfl, rfl⟩⟩⟩
  exact returns_bind.mpr ⟨true, _, inserts, returns_pure.mpr ⟨rfl, rfl⟩⟩

/-- A block that extends a node is evaluated on a new child of it. -/
theorem processBlock_evaluates (env : Env) (now : Int)
    (tracked : Tracked history db root)
    (valid : block.validate env.crypto = true) (extends_ : Extends block db parent)
    (backs : db.heap.backend parent = .ok own) :
    processBlock env block now db =
      evaluateBlock env block parent db.heap.size now
        (withChild db parent own block.id) := by
  rw [processBlock, if_neg (not_not.mpr valid),
    (findParent_returns tracked.rooted.isOpen extends_).bind_eq]
  exact (makeChild_returns tracked extends_ backs).bind_eq _

/-- The node for a block is one revision above its parent. -/
theorem revision_withChild (db : Database) (parent : Nat) (own : Backend) (id : StateNodeId) :
    (withChild db parent own id).heap.revision db.heap.size =
      .ok (own.revision + 1) :=
  revision_of_backend
    (backend_eq_ok_iff.mpr ⟨_, node?_withChild db parent own id, rfl⟩)

/-- A block on the node makes another block irreversible. -/
def MakesIrreversible (db : Database) (node : Nat) : Prop :=
  ∃ root rootRevision revision, db.root = some root ∧
    db.heap.revision root = .ok rootRevision ∧ db.heap.revision node = .ok revision ∧
    rootRevision < irreversibleBlock (revision + 1)

variable {mid : Database} {fault : Fault}

/-- Work above a new child leaves the revisions of the nodes below as they were. -/
theorem revision_of_settled {index limit : Nat} (inside : index < db.heap.size)
    (settled : Database.Settled limit (withChild db node own block.id) mid) :
    mid.heap.revision index = db.heap.revision index :=
  (settled.heap.revision (Nat.lt_trans inside (lt_size_withChild db node own block.id))).trans
    (revision_push_of_lt inside)

/-- Whether a block is accepted on a node is settled by the revisions below the node. -/
theorem revisions_of_settled (tracked : Tracked history db root) {limit : Nat}
    (settled : Database.Settled limit (withChild db node own block.id) mid) :
    mid.heap.revision db.heap.size = .ok (own.revision + 1) ∧
      mid.heap.revision root = db.heap.revision root :=
  ⟨(settled.heap.revision (lt_size_withChild db node own block.id)).trans
    (revision_withChild db node own block.id), revision_of_settled tracked.rooted.inside settled⟩

/-- The revisions of the root and of a node decide whether a block on it does so. -/
theorem makesIrreversible_iff {rootRevision revision : UInt64} (isRoot : db.root = some root)
    (rootRevised : db.heap.revision root = .ok rootRevision)
    (revised : db.heap.revision node = .ok revision) :
    MakesIrreversible db node ↔ rootRevision < irreversibleBlock (revision + 1) := by
  constructor
  · rintro ⟨_, _, _, isRootAgain, rootRevisedAgain, revisedAgain, later⟩
    obtain rfl := Option.some.inj (isRoot.symm.trans isRootAgain)
    obtain rfl := Except.ok.inj (rootRevised.symm.trans rootRevisedAgain)
    obtain rfl := Except.ok.inj (revised.symm.trans revisedAgain)
    exact later
  · intro later
    exact ⟨root, rootRevision, revision, isRoot, rootRevised, revised, later⟩

/-- Accepting an applied block returns as far as it makes no other one irreversible. -/
theorem acceptBlock_of_reversible (env : Env) (tracked : Tracked history db root)
    (backs : db.heap.backend parent = .ok own) (reversible : ¬ MakesIrreversible db parent)
    (settled : Database.Settled db.heap.size (withChild db parent own block.id) mid)
    (applied : BlockReceipt) :
    ∃ receipt after, (acceptBlock env block db.heap.size applied).Returns mid
      receipt after := by
  have reachedTracked := (tracked.withChild backs block.id).settled settled
  obtain ⟨revised, rootRevised⟩ := revisions_of_settled tracked settled
  obtain ⟨rootRevision, rootRevises⟩ :=
    revision_of_backed tracked.rooted.backed tracked.rooted.inside
  have ownRevised := revision_of_backend backs
  have inside := Nat.lt_of_lt_of_le (lt_size_withChild db parent own block.id)
    settled.heap.size
  have notLater : ¬ rootRevision < irreversibleBlock (own.revision + 1) := fun later =>
    reversible ((makesIrreversible_iff tracked.rooted.isRoot rootRevises ownRevised).mpr later)
  exact acceptBlock_returns reachedTracked.rooted inside revised (rootRevised.trans rootRevises)
    notLater applied

section

variable (tracked : Tracked history db root)
include tracked

/-- An applied block that is accepted makes no other one irreversible. -/
theorem reversible_of_accepted (backs : db.heap.backend parent = .ok own)
    (settled : Database.Settled db.heap.size (withChild db parent own block.id) mid)
    {applied receipt : BlockReceipt}
    (accepts : (acceptBlock env block db.heap.size applied).Returns mid receipt after) :
    ¬ MakesIrreversible db parent := by
  obtain ⟨revised, rootRevised⟩ := revisions_of_settled tracked settled
  have ownRevised := revision_of_backend backs
  obtain ⟨⟨_, _, revisedAgain, rootRevisedAgain, reversible⟩, -⟩ :=
    acceptBlock_outcome ((tracked.withChild backs block.id).settled settled).rooted
      (Nat.lt_of_lt_of_le (lt_size_withChild db parent own block.id) settled.heap.size) accepts
  obtain rfl := Except.ok.inj (revised.symm.trans revisedAgain)
  rwa [makesIrreversible_iff tracked.rooted.isRoot (rootRevised.symm.trans rootRevisedAgain)
    ownRevised]

/-- A block that stops on its node is left behind, unless it makes another one irreversible. -/
theorem leftBehind_of_stopped
    (backs : db.heap.backend parent = .ok own) (reversible : ¬ MakesIrreversible db parent)
    (stopped : (evaluateBlock env block parent db.heap.size now).Stops
      (withChild db parent own block.id) fault after) :
    LeftBehind env block parent db.heap.size now
      (withChild db parent own block.id) after := by
  rcases evaluateBlock_cases env block parent db.heap.size now
    (withChild db parent own block.id) with ⟨_, _, evaluates, left, -⟩ |
      ⟨checked, context, applied, -, checkSettled, -, applySettled, accepting⟩
  · obtain ⟨-, rfl⟩ := Prod.mk.inj (evaluates.symm.trans stopped)
    exact left
  · obtain ⟨_, _, accepts⟩ := acceptBlock_of_reversible env tracked backs reversible
      (IsTrans.trans _ _ _ checkSettled applySettled) applied
    rcases stops_bind.mp (accepting.symm.trans stopped) with acceptStops | ⟨_, _, -, ended⟩
    · exact absurd acceptStops accepts.not_stops
    · exact absurd ended not_stops_pure

/-- A block that stops has changed nothing or stops on a new child of the node it extends. -/
theorem processBlock_stopped (stopped : (processBlock env block now).Stops db fault after) :
    after = db ∨ ∃ parent own, Extends block db parent ∧
      db.heap.backend parent = .ok own ∧
      (evaluateBlock env block parent db.heap.size now).Stops
        (withChild db parent own block.id) fault after := by
  unfold processBlock at stopped
  split at stopped
  · exact absurd stopped not_stops_pure
  rcases stops_bind.mp stopped with lookStops | ⟨found, _, looked, rest⟩
  · exact .inl (findParent_keeps.of_stops lookStops).symm
  obtain ⟨rfl, -, extends_iff⟩ := findParent_outcome looked
  cases found with
  | error error => exact absurd rest not_stops_pure
  | ok parent =>
    have extends_ := (extends_iff parent).mp rfl
    obtain ⟨-, indexed⟩ := id_of_findAmong extends_.named
    obtain ⟨-, own, -, -, backs⟩ :=
      backend_of_backed tracked.rooted.backed (tracked.inside parent indexed)
    have makes := makeChild_returns tracked extends_ backs
    rcases stops_bind.mp rest with makeStops | ⟨node, child, made, evaluating⟩
    · exact absurd makeStops makes.not_stops
    obtain ⟨rfl, rfl⟩ := makes.unique made
    exact .inr ⟨parent, own, extends_, backs, evaluating⟩

/-- A block that stops leaves the accepted blocks tracked, unless it makes another one
irreversible. -/
theorem Tracked.stop
    (reversible : ∀ parent, Extends block db parent → ¬ MakesIrreversible db parent)
    (stopped : (processBlock env block now).Stops db fault after) :
    Tracked history after root := by
  rcases processBlock_stopped tracked stopped with rfl |
    ⟨parent, own, extends_, backs, evaluating⟩
  · exact tracked
  · exact (tracked.withChild backs block.id).settled
      (leftBehind_of_stopped tracked backs (reversible parent extends_) evaluating).settled

end

end Stops

/-- The runs of a controller over arbitrary blocks and transactions, up to the first block that
makes another one irreversible. A call that throws is left with the state it has reached. -/
inductive ProcessRun (env : Env) (entries : List GenesisEntry) :
    List (Nat × Block) → Database → Prop where
  | opened {db : Database} :
      (openController env entries false).Returns empty () db →
        ProcessRun env entries [] db
  | accepted {history : List (Nat × Block)} {db after : Database} {block : Block} {now : Int}
      {receipt : BlockReceipt} :
      ProcessRun env entries history db →
        (processBlock env block now).Returns db (.ok receipt) after →
        ProcessRun env entries (history ++ [(db.heap.size, block)]) after
  | refused {history : List (Nat × Block)} {db after : Database} {block : Block} {now : Int}
      {error : ErrorCode} :
      ProcessRun env entries history db →
        (processBlock env block now).Returns db (.error error) after →
        ProcessRun env entries history after
  | threw {history : List (Nat × Block)} {db after : Database} {block : Block} {now : Int}
      {message : String} :
      ProcessRun env entries history db →
        (∀ parent, Extends block db parent → ¬ MakesIrreversible db parent) →
        (processBlock env block now).Stops db (.exception message) after →
        ProcessRun env entries history after
  | transaction {history : List (Nat × Block)} {db : Database} (tx : Transaction) :
      ProcessRun env entries history db →
        ProcessRun env entries history (processTransaction env tx db).2

section Runs

variable {entries : List GenesisEntry} {history : List (Nat × Block)} {db : Database}

/-- Every run is tracked from the root that opening creates. -/
theorem ProcessRun.tracked (run : ProcessRun env entries history db) : Tracked history db 0 := by
  induction run with
  | opened gave => exact (tracked_of_openController gave).1
  | accepted _ gave ih =>
    obtain ⟨parent, checked, context, acceptance⟩ := ih.acceptance gave
    exact ih.accept acceptance
  | refused _ gave ih => exact ih.refuse gave
  | threw _ reversible stopped ih => exact ih.stop reversible stopped
  | transaction tx _ ih => exact ih.settled (processTransaction_settled _ tx)

/-- A run goes on with a block of which it is known that it is accepted. -/
theorem ProcessRun.extended (run : ProcessRun env entries history db) (block : Block) (now : Int)
    {node : Nat} (size : db.heap.size = node) {height : UInt64}
    (outcome : (processBlock env block now db).1.map (Except.map BlockReceipt.height) =
      .ok (.ok height)) :
    ProcessRun env entries (history ++ [(node, block)]) (processBlock env block now db).2 := by
  obtain ⟨receipt, gave, -⟩ := returns_ok_of_map_fst outcome
  exact size ▸ run.accepted gave

end Runs

/-- A user account that signs blocks and transactions. -/
def sampleSigner : Account := SizedBytes.fit 33 [0, 7]

/-- A block with the id it should have, on a given predecessor. -/
def sampleBlock (previous : Digest) (height timestamp : UInt64) (stateMerkleRoot : Digest)
    (transactions : List Transaction) : Block :=
  let block : Block :=
    ⟨SizedBytes.zero 32, previous, height, timestamp, stateMerkleRoot, transactions, sampleSigner,
      SizedBytes.zero 64⟩
  { block with id := block.makeId Env.plain.crypto.hash }

/-- A transaction of that account with the id it should have. -/
def sampleTransaction (networkId : Digest) (nonce : UInt64) (operations : List Operation) :
    Transaction :=
  let tx : Transaction :=
    ⟨SizedBytes.zero 32, networkId, 1000000, sampleSigner, SizedBytes.zero 33, nonce, operations,
      [⟨sampleSigner, SizedBytes.zero 64⟩]⟩
  { tx with id := tx.makeId Env.plain.crypto.hash }

/-- An initial state with nothing but the genesis key. -/
def sampleEntries : List GenesisEntry :=
  [⟨ObjectSpace.metadata, Context.genesisKey .plain, sampleSigner.publicKey.1⟩]

/-- A controller that was only opened. -/
def sampleGenesis : Database := (openController .plain sampleEntries false empty).2

/-- A first block, and the controller that has accepted it. -/
def sampleFirst : Block := sampleBlock nullId 1 2000 (SizedBytes.zero 32) []

def afterFirst : Database := (processBlock .plain sampleFirst 0 sampleGenesis).2

/-- The state root that a receipt reports. -/
def reportedRoot (outcome : Except Fault (Result BlockReceipt)) : Digest :=
  match outcome with
  | .ok (.ok receipt) => receipt.stateMerkleRoot
  | _ => SizedBytes.zero 32

/-- The state that the second block builds on. -/
def rootAfterFirst : Digest := reportedRoot (processBlock .plain sampleFirst 0 sampleGenesis).1

/-- The second block on a first one, with a given timestamp. -/
def secondBlock (timestamp : UInt64) : Block :=
  sampleBlock sampleFirst.id 2 timestamp rootAfterFirst []

def afterSecond (timestamp : UInt64) : Database :=
  (processBlock .plain (secondBlock timestamp) 0 afterFirst).2

/-- The runs of no, of one and of two blocks. -/
theorem run_sampleGenesis : ProcessRun .plain sampleEntries [] sampleGenesis :=
  .opened (returns_of_fst (by decide +kernel))

theorem run_afterFirst : ProcessRun .plain sampleEntries [(1, sampleFirst)] afterFirst :=
  run_sampleGenesis.extended sampleFirst 0 (show sampleGenesis.heap.size = 1 by decide +kernel)
    (show (processBlock .plain sampleFirst 0 sampleGenesis).1.map
      (Except.map BlockReceipt.height) = .ok (.ok 1) by decide +kernel)

theorem run_afterSecond {timestamp : UInt64}
    (outcome : (processBlock .plain (secondBlock timestamp) 0 afterFirst).1.map
      (Except.map BlockReceipt.height) = .ok (.ok 2)) :
    ProcessRun .plain sampleEntries [(1, sampleFirst), (2, secondBlock timestamp)]
      (afterSecond timestamp) :=
  run_afterFirst.extended (secondBlock timestamp) 0
    (show afterFirst.heap.size = 2 by decide +kernel) outcome

end Respublica.Controller
