import Respublica.Controller.ChainTrust
import Respublica.Controller.NextBlock

/-!
# The end of the chain

A block without transactions that is made from the report about the head and signed with the
genesis key is accepted and becomes the head, as long as the head is below the irreversible
threshold. At the threshold the controller commits the node that the block makes irreversible,
and that commit follows the backend pointer it has just reset. So no chain grows beyond the
threshold, and the block that would do so takes the controller down.
-/

namespace Respublica.Controller

open Foundation Effect Crypto Program Protocol StateDb Heap Database Context

variable {env : Env} {entries : List GenesisEntry} {history : List (Nat × Block)}
  {db after : Database} {root node : Nat} {block : Block} {now : Int}

variable {revision height : UInt64} {parent : Nat}

/-- A revision makes a first one irreversible when it is above the threshold. -/
theorem irreversibleBlock_pos_iff :
    0 < irreversibleBlock revision ↔ irreversibleThreshold < revision := by
  rw [irreversibleBlock]
  split
  · rename_i above
    refine ⟨fun _ => above, fun _ => ?_⟩
    rw [UInt64.lt_iff_toNat_lt, UInt64.toNat_sub_of_le _ _ (UInt64.le_of_lt above)]
    exact Nat.sub_pos_of_lt (UInt64.lt_iff_toNat_lt.mp above)
  · rename_i notAbove
    exact ⟨fun positive => absurd positive (UInt64.lt_irrefl 0), fun above => absurd above notAbove⟩

/-- Below the threshold heights do not wrap. -/
theorem toNat_succ_of_below (below : height < irreversibleThreshold) :
    (height + 1).toNat = height.toNat + 1 := by
  have bound : height.toNat < 60 := UInt64.lt_iff_toNat_lt.mp below
  rw [UInt64.toNat_add, show (1 : UInt64).toNat = 1 from rfl]
  omega

/-- Below the threshold heights do not overflow. -/
theorem succ_of_below (below : height < irreversibleThreshold) :
    height < height + 1 ∧ height + 1 ≤ irreversibleThreshold := by
  rw [UInt64.lt_iff_toNat_lt, UInt64.le_iff_toNat_le, toNat_succ_of_below below]
  exact ⟨Nat.lt_succ_self _, UInt64.lt_iff_toNat_lt.mp below⟩

/-- No accepted block is above the threshold. -/
theorem ProcessRun.height_le (run : ProcessRun env entries history db) :
    ∀ node block, (node, block) ∈ history → block.height ≤ irreversibleThreshold := by
  refine run.invariant (fun history _ => ∀ node block, (node, block) ∈ history →
    block.height ≤ irreversibleThreshold) ?_ ?_ ?_
  · exact fun _ _ _ _ mem => absurd mem List.not_mem_nil
  · exact fun _ _ _ _ _ bounded => bounded
  · intro history before after block now receipt earlier gave bounded node other mem
    rcases List.mem_append.mp mem with old | new
    · exact bounded node other old
    obtain ⟨-, rfl⟩ := Prod.mk.inj (List.mem_singleton.mp new)
    rcases processBlock_outcome gave with ⟨-, _, isError, -⟩ |
      ⟨parent, own, -, -, extends_, backs, evaluated⟩
    · cases isError
    obtain ⟨_, _, _, -, checkSettled, -, applySettled, accepts⟩ := evaluateBlock_accepted evaluated
    have reversible := earlier.reversible backs
      (IsTrans.trans _ _ _ checkSettled applySettled) accepts
    obtain ⟨same, _, _, acceptance⟩ := earlier.chained.tracked.acceptance gave
    obtain rfl : parent = same :=
      Option.some.inj (Except.ok.inj (extends_.named.symm.trans acceptance.extends_.named))
    rw [acceptance.height earlier.chained backs]
    exact UInt64.not_lt.mp fun above => reversible (irreversibleBlock_pos_iff.mpr above)

/-- Nor is the block that is reported as the head. -/
theorem ProcessRun.report_le (run : ProcessRun env entries history db)
    {info : HeadInfo} {mid : Database}
    (asked : (head env).Returns db info mid) :
    info.height ≤ irreversibleThreshold := by
  obtain ⟨node, isHead, -, revised, -⟩ := run.reported asked
  obtain ⟨_, height, headed⟩ := run.headed
  obtain rfl := Option.some.inj (isHead.symm.trans headed.isHead)
  obtain rfl := Except.ok.inj (revised.symm.trans headed.revised)
  rcases headed.leads with ⟨-, -, isZero⟩ | ⟨earlier, block, later, rfl, isHeight, -⟩
  · rw [isZero]
    exact UInt64.zero_le
  · rw [← isHeight]
    exact run.height_le node block (List.mem_append_right _ List.mem_cons_self)

/-- The walk to a revision depends on the revisions of the deltas it passes. -/
theorem ancestorAt_congr {heap other : Heap} {path : List Nat}
    (same : ∀ index ∈ path, heap.revision index = other.revision index) :
    ancestorAt heap revision path = ancestorAt other revision path := by
  induction path with
  | nil => rfl
  | cons delta ancestors ih =>
    obtain ⟨here, behind⟩ := List.forall_mem_cons.mp same
    rw [ancestorAt, ancestorAt, here, ih behind]

/-- A walk from a child ends there or is the walk from its parent. -/
theorem ancestorAt_of_child {heap : Heap} {own : UInt64} (inside : node < heap.size)
    (points : heap.parent? node = some parent) (revised : heap.revision node = .ok own) :
    ancestorAt heap revision (heap.lineage node) =
      if revision < own then ancestorAt heap revision (heap.lineage parent)
      else .ok node := by
  rw [Forest.lineage_of_child inside points, ancestorAt, revised]
  rfl

/-- A database that carries another one walks from its deltas as the other does. -/
theorem Carried.ancestorAt {limit : Nat} (carried : Carried limit db after)
    (inside : node < db.heap.size) :
    ancestorAt after.heap revision (after.heap.lineage node) =
      ancestorAt db.heap revision (db.heap.lineage node) := by
  have lineages : after.heap.lineage node = db.heap.lineage node := by
    refine Forest.lineage_congr (fun position bound => ?_) fun position bound => ?_
    · have within := Nat.lt_of_le_of_lt bound inside
      exact iff_of_true (Nat.lt_of_lt_of_le within carried.size) within
    · exact carried.parents position (Nat.lt_of_le_of_lt bound inside)
  rw [lineages]
  refine ancestorAt_congr fun index mem => carried.revisions index ?_
  exact Nat.lt_of_le_of_lt (Forest.le_of_mem_lineage mem) inside

/-- Below every accepted block the walk to the first revision ends at an accepted block. -/
theorem ProcessRun.first_ancestor (run : ProcessRun env entries history db) :
    ∀ node block, (node, block) ∈ history → ∃ found first, (found, first) ∈ history ∧
      ancestorAt db.heap 1 (db.heap.lineage node) = .ok found := by
  refine run.invariant (fun history db => ∀ node block, (node, block) ∈ history →
    ∃ found first, (found, first) ∈ history ∧
      ancestorAt db.heap 1 (db.heap.lineage node) = .ok found) ?_ ?_ ?_
  · exact fun _ _ _ _ mem => absurd mem List.not_mem_nil
  · intro history before after earlier unmoved walks node block mem
    rw [unmoved.carried.ancestorAt (earlier.chained.links node block mem).inside]
    exact walks node block mem
  · intro history before after block now receipt earlier gave walks node other mem
    obtain ⟨parent, _, _, acceptance⟩ := earlier.chained.tracked.acceptance gave
    have carried := acceptance.carried
    have chained := earlier.chained.accept acceptance
    rcases List.mem_append.mp mem with old | new
    · obtain ⟨found, first, accepted, walked⟩ := walks node other old
      refine ⟨found, first, List.mem_append_left _ accepted, ?_⟩
      rw [carried.ancestorAt (earlier.chained.links node other old).inside]
      exact walked
    obtain ⟨rfl, rfl⟩ := Prod.mk.inj (List.mem_singleton.mp new)
    have link := chained.links _ _ mem
    rw [ancestorAt_of_child link.inside (acceptance.points earlier.chained.tracked) link.revised]
    split
    · rename_i above
      rcases acceptance.extends_.standing earlier.chained.tracked with rfl | ⟨previous, accepted⟩
      · -- A block on the root has height one.
        obtain ⟨own, backs, -⟩ := acceptance.child
        have isZero : own.revision = 0 := by
          exact Except.ok.inj
            ((revision_of_backend backs).symm.trans earlier.chained.rootRevised)
        rw [acceptance.height earlier.chained backs, isZero] at above
        exact absurd above (UInt64.lt_irrefl 1)
      · obtain ⟨found, first, isAccepted, walked⟩ := walks parent previous accepted
        refine ⟨found, first, List.mem_append_left _ isAccepted, ?_⟩
        rw [carried.ancestorAt (earlier.chained.links parent previous accepted).inside]
        exact walked
    · exact ⟨_, _, mem, rfl⟩

section Above

variable {parent : Nat} {own : Backend} {mid : Database}

/-- What a block was applied to carries the database it was submitted to. -/
theorem carried_of_applied (backs : db.heap.backend parent = .ok own)
    (settled : Database.Settled db.heap.size (withChild db parent own block.id) mid) :
    Carried db.heap.size db mid := by
  refine Carried.of_heap (IsTrans.trans _ _ _ (settled_makeChild backs block.id)
    settled.heap) fun node mem => ?_
  rw [settled.index]
  exact List.mem_append_left _ mem

/-- The node of a block is found under the block's id. -/
theorem find_of_applied (run : ProcessRun env entries history db)
    (extends_ : Extends block db parent) (backs : db.heap.backend parent = .ok own)
    (settled : Database.Settled db.heap.size (withChild db parent own block.id) mid) :
    mid.find block.id = .ok (some db.heap.size) := by
  have tracked := run.chained.tracked
  have carried := carried_of_applied backs settled
  obtain ⟨indexed, named, -⟩ := tracked.child_outcome extends_ backs
  have reachedTracked := (tracked.withChild backs block.id).settled settled
  have reachedNamed : mid.heap.id db.heap.size = .ok block.id :=
    (settled.heap.id (lt_size_withChild db parent own block.id)).trans named
  have indexes : Indexes db mid := .inr ⟨block.id, extends_.unknown, settled.index, reachedNamed⟩
  exact findAmong_of_mem (indexes.nodup carried tracked.inside run.distinct)
    (fun other mem => id_of_backed reachedTracked.rooted.backed (reachedTracked.inside other mem))
    (settled.index ▸ indexed) reachedNamed

/-- The walk from the node of a block at the threshold ends at a final node below the root. -/
theorem walk_of_applied (run : ProcessRun env entries history db)
    (extends_ : Extends block db parent) (backs : db.heap.backend parent = .ok own)
    (atThreshold : own.revision = irreversibleThreshold)
    (settled : Database.Settled db.heap.size (withChild db parent own block.id) mid) :
    ∃ found, ancestorAt mid.heap 1 (mid.heap.lineage db.heap.size) =
        .ok found ∧ found < mid.heap.size ∧ mid.heap.final found = true ∧
      mid.heap.root found = false := by
  have tracked := run.chained.tracked
  have carried := carried_of_applied backs settled
  have childInside := lt_size_withChild db parent own block.id
  obtain ⟨-, -, points, -⟩ := tracked.child_outcome extends_ backs
  rw [ancestorAt_of_child (Nat.lt_of_lt_of_le childInside settled.heap.size)
    ((settled.heap.parents _ childInside).trans points) (revisions_of_settled tracked settled).1,
    atThreshold, if_pos (by decide), carried.ancestorAt (lt_size_of_backend backs)]
  rcases extends_.standing tracked with rfl | ⟨previous, accepted⟩
  · -- The root has revision zero and is not at the threshold.
    rw [Except.ok.inj ((revision_of_backend backs).symm.trans run.chained.rootRevised)]
      at atThreshold
    cases atThreshold
  · obtain ⟨found, first, isAccepted, walked⟩ := run.first_ancestor parent previous accepted
    have placed := tracked.placed found first isAccepted
    obtain ⟨above, -, pointsAbove, -⟩ := (run.chained.links found first isAccepted).parent
    refine ⟨found, walked, Nat.lt_of_lt_of_le placed.inside carried.size,
      carried.finals found placed.inside placed.final, ?_⟩
    rw [Heap.root, carried.parents found placed.inside, pointsAbove]
    rfl

/-- A revision above the root's is looked for from the node with the id. -/
theorem atRevision_returns {rootRevision revision : UInt64} {id : StateNodeId} {start found : Nat}
    (rooted : RootedAt db root)
    (rootRevised : db.heap.revision root = .ok rootRevision)
    (above : rootRevision < revision) (looked : db.find id = .ok (some start))
    (walked : ancestorAt db.heap revision (db.heap.lineage start) = .ok found) :
    (atRevision revision id).Returns db found db := by
  have opens : requireOpen.Returns db () db := returns_requireOpen.mpr ⟨rooted.isOpen, rfl⟩
  have gets : (get id).Returns db (some start) db := returns_get.mpr ⟨rooted.isOpen, looked, rfl⟩
  rw [Effect.Returns, atRevision, opens.bind_eq, read_bind, rooted.isRoot,
    expect_bind, rootRevised, ofExcept_bind,
    if_neg (UInt64.not_lt.mpr (UInt64.le_of_lt above)), if_neg (UInt64.ne_of_lt above).symm,
    gets.bind_eq]
  exact returns_ofExcept.mpr ⟨walked, rfl⟩

/-- An applied block above the threshold is not accepted: the commit of the block it makes
irreversible dereferences a null pointer. -/
theorem acceptBlock_faults (run : ProcessRun env entries history db)
    (extends_ : Extends block db parent) (backs : db.heap.backend parent = .ok own)
    (atThreshold : own.revision = irreversibleThreshold)
    (settled : Database.Settled db.heap.size (withChild db parent own block.id) mid)
    (applied : BlockReceipt) :
    (acceptBlock env block db.heap.size applied).Faults mid .nullDereference := by
  have tracked := run.chained.tracked
  have reachedTracked := (tracked.withChild backs block.id).settled settled
  have inside := Nat.lt_of_lt_of_le (lt_size_withChild db parent own block.id)
    settled.heap.size
  obtain ⟨revised, rootRevised⟩ := revisions_of_settled tracked settled
  rw [run.chained.rootRevised] at rootRevised
  obtain ⟨head, headRevision, isHead, headRevised⟩ := reachedTracked.rooted.head_revision
  have chosenFinal := reachedTracked.rooted.leader_final inside isHead headRevision
    (own.revision + 1)
  obtain ⟨stateRoot, heap, forkHeads, caches, continues⟩ := acceptBlock_eq env block
    reachedTracked.rooted inside isHead headRevised revised rootRevised applied
  let cached : Database := { mid with
    heap := heap
    head := some (if headRevision < own.revision + 1 then db.heap.size else head)
    forkHeads := forkHeads }
  have cacheSettled : Database.Settled 0
      { cached with
        heap := mid.heap.update db.heap.size fun delta => { delta with final := true } }
      cached :=
    ⟨(merkleRoot_settled _ _).of_returns caches, rfl, rfl, rfl, rfl⟩
  have carried : Carried 0 mid cached := IsTrans.trans _ _ _
    (Carried.finalized mid db.heap.size _ forkHeads) (Carried.of_settled cacheSettled)
  have rooted := (reachedTracked.rooted.finalized _ chosenFinal forkHeads).settled cacheSettled
  obtain ⟨found, walked, foundInside, foundFinal, notRoot⟩ :=
    walk_of_applied run extends_ backs atThreshold settled
  have looked : cached.find block.id = .ok (some db.heap.size) :=
    (findAmong_congr fun node mem =>
      carried.ids node (reachedTracked.inside node mem)).trans
      (find_of_applied run extends_ backs settled)
  have gets := atRevision_returns rooted ((carried.revisions 0 reachedTracked.rooted.inside).trans
    rootRevised) (show (0 : UInt64) < 1 by decide) looked
    ((carried.ancestorAt inside).trans walked)
  have commits := commit_faults env.crypto.hash rooted.backed rooted.isOpen
    rooted.isRoot ((rooted.top 0 rooted.inside).mpr rfl)
    (rooted.mem_lineage (Nat.lt_of_lt_of_le foundInside carried.size))
    (by rw [Heap.root, carried.parents found foundInside]; exact notRoot)
    (carried.finals found foundInside foundFinal)
  have irreversible : irreversibleBlock (own.revision + 1) = 1 := by rw [atThreshold]; decide
  rw [Effect.Faults, continues, irreversible, if_pos (by decide)]
  exact Effect.Returns.bind_faults gets (Effect.Faults.bind commits)

end Above

/-- A block without transactions that is signed with the genesis key is applied to its node. -/
theorem ProcessRun.applies_empty (run : ProcessRun env entries history db) {own : Backend}
    (extends_ : Extends block db parent) (backs : db.heap.backend parent = .ok own)
    (empty : block.transactions = [])
    (signed : written (genesisWrites entries) (fun _ => none)
      (makeCompoundKey ObjectSpace.metadata (Context.genesisKey env)) =
      some block.signer.publicKey.1) :
    ∃ receipt mid, (inContext db.heap.size .blockApplication
      (applyBlock env block)).Returns (withChild db parent own block.id)
        (.ok receipt) mid := by
  have tracked := run.chained.tracked
  have inside := lt_size_of_backend backs
  let child := withChild db parent own block.id
  have shown : child.heap.get db.heap.size
      (makeCompoundKey ObjectSpace.metadata (Context.genesisKey env)) =
        .ok (some block.signer.publicKey.1) := by
    rw [get_of_backed (tracked.withChild backs block.id).rooted.backed
      (lt_size_withChild db parent own block.id)]
    have sameView : child.heap.view db.heap.size = db.heap.view parent :=
      view_makeChild inside own block.id
    rw [sameView, run.shows_genesisKey signed parent (extends_.standing tracked)]
  obtain ⟨receipt, -, applied⟩ := @Context.applyBlock_of_phases env
    (create child.heap db.heap.size .blockApplication) block [] _ shown
    (by rw [empty]; exact returns_pure.mpr ⟨rfl, rfl⟩)
  exact ⟨receipt, _, returns_within.mpr ⟨_, applied, rfl⟩⟩

section OnNode

/-- A block without transactions on a final node. But for its time it is valid there, it is signed
with the genesis key and its id is new. -/
structure EmptyOn (env : Env) (entries : List GenesisEntry) (db : Database) (node : Nat)
    (block : Block) : Prop where
  valid : block.validate env.crypto = true
  unknown : db.find block.id = .ok none
  onNode : FinalNode db node block.previous
  height : ∃ height, db.heap.revision node = .ok height ∧ block.height = height + 1
  root : block.previous ≠ nullId → db.heap.cachedRoot node = some block.stateMerkleRoot
  empty : block.transactions = []
  signed : written (genesisWrites entries) (fun _ => none)
    (makeCompoundKey ObjectSpace.metadata (genesisKey env)) =
      some block.signer.publicKey.1

namespace EmptyOn

variable (made : EmptyOn env entries db node block)

include made

section

variable (run : ProcessRun env entries history db)
include run

theorem extends_ : Extends block db node :=
  ⟨made.unknown, run.find_of_mem made.onNode.indexed made.onNode.named, made.onNode.final⟩

/-- Of its checks only that of its time can fail. -/
theorem checks (now : Int) {own : Backend}
    (backs : db.heap.backend node = .ok own) :
    ∃ result, (checkBlock env block node now).Returns (withChild db node own block.id) result
        (withChild db node own block.id) ∧
      (result = .ok () ↔ 0 < block.timestamp ∧ block.timestamp ≤ timeUpperBound now) := by
  obtain ⟨height, revised, isNext⟩ := made.height
  let info : HeadInfo := ⟨block.previous, height, nullId, 0, block.stateMerkleRoot, 0⟩
  have first : block.previous = nullId → info.height = 0 := by
    intro isNull
    obtain rfl := run.chained.nullRoot node made.onNode.indexed (isNull ▸ made.onNode.named)
    exact Except.ok.inj (revised.symm.trans run.chained.rootRevised)
  have decided : verdict block now info.stateMerkleRoot info.height = .ok () ↔
      Suits block info now :=
    verdict_eq_ok_iff first
  exact ⟨_, run.checks now (made.extends_ run) backs revised made.root,
    decided.trans ⟨fun suits => suits.2.2, fun timely => ⟨isNext, fun _ => rfl, timely⟩⟩⟩

/-- If it comes in time it passes them and is applied. -/
theorem applied (timely : 0 < block.timestamp ∧ block.timestamp ≤ timeUpperBound now) :
    ∃ own receipt applying, db.heap.backend node = .ok own ∧
      (checkBlock env block node now).Returns (withChild db node own block.id) (.ok ())
        (withChild db node own block.id) ∧
      (inContext db.heap.size .blockApplication (applyBlock env block)).Returns
        (withChild db node own block.id) (.ok receipt) applying ∧
      Database.Settled db.heap.size (withChild db node own block.id) applying := by
  obtain ⟨-, own, -, -, backs⟩ := backend_of_backed run.chained.tracked.rooted.backed
    (lt_size_of_final made.onNode.final)
  obtain ⟨_, checks, decided⟩ := made.checks run now backs
  obtain rfl := decided.mpr timely
  obtain ⟨receipt, applying, applies⟩ :=
    run.applies_empty (made.extends_ run) backs made.empty made.signed
  exact ⟨own, receipt, applying, backs, checks, applies,
    (applyBlock_settled _).of_returns applies⟩

/-- Below the threshold it is then accepted. -/
theorem accepted
    (timely : 0 < block.timestamp ∧ block.timestamp ≤ timeUpperBound now) {height : UInt64}
    (revised : db.heap.revision node = .ok height) (below : height < irreversibleThreshold) :
    ∃ receipt after, (processBlock env block now).Returns db (.ok receipt) after := by
  have tracked := run.chained.tracked
  obtain ⟨own, applied, applying, backs, checks, applies, settled⟩ := made.applied run timely
  have reversible : ¬ MakesIrreversible db node := by
    rw [makesIrreversible_iff tracked.rooted.isRoot run.chained.rootRevised revised,
      irreversibleBlock_pos_iff, UInt64.not_lt]
    exact (succ_of_below below).2
  obtain ⟨receipt, after, accepts⟩ := acceptBlock_of_reversible env tracked backs
    reversible settled applied
  exact ⟨receipt, after, (processBlock_iff_evaluated tracked made.valid (made.extends_ run)
    backs).mpr (returns_bind.mpr ⟨_, _, checks, returns_bind.mpr
      ⟨_, _, applies, returns_bind.mpr ⟨_, _, accepts, returns_pure.mpr ⟨rfl, rfl⟩⟩⟩⟩)⟩

/-- An accepted block has come in time. -/
theorem timely_of_accepted {receipt : BlockReceipt}
    (gave : (processBlock env block now).Returns db (.ok receipt) after) :
    0 < block.timestamp ∧ block.timestamp ≤ timeUpperBound now := by
  obtain ⟨-, own, -, -, backs⟩ := backend_of_backed run.chained.tracked.rooted.backed
    (lt_size_of_final made.onNode.final)
  obtain ⟨_, checks, decided⟩ := made.checks run now backs
  obtain ⟨_, _, _, passes, -⟩ := evaluateBlock_accepted ((processBlock_iff_evaluated
    run.chained.tracked made.valid (made.extends_ run) backs).mp gave)
  exact decided.mp (checks.unique passes).1

end

end EmptyOn

end OnNode

section OnHead

variable {info : HeadInfo} {mid : Database}

/-- A block made from the report about the head: it has no transactions, it is signed with the
genesis key, and its id is new. -/
structure EmptyOnHead (env : Env) (entries : List GenesisEntry)
    (db : Database) (info : HeadInfo) (now : Int) (block : Block) : Prop where
  valid : block.validate env.crypto = true
  unknown : db.find block.id = .ok none
  onHead : block.previous = info.id
  suits : Suits block info now
  empty : block.transactions = []
  signed : written (genesisWrites entries) (fun _ => none)
    (makeCompoundKey ObjectSpace.metadata (genesisKey env)) =
      some block.signer.publicKey.1

/-- Such a block is one without transactions on the head. -/
theorem EmptyOnHead.emptyOn (made : EmptyOnHead env entries db info now block)
    (run : ProcessRun env entries history db) (asked : (head env).Returns db info mid) :
    ∃ node, db.head = some node ∧ db.heap.revision node = .ok info.height ∧
      EmptyOn env entries db node block := by
  obtain ⟨node, isHead, finalNode, revised, -, cached⟩ := run.reported asked
  obtain ⟨isNext, names, -⟩ := made.suits
  rw [← made.onHead] at finalNode cached
  exact ⟨node, isHead, revised, made.valid, made.unknown, finalNode, ⟨info.height, revised, isNext⟩,
    fun later => by rw [cached later, names later], made.empty, made.signed⟩

/-- Below the threshold it is accepted and becomes the head. -/
theorem EmptyOnHead.accepted (made : EmptyOnHead env entries db info now block)
    (run : ProcessRun env entries history db)
    (asked : (head env).Returns db info mid)
    (below : info.height < irreversibleThreshold) :
    ∃ receipt after, (processBlock env block now).Returns db (.ok receipt) after ∧
      after.head = some db.heap.size := by
  obtain ⟨node, isHead, revised, onHead⟩ := made.emptyOn run asked
  obtain ⟨receipt, after, gave⟩ := onHead.accepted run made.suits.2.2 revised below
  refine ⟨receipt, after, gave, ?_⟩
  obtain ⟨_, _, _, accepted⟩ := accepted_outcome run.tracked gave
  obtain ⟨_, headHeight, height, isHeadAgain, headRevised, childRevised, chosen⟩ := accepted.head
  obtain rfl := Option.some.inj (isHead.symm.trans isHeadAgain)
  obtain rfl := Except.ok.inj (revised.symm.trans headRevised)
  have link := (run.accepted gave).chained.links db.heap.size block
    (List.mem_append_right _ List.mem_cons_self)
  obtain rfl := Except.ok.inj (link.revised.symm.trans childRevised)
  rw [chosen, made.suits.1, if_pos (succ_of_below below).1]

/-- In every run a block without transactions that is made from the report about the head and
signed with the genesis key becomes the head, as long as the head is below the threshold. At the
threshold the controller dereferences a null pointer instead. -/
theorem empty_block_on_head (run : ProcessRun env entries history db)
    (asked : (head env).Returns db info mid)
    (made : EmptyOnHead env entries db info now block) :
    (info.height < irreversibleThreshold → ∃ receipt after,
      (processBlock env block now).Returns db (.ok receipt) after ∧
        after.head = some db.heap.size) ∧
    (irreversibleThreshold ≤ info.height →
      (processBlock env block now).Faults db .nullDereference) := by
  refine ⟨made.accepted run asked, fun atLeast => ?_⟩
  obtain ⟨node, -, revised, onHead⟩ := made.emptyOn run asked
  have extends_ := onHead.extends_ run
  obtain ⟨own, applied, applying, backs, checks, applies, settled⟩ :=
    onHead.applied run made.suits.2.2
  have atThreshold : own.revision = irreversibleThreshold := by
    rw [Except.ok.inj ((revision_of_backend backs).symm.trans revised)]
    exact UInt64.le_antisymm (run.report_le asked) atLeast
  have faults := acceptBlock_faults run extends_ backs atThreshold settled applied
  rw [Effect.Faults, processBlock_evaluates env now run.tracked made.valid extends_ backs]
  exact checks.bind_faults (applies.bind_faults faults.bind)

/-- A producer makes such a block of every report, with ids that differ at different heights. -/
structure Producer (env : Env) (entries : List GenesisEntry) (now : Int) where
  make : HeadInfo → Block
  valid : ∀ info, info.height ≤ irreversibleThreshold →
    (make info).validate env.crypto = true
  onHead : ∀ info, (make info).previous = info.id
  suits : ∀ info, Suits (make info) info now
  empty : ∀ info, (make info).transactions = []
  signed : ∀ info, written (genesisWrites entries) (fun _ => none)
    (makeCompoundKey ObjectSpace.metadata (genesisKey env)) =
      some (make info).signer.publicKey.1
  notNull : ∀ info, (make info).id ≠ nullId
  apart : ∀ info other, (make info).id = (make other).id → info.height = other.height

/-- A chain that a producer has made: its nodes have the ids of lower reports. -/
structure Producer.Made (producer : Producer env entries now)
    (history : List (Nat × Block)) (db : Database) (info : HeadInfo) : Prop where
  run : ProcessRun env entries history db
  asked : ∃ mid, (head env).Returns db info mid
  length : history.length = info.height.toNat
  ids : ∀ node ∈ db.index, db.heap.id node = .ok nullId ∨
    ∃ other, other.height < info.height ∧ db.heap.id node = .ok (producer.make other).id

/-- A producer makes an empty block for every head. -/
theorem Producer.Made.next {producer : Producer env entries now}
    (made : producer.Made history db info) (bounded : info.height ≤ irreversibleThreshold) :
    EmptyOnHead env entries db info now (producer.make info) := by
  refine ⟨producer.valid info bounded, ?_, producer.onHead info, producer.suits info,
    producer.empty info, producer.signed info⟩
  have tracked := made.run.tracked
  obtain ⟨found, looked⟩ := findAmong_returns tracked.rooted.backed (producer.make info).id
    tracked.inside
  cases found with
  | none => exact looked
  | some node =>
    obtain ⟨named, mem⟩ := id_of_findAmong looked
    rcases made.ids node mem with isNull | ⟨other, lower, isOther⟩
    · exact absurd (Except.ok.inj (named.symm.trans isNull)) (producer.notNull info)
    · have same := producer.apart _ _ (Except.ok.inj (named.symm.trans isOther))
      rw [same] at lower
      exact absurd lower (UInt64.lt_irrefl _)

/-- A producer comes one block further. -/
theorem Producer.Made.step {producer : Producer env entries now}
    (made : producer.Made history db info) (below : info.height < irreversibleThreshold) :
    ∃ history after next, producer.Made history after next ∧ next.height = info.height + 1 := by
  obtain ⟨mid, asked⟩ := made.asked
  have next := made.next (UInt64.le_of_lt below)
  obtain ⟨receipt, after, gave, isHead⟩ := next.accepted made.run asked below
  obtain ⟨higher, -⟩ := succ_of_below below
  have longer := made.run.accepted gave
  have tracked := made.run.tracked
  obtain ⟨parent, checked, context, acceptance⟩ := tracked.acceptance gave
  have link := longer.chained.links db.heap.size (producer.make info)
    (List.mem_append_right _ List.mem_cons_self)
  obtain ⟨node, height, headed⟩ := longer.headed
  obtain rfl := Option.some.inj (isHead.symm.trans headed.isHead)
  obtain rfl := Except.ok.inj (link.revised.symm.trans headed.revised)
  obtain ⟨report, reported, content, answers, isHeight, -⟩ := longer.head_answers headed
  rw [(producer.suits info).1] at isHeight
  refine ⟨_, after, report, ⟨longer, ⟨reported, answers⟩, ?_, fun node mem => ?_⟩, isHeight⟩
  · rw [List.length_append, made.length, isHeight, toNat_succ_of_below below]
    rfl
  rw [isHeight]
  rw [acceptance.index] at mem
  rcases List.mem_append.mp mem with old | new
  · rw [acceptance.carried.ids node (tracked.inside node old)]
    refine (made.ids node old).imp_right ?_
    rintro ⟨other, lower, named⟩
    exact ⟨other, UInt64.lt_trans lower higher, named⟩
  · rw [List.mem_singleton.mp new]
    exact .inr ⟨info, higher, link.named⟩

/-- A producer brings the chain to every height up to the threshold. -/
theorem Producer.reaches (producer : Producer env entries now)
    (opens : (openController env entries false).Returns Database.empty () db)
    (count : Nat) (bounded : count ≤ irreversibleThreshold.toNat) :
    ∃ history db info, producer.Made history db info ∧ info.height.toNat = count := by
  induction count with
  | zero =>
    have run : ProcessRun env entries [] db := .opened opens
    obtain ⟨node, height, headed⟩ := run.headed
    obtain ⟨info, mid, -, answers, isHeight, -⟩ := run.head_answers headed
    have isZero : height = 0 := by
      rcases headed.leads with ⟨-, -, isZero⟩ | ⟨earlier, _, _, split, -⟩
      · exact isZero
      · cases (List.append_eq_nil_iff.mp split.symm).2
    rw [isZero] at isHeight
    have onlyRoot : db.index = [0] := (openIndex_opens
      (writeAll_extends _ 0) (openIndex_of_openController opens)).2.2.1
    refine ⟨[], db, info, ⟨run, ⟨mid, answers⟩, by rw [isHeight]; rfl, ?_⟩,
      by rw [isHeight]; rfl⟩
    intro node mem
    rw [onlyRoot] at mem
    rw [List.mem_singleton.mp mem]
    exact .inl run.chained.tracked.genesis.2.1
  | succ count ih =>
    obtain ⟨history, db, info, made, isCount⟩ := ih (Nat.le_of_succ_le bounded)
    have below : info.height < irreversibleThreshold := by
      rw [UInt64.lt_iff_toNat_lt, isCount]
      exact bounded
    obtain ⟨history, after, next, madeNext, isHeight⟩ := made.step below
    refine ⟨history, after, next, madeNext, ?_⟩
    rw [isHeight, toNat_succ_of_below below, isCount]

/-- In every run no accepted block is above the irreversible threshold, on whatever fork. -/
theorem no_block_above_threshold (run : ProcessRun env entries history db) :
    (∀ node block, (node, block) ∈ history → block.height ≤ irreversibleThreshold) ∧
      ∀ block now receipt after, irreversibleThreshold < block.height →
        ¬ (processBlock env block now).Returns db (.ok receipt) after := by
  refine ⟨run.height_le, fun block now receipt after above gave => ?_⟩
  have bounded := (run.accepted gave).height_le db.heap.size block
    (List.mem_append_right _ List.mem_cons_self)
  exact absurd above (UInt64.not_lt.mpr bounded)

end OnHead

/-- An environment in which the id of a block shows its height. -/
def heightEnvironment : Env :=
  { Env.plain with crypto := { Env.plain.crypto with
      hash := fun bytes => SizedBytes.fit 32 (1 :: (bytes.drop 32).take 8) } }

/-- The block that follows a report there. -/
def heightBlock (info : HeadInfo) : Block :=
  let block : Block := ⟨SizedBytes.zero 32, info.id, info.height + 1, 2000, info.stateMerkleRoot,
    [], sampleSigner, SizedBytes.zero 64⟩
  { block with id := block.makeId heightEnvironment.crypto.hash }

def heightEntries : List GenesisEntry :=
  [⟨ObjectSpace.metadata, genesisKey heightEnvironment, sampleSigner.publicKey.1⟩]

/-- The id holds the height behind a mark. -/
theorem heightBlock_id (info : HeadInfo) :
    (heightBlock info).id = SizedBytes.fit 32 (1 :: storeWord (info.height + 1)) := by
  have isHeight : ((heightBlock info).stream.drop 32).take 8 = storeWord (info.height + 1) := by
    simp only [Block.stream, List.append_assoc]
    rw [List.drop_left' (heightBlock info).previous.2, List.take_left' (length_storeWord _)]
    rfl
  exact congrArg (fun bytes => SizedBytes.fit 32 (1 :: bytes)) isHeight

theorem height_of_fit (height : UInt64) :
    loadWord ((SizedBytes.fit 32 (1 :: storeWord height)).1.drop 1) = height :=
  loadWord_storeWord height

theorem heightBlock_valid (info : HeadInfo) (bounded : info.height ≤ irreversibleThreshold) :
    (heightBlock info).validate heightEnvironment.crypto = true := by
  have positive : info.height + 1 ≠ 0 := by
    intro isZero
    have small : info.height.toNat ≤ 60 := UInt64.le_iff_toNat_le.mp bounded
    have wraps := congrArg UInt64.toNat isZero
    rw [UInt64.toNat_add, show (1 : UInt64).toNat = 1 from rfl, UInt64.toNat_zero] at wraps
    omega
  simp only [Block.validate, Bool.and_eq_true, bne_iff_ne, beq_iff_eq]
  exact ⟨⟨⟨⟨⟨positive, show (2000 : UInt64) ≠ 0 by decide⟩, rfl⟩,
    show sampleSigner.user = true by decide⟩, rfl⟩, rfl⟩

theorem heightBlock_suits (info : HeadInfo) : Suits (heightBlock info) info 0 :=
  ⟨rfl, fun _ => rfl, show (0 : UInt64) < 2000 by decide,
    show (2000 : UInt64) ≤ timeUpperBound 0 by decide⟩

theorem heightBlock_signed : written (genesisWrites heightEntries) (fun _ => none)
    (makeCompoundKey ObjectSpace.metadata (genesisKey heightEnvironment)) =
      some sampleSigner.publicKey.1 := by
  decide +kernel

theorem heightBlock_notNull (info : HeadInfo) : (heightBlock info).id ≠ nullId := by
  rw [heightBlock_id]
  intro isNull
  cases congrArg (fun id => id.1.head?) isNull

theorem heightBlock_apart (info other : HeadInfo)
    (same : (heightBlock info).id = (heightBlock other).id) : info.height = other.height := by
  rw [heightBlock_id, heightBlock_id] at same
  have heights := congrArg (fun id => loadWord (id.1.drop 1)) same
  simp only [height_of_fit] at heights
  exact (UInt64.add_left_inj 1).mp heights

def heightProducer : Producer heightEnvironment heightEntries 0 where
  make := heightBlock
  valid := heightBlock_valid
  onHead _ := rfl
  suits := heightBlock_suits
  empty _ := rfl
  signed _ := heightBlock_signed
  notNull := heightBlock_notNull
  apart := heightBlock_apart

/-- A chain of sixty blocks, and the next block for it. -/
theorem sixtyBlocks : ∃ history db info, heightProducer.Made history db info ∧
    info.height = 60 := by
  have opens : (openController heightEnvironment heightEntries false).Returns Database.empty ()
      (openController heightEnvironment heightEntries false Database.empty).2 :=
    returns_of_fst (by decide +kernel)
  obtain ⟨history, db, info, made, isCount⟩ := heightProducer.reaches opens 60 (Nat.le_refl _)
  exact ⟨history, db, info, made, UInt64.toNat_inj.mp isCount⟩

/-- The theorem applies to sixty blocks, the highest of which is at the threshold. -/
theorem no_block_above_threshold_at_threshold :
    ∃ history db, ProcessRun heightEnvironment heightEntries history db ∧ history.length = 60 ∧
      ∀ block now receipt after, irreversibleThreshold < block.height →
        ¬ (processBlock heightEnvironment block now).Returns db (.ok receipt) after := by
  obtain ⟨history, db, info, made, isHeight⟩ := sixtyBlocks
  exact ⟨history, db, made.run, by rw [made.length, isHeight]; rfl,
    (no_block_above_threshold made.run).2⟩

/-- The theorem applies to sixty blocks, on which the next block is the last. -/
theorem empty_block_on_head_at_threshold :
    ∃ history db block, ProcessRun heightEnvironment heightEntries history db ∧
      history.length = 60 ∧
        (processBlock heightEnvironment block 0).Faults db .nullDereference := by
  obtain ⟨history, db, info, made, isHeight⟩ := sixtyBlocks
  obtain ⟨mid, asked⟩ := made.asked
  refine ⟨history, db, heightBlock info, made.run, by rw [made.length, isHeight]; rfl, ?_⟩
  exact (empty_block_on_head made.run asked (made.next (UInt64.le_of_eq isHeight))).2
    (UInt64.le_of_eq isHeight.symm)

end Respublica.Controller
