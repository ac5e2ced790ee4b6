import Respublica.Controller.Agreement
import Respublica.Controller.Replay

/-!
# Accepted blocks form a linked chain

The checks of a block are spread over its validation, over `process`, which has a branch of its
own for the first block, and over the application. Together they link every finalized node to
the one before it: by id, by height, by the state root that the block names, and by the
genesis key. A link is made when a block is accepted and nothing undoes it, since finalized
nodes keep their ids, revisions, contents and cached roots.
-/

namespace Respublica.Controller

open Foundation Effect Crypto Program Protocol StateDb Heap

variable {env : Env} {entries : List GenesisEntry} {history : List (Nat × Block)}
  {db after : Database} {root node : Nat} {block : Block} {now : Int}

/-- A node and the block it was made for: it has the block's id and height, and the block's
predecessor is a finalized node that shows the key of the block's signer as the genesis key and
that answers with the state root that the block names. -/
structure Linked (env : Env) (db : Database) (node : Nat) (block : Block) :
    Prop where
  named : db.heap.id node = .ok block.id
  revised : db.heap.revision node = .ok block.height
  parent : ∃ parent ∈ db.index, db.heap.parent? node = some parent ∧
    db.heap.final parent = true ∧ db.heap.id parent = .ok block.previous ∧
    db.heap.get parent (makeCompoundKey ObjectSpace.metadata
      (Context.genesisKey env)) = .ok (some block.signer.publicKey.1) ∧
    (block.previous ≠ nullId → ∃ heap, (merkleRoot env.crypto.hash parent).Returns db.heap
        block.stateMerkleRoot heap)

/-- What is kept about deltas of a run: all but the contents of those from the limit on. -/
structure Carried (limit : Nat) (before after : Database) : Prop where
  size : before.heap.size ≤ after.heap.size
  index : ∀ node ∈ before.index, node ∈ after.index
  parents : ∀ node < before.heap.size, after.heap.parent? node = before.heap.parent? node
  ids : ∀ node < before.heap.size, after.heap.id node = before.heap.id node
  revisions : ∀ node < before.heap.size, after.heap.revision node = before.heap.revision node
  finals : ∀ node < before.heap.size, before.heap.final node = true → after.heap.final node = true
  views : ∀ node < before.heap.size, node < limit → after.heap.view node = before.heap.view node
  roots : ∀ node < before.heap.size, ∀ root,
    before.heap.cachedRoot node = some root → after.heap.cachedRoot node = some root

namespace Carried

variable {limit : Nat}

instance : IsTrans Database (Carried limit) := by
  refine ⟨fun before middle after first second =>
    ⟨Nat.le_trans first.size second.size, fun node mem => second.index node (first.index node mem),
      ?_, ?_, ?_, ?_, ?_, ?_⟩⟩
  all_goals intro node inside
  all_goals have insideMiddle := Nat.lt_of_lt_of_le inside first.size
  · exact (second.parents node insideMiddle).trans (first.parents node inside)
  · exact (second.ids node insideMiddle).trans (first.ids node inside)
  · exact (second.revisions node insideMiddle).trans (first.revisions node inside)
  · exact fun isFinal => second.finals node insideMiddle (first.finals node inside isFinal)
  · exact fun below => (second.views node insideMiddle below).trans (first.views node inside below)
  · exact fun root cached => second.roots node insideMiddle root
      (first.roots node inside root cached)

/-- Settled heaps are carried, if the index has grown. -/
theorem of_heap (settled : Heap.Settled limit db.heap after.heap)
    (index : ∀ node ∈ db.index, node ∈ after.index) : Carried limit db after :=
  ⟨settled.size, index, settled.parents, fun _ inside => settled.id inside,
    fun _ inside => settled.revision inside,
    fun _ inside isFinal => (settled.final inside).trans isFinal,
    fun _ inside below => settled.view inside below, settled.roots⟩

theorem of_settled (settled : Database.Settled limit db after) :
    Carried limit db after :=
  of_heap settled.heap fun _ mem => settled.index ▸ mem

/-- Making a node final carries everything. -/
theorem finalized (db : Database) (node : Nat) (head : Option Nat) (forkHeads : Finset Nat) :
    Carried limit db { db with
      heap := db.heap.update node fun delta => { delta with final := true }
      head := head
      forkHeads := forkHeads } := by
  refine ⟨by simp, fun _ mem => mem, by simp, ?_, ?_, ?_, ?_, ?_⟩
  · intro other _
    rw [Heap.id, Heap.backend_finalized, ← Heap.id]
  · exact fun other _ => Heap.revision_finalized db.heap node other
  · intro other inside isFinal
    by_cases here : node = other
    · exact (final_finalized (here ▸ inside) other).mpr (.inl here.symm)
    · rwa [final, Forest.node?_update, if_neg here, ← final]
  · intro other _ _
    rw [view, abstraction_finalized, ← view]
  · intro other _ root cached
    rw [cachedRoot, Forest.node?_update]
    split
    · rw [Option.bind_map]
      exact cached
    · exact cached

end Carried

/-- The same in the terms in which it is carried along: what the predecessor shows, and the
state root it has cached. -/
structure Link (env : Env) (db : Database) (node : Nat) (block : Block) :
    Prop where
  inside : node < db.heap.size
  named : db.heap.id node = .ok block.id
  revised : db.heap.revision node = .ok block.height
  parent : ∃ parent ∈ db.index, db.heap.parent? node = some parent ∧
    db.heap.final parent = true ∧ db.heap.id parent = .ok block.previous ∧
    db.heap.view parent (makeCompoundKey ObjectSpace.metadata
      (Context.genesisKey env)) = some block.signer.publicKey.1 ∧
    (block.previous ≠ nullId → db.heap.cachedRoot parent = some block.stateMerkleRoot)

namespace Link

/-- Links are carried. -/
theorem carried (link : Link env db node block)
    (carried : Carried db.heap.size db after) : Link env after node block := by
  obtain ⟨parent, indexed, points, isFinal, named, signer, root⟩ := link.parent
  have parentInside := Nat.lt_trans (Forest.parent?_lt points) link.inside
  refine ⟨Nat.lt_of_lt_of_le link.inside carried.size,
    (carried.ids node link.inside).trans link.named,
    (carried.revisions node link.inside).trans link.revised, parent, carried.index parent indexed,
    (carried.parents node link.inside).trans points, carried.finals parent parentInside isFinal,
    (carried.ids parent parentInside).trans named, ?_, fun later =>
      carried.roots parent parentInside _ (root later)⟩
  rw [carried.views parent parentInside parentInside]
  exact signer

/-- A link is what is claimed of accepted blocks. -/
theorem linked (link : Link env db node block) (backed : db.heap.Backed) :
    Linked env db node block := by
  obtain ⟨parent, indexed, points, isFinal, named, signer, root⟩ := link.parent
  have parentInside := Nat.lt_trans (Forest.parent?_lt points) link.inside
  refine ⟨link.named, link.revised, parent, indexed, points, isFinal, named, ?_, fun later => ?_⟩
  · rw [get_of_backed backed parentInside, signer]
  · obtain ⟨delta, own, found, stored, -⟩ := backend_of_backed backed parentInside
    have cached := root later
    rw [cachedRoot, found] at cached
    rw [Heap.final_eq found] at isFinal
    refine ⟨_, (Heap.returns_merkleRoot found stored).mpr ⟨isFinal, ?_, rfl⟩⟩
    rw [Heap.currentRoot, show delta.merkleRoot = some block.stateMerkleRoot from cached]
    rfl

end Link

/-- The height that is reported is the revision. -/
theorem height_of_headInfo {info : HeadInfo}
    (gave : (headInfo env node).Returns db info after) :
    db.heap.revision node = .ok info.height := by
  simp only [headInfo, returns_bind, returns_read, returns_ofExcept, returns_pure] at gave
  obtain ⟨_, _, ⟨rfl, rfl⟩, _, _, ⟨-, rfl⟩, height, _, ⟨revised, rfl⟩, _, _, -, _, _, -, rfl, -⟩ :=
    gave
  exact revised

/-- A block that passed its checks has the height after its predecessor's and names the root
that its predecessor has cached by then; as a first block it has height one. -/
theorem checkBlock_passed {parent : Nat} (backed : db.heap.Backed)
    (inside : parent < db.heap.size)
    (gave : (checkBlock env block parent now).Returns db (.ok ()) after) :
    if block.previous = nullId then block.height = 1
    else (∃ revision, db.heap.revision parent = .ok revision ∧ block.height = revision + 1) ∧
      after.heap.cachedRoot parent = some block.stateMerkleRoot := by
  unfold checkBlock at gave
  split at gave
  · rename_i isFirst
    rw [if_pos isFirst]
    split at gave
    · cases (returns_pure.mp gave).1
    · rename_i height
      exact not_not.mp height
  · rename_i isLater
    rw [if_neg isLater]
    obtain ⟨root, cached, caches, compared⟩ := returns_bind.mp gave
    split at compared
    · cases (returns_pure.mp compared).1
    rename_i sameRoot
    obtain ⟨info, informed, informs, measured⟩ := returns_bind.mp compared
    split at measured
    · cases (returns_pure.mp measured).1
    rename_i height
    obtain ⟨-, rfl⟩ := returns_pure.mp measured
    have cacheSettled : Database.Settled 0 db cached :=
      (Database.onHeap_settled (merkleRoot_settled _ _)).of_returns caches
    have infoSettled : Database.Settled 0 cached after :=
      (headInfo_settled parent).of_returns informs
    obtain ⟨heap, cachesHeap, rfl⟩ := returns_merkleRoot.mp caches
    obtain ⟨delta, own, found, stored, -⟩ := Heap.backend_of_backed backed inside
    obtain ⟨-, -, rfl⟩ := (Heap.returns_merkleRoot found stored).mp cachesHeap
    refine ⟨⟨info.height, ?_, not_not.mp height⟩, ?_⟩
    · rw [← cacheSettled.heap.revision inside, height_of_headInfo informs]
    · rw [not_not.mp sameRoot]
      refine infoSettled.heap.roots parent (by simpa using inside) root ?_
      simp [cachedRoot, found]

/-- What holds of a controller's database: its blocks are tracked and linked, and only the
root, of revision zero, has the null id. -/
structure Chained (env : Env) (history : List (Nat × Block)) (db : Database)
    (root : Nat) : Prop where
  tracked : Tracked history db root
  rootRevised : db.heap.revision root = .ok 0
  nullRoot : ∀ node ∈ db.index, db.heap.id node = .ok nullId → node = root
  links : ∀ node block, (node, block) ∈ history → Link env db node block

namespace Chained

/-- Settled work leaves the chain as it is. -/
theorem settled (chained : Chained env history db root)
    (settled : Database.Settled db.heap.size db after) :
    Chained env history after root := by
  have carried := Carried.of_settled settled
  refine ⟨chained.tracked.settled settled,
    (carried.revisions root chained.tracked.rooted.inside).trans chained.rootRevised, ?_,
    fun node block mem => (chained.links node block mem).carried carried⟩
  intro node mem named
  rw [settled.index] at mem
  rw [carried.ids node (chained.tracked.inside node mem)] at named
  exact chained.nullRoot node mem named

/-- A block that is evaluated on a new child and not accepted leaves that child behind. -/
theorem left (chained : Chained env history db root) {parent : Nat} {own : Backend}
    (extends_ : Extends block db parent) (backs : db.heap.backend parent = .ok own)
    (settled : Database.Settled db.heap.size (withChild db parent own block.id) after) :
    Chained env history after root := by
  have tracked := chained.tracked
  have pushed : Heap.Settled db.heap.size db.heap
      (withChild db parent own block.id).heap := settled_makeChild backs block.id
  have carried : Carried db.heap.size db after := by
    refine Carried.of_heap (IsTrans.trans _ _ _ pushed settled.heap) fun node mem => ?_
    rw [settled.index]
    exact List.mem_append_left _ mem
  obtain ⟨-, childNamed, -⟩ := tracked.child_outcome extends_ backs
  refine ⟨(tracked.withChild backs block.id).settled settled,
    (carried.revisions root tracked.rooted.inside).trans chained.rootRevised, ?_,
    fun node block mem => (chained.links node block mem).carried carried⟩
  intro node mem named
  rw [settled.index] at mem
  rcases List.mem_append.mp mem with old | new
  · rw [carried.ids node (tracked.inside node old)] at named
    exact chained.nullRoot node old named
  · obtain rfl := List.mem_singleton.mp new
    rw [settled.heap.id (lt_size_withChild db parent own block.id), childNamed] at named
    exact absurd (Except.ok.inj named) (tracked.id_ne_nullId extends_)

end Chained

namespace Acceptance

variable {checked : Database} {context : Context} {parent : Nat}

section

variable (acceptance : Acceptance env block now db after parent checked context)
include acceptance

/-- From its checks on, an accepted block keeps what there was before its node. -/
theorem carried_checked :
    Carried db.heap.size checked after := by
  obtain ⟨head, forkHeads, -, settled⟩ := acceptance.finalized
  exact IsTrans.trans _ _ _ (Carried.of_settled acceptance.settled) (IsTrans.trans _ _ _
    (Carried.finalized _ db.heap.size (some head) forkHeads)
    (Carried.of_settled (settled db.heap.size)))

/-- An accepted block carries what was there. -/
theorem carried :
    Carried db.heap.size db after := by
  obtain ⟨own, backs, -, checkSettled⟩ := acceptance.child
  have pushed : Carried db.heap.size db (withChild db parent own block.id) :=
    Carried.of_heap (settled_makeChild backs block.id) fun _ => List.mem_append_left _
  exact IsTrans.trans _ _ _ pushed
    (IsTrans.trans _ _ _ (Carried.of_settled checkSettled) acceptance.carried_checked)

/-- The node that an accepted block extends. -/
theorem parent_indexed :
    db.heap.id parent = .ok block.previous ∧ parent ∈ db.index :=
  Database.id_of_findAmong acceptance.extends_.named

/-- An accepted block has the height after that of the node it extends. -/
theorem height (chained : Chained env history db root) {own : Backend}
    (backs : db.heap.backend parent = .ok own) : block.height = own.revision + 1 := by
  obtain ⟨named, indexed⟩ := acceptance.parent_indexed
  have parentInside := chained.tracked.inside parent indexed
  have ownRevised := revision_of_backend backs
  obtain ⟨sameOwn, sameBackend, checks, -⟩ := acceptance.child
  obtain rfl := Except.ok.inj (backs.symm.trans sameBackend)
  have grown := lt_size_withChild db parent own block.id
  have passed := checkBlock_passed (chained.tracked.withChild backs block.id).rooted.backed
    (Nat.lt_trans parentInside grown) checks
  split at passed
  · -- A first block extends the root, which is the only node with the null id.
    rename_i isFirst
    obtain rfl := chained.nullRoot parent indexed (isFirst ▸ named)
    rw [passed, Except.ok.inj (ownRevised.symm.trans chained.rootRevised)]
    rfl
  · obtain ⟨⟨revision, revised, height⟩, -⟩ := passed
    have pushed : (withChild db parent own block.id).heap.revision parent =
        db.heap.revision parent := revision_push_of_lt parentInside
    rw [pushed, ownRevised] at revised
    rw [height, Except.ok.inj revised]

/-- An accepted block is linked to its predecessor. -/
theorem link (chained : Chained env history db root) :
    Link env after db.heap.size block := by
  obtain ⟨own, backs, checks, checkSettled⟩ := acceptance.child
  obtain ⟨named, indexed⟩ := acceptance.parent_indexed
  obtain ⟨receipt, applied⟩ := acceptance.applied
  have tracked := chained.tracked
  have parentInside := tracked.inside parent indexed
  have childInside := lt_size_withChild db parent own block.id
  have checkedInside := Nat.lt_of_lt_of_le childInside checkSettled.heap.size
  have carried := acceptance.carried
  have carriedChecked := acceptance.carried_checked
  obtain ⟨-, childNamed, childPoints, -, -⟩ := tracked.child_outcome acceptance.extends_ backs
  refine ⟨Nat.lt_of_lt_of_le checkedInside carriedChecked.size, ?_, ?_, parent,
    carried.index parent indexed, ?_, carried.finals parent parentInside acceptance.extends_.final,
    (carried.ids parent parentInside).trans named, ?_, fun later => ?_⟩
  · rw [carriedChecked.ids _ checkedInside, checkSettled.heap.id childInside, childNamed]
  · rw [carriedChecked.revisions _ checkedInside, checkSettled.heap.revision childInside,
      revision_withChild, acceptance.height chained backs]
  · rw [carriedChecked.parents _ checkedInside, checkSettled.heap.parents _ childInside,
      childPoints]
  · have signed := Context.applyBlock_signed applied
    have shown := get_of_checked tracked backs checks
      (makeCompoundKey ObjectSpace.metadata (Context.genesisKey env))
    rw [carried.views parent parentInside parentInside]
    exact Except.ok.inj (shown.symm.trans signed)
  · have passed := checkBlock_passed (tracked.withChild backs block.id).rooted.backed
      (Nat.lt_trans parentInside childInside) checks
    rw [if_neg later] at passed
    refine carriedChecked.roots parent ?_ _ passed.2
    exact Nat.lt_trans parentInside checkedInside

end

end Acceptance

namespace Chained

/-- An accepted block continues the chain. -/
theorem accept (chained : Chained env history db root) {checked : Database}
    {context : Context} {parent : Nat}
    (acceptance : Acceptance env block now db after parent checked context) :
    Chained env (history ++ [(db.heap.size, block)]) after root := by
  have carried := acceptance.carried
  have link := acceptance.link chained
  refine ⟨chained.tracked.accept acceptance,
    (carried.revisions root chained.tracked.rooted.inside).trans chained.rootRevised, ?_, ?_⟩
  · obtain ⟨own, backs, -, checkSettled⟩ := acceptance.child
    obtain ⟨head, forkHeads, -, settled⟩ := acceptance.finalized
    intro node mem named
    rw [(settled 0).index, show checked.index = _ from checkSettled.index] at mem
    rcases List.mem_append.mp mem with old | new
    · rw [carried.ids node (chained.tracked.inside node old)] at named
      exact chained.nullRoot node old named
    · obtain rfl := List.mem_singleton.mp new
      rw [link.named] at named
      exact absurd (Except.ok.inj named) (chained.tracked.id_ne_nullId acceptance.extends_)
  · intro node other mem
    rcases List.mem_append.mp mem with old | new
    · exact (chained.links node other old).carried carried
    · obtain ⟨rfl, rfl⟩ := Prod.mk.inj (List.mem_singleton.mp new)
      exact link

theorem refuse (chained : Chained env history db root) {error : ErrorCode}
    (gave : (processBlock env block now).Returns db (.error error) after) :
    Chained env history after root := by
  rcases processBlock_outcome gave with ⟨rfl, -⟩ |
    ⟨parent, own, -, -, extends_, backs, evaluated⟩
  · exact chained
  · exact chained.left extends_ backs (evaluateBlock_refused evaluated)

end Chained

/-- A block that stops without making another one irreversible leaves the chain as it was. -/
theorem Chained.stop (chained : Chained env history db root) {fault : Fault}
    (reversible : ∀ parent, Extends block db parent → ¬ MakesIrreversible db parent)
    (stopped : (processBlock env block now).Stops db fault after) :
    Chained env history after root := by
  rcases processBlock_stopped chained.tracked stopped with
    rfl | ⟨parent, own, extends_, backs, evaluating⟩
  · exact chained
  · exact chained.left extends_ backs (leftBehind_of_stopped chained.tracked backs
      (reversible parent extends_) evaluating).settled

/-- Every run is chained from the root that opening creates. -/
theorem ProcessRun.chained (run : ProcessRun env entries history db) :
    Chained env history db 0 := by
  induction run with
  | opened gave =>
    obtain ⟨tracked, onlyRoot, -, -⟩ := tracked_of_openController gave
    refine ⟨tracked, Database.openIndex_revision (openIndex_of_openController gave), ?_,
      fun _ _ mem => absurd mem List.not_mem_nil⟩
    intro node mem _
    rw [onlyRoot] at mem
    exact List.mem_singleton.mp mem
  | accepted _ gave ih =>
    obtain ⟨parent, checked, context, acceptance⟩ := ih.tracked.acceptance gave
    exact ih.accept acceptance
  | refused _ gave ih => exact ih.refuse gave
  | threw _ reversible stopped ih => exact ih.stop reversible stopped
  | @transaction _ db tx _ ih =>
    exact ih.settled (processTransaction_settled db tx)

/-- In every run of a controller over arbitrary blocks and transactions, up to the first block
that makes another one irreversible, every finalized node of the index other than the root was
made for an accepted block and is linked to its predecessor. -/
theorem accepted_blocks_linked (run : ProcessRun env entries history db) :
    ∀ node ∈ db.index, db.heap.final node = true → db.root ≠ some node →
      ∃ block, (node, block) ∈ history ∧ Linked env db node block := by
  intro node mem isFinal notRoot
  have chained := run.chained
  rcases chained.tracked.accepted node mem isFinal with top | ⟨block, accepted⟩
  · have isRoot := (chained.tracked.rooted.top node (chained.tracked.inside node mem)).mp top
    exact absurd chained.tracked.rooted.isRoot (isRoot ▸ notRoot)
  · exact ⟨block, accepted,
      (chained.links node block accepted).linked chained.tracked.rooted.backed⟩

/-- The second of two blocks is linked to the first. -/
theorem accepted_blocks_linked_after_second :
    ∃ block, (2, block) ∈ [(1, sampleFirst), (2, secondBlock 3000)] ∧
      Linked .plain (afterSecond 3000) 2 block := by
  have run : ProcessRun .plain sampleEntries _ (afterSecond 3000) :=
    run_afterSecond (by decide +kernel)
  exact accepted_blocks_linked run 2 (by decide +kernel) (by decide +kernel) (by decide +kernel)

end Respublica.Controller
