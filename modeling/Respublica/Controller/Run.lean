import Respublica.Controller.Process
import Respublica.Controller.Settling
import Respublica.StateDb.Reset

/-!
# What processing a block does

`process` looks up the predecessor of a block, makes a node for the block, checks and applies
the block there and accepts it. This is what each of these stages does to the database, and what
comes of the block as a whole. A block that makes another one irreversible is applied and its
node is final, but `process` then commits a node, and no commit returns.
-/

namespace Respublica.Controller

open Foundation Effect Crypto Program Protocol StateDb Forest Context Heap Database

variable {env : Env} {block : Block} {now : Int}

variable {id : StateNodeId} {before after : Database} {parent node root : Nat} {error : ErrorCode}
  {receipt : BlockReceipt} {revision rootRevision : UInt64}

/-- A lookup leaves the database alone. -/
theorem returns_get {found : Option Nat} :
    (get id).Returns before found after ↔
      before.isOpen = true ∧ before.find id = .ok found ∧ after = before := by
  simp only [Database.get, returns_bind, Database.returns_requireOpen, returns_read,
    returns_ofExcept]
  constructor
  · rintro ⟨_, _, ⟨isOpen, rfl⟩, _, _, ⟨rfl, rfl⟩, looked, rfl⟩
    exact ⟨isOpen, looked, rfl⟩
  · rintro ⟨isOpen, looked, rfl⟩
    exact ⟨(), after, ⟨isOpen, rfl⟩, after, after, ⟨rfl, rfl⟩, looked, rfl⟩

/-- A block that can be applied on a node: it is not known, and the node is the final one that
it names as its predecessor. -/
structure Extends (block : Block) (db : Database) (parent : Nat) : Prop where
  unknown : db.find block.id = .ok none
  named : db.find block.previous = .ok (some parent)
  final : db.heap.final parent = true

/-- Looking for the predecessor changes nothing, and finds the node the block extends if
there is one. -/
theorem findParent_outcome {result : Result Nat}
    (gave : (findParent block).Returns before result after) :
    after = before ∧ before.isOpen = true ∧
      (∀ parent, result = .ok parent ↔ Extends block before parent) := by
  simp only [findParent, returns_bind, returns_get, returns_read] at gave
  obtain ⟨blockNode, _, ⟨opened, blockLooked, rfl⟩, parentNode, _, ⟨-, parentLooked, rfl⟩, _,
    db, ⟨rfl, rfl⟩, rest⟩ := gave
  have extends_iff (parent : Nat) : Extends block db parent ↔
      blockNode = none ∧ parentNode = some parent ∧ db.heap.final parent = true := by
    constructor
    · intro extends_
      exact ⟨Except.ok.inj (blockLooked.symm.trans extends_.unknown),
        Except.ok.inj (parentLooked.symm.trans extends_.named), extends_.final⟩
    · rintro ⟨rfl, rfl, final⟩
      exact ⟨blockLooked, parentLooked, final⟩
  simp only [extends_iff]
  cases blockNode with
  | some known =>
    obtain ⟨rfl, rfl⟩ := returns_pure.mp rest
    exact ⟨rfl, opened, by simp⟩
  | none =>
    cases parentNode with
    | none =>
      simp only [Option.isSome_none, Bool.false_eq_true, if_false, returns_bind,
        returns_expect, returns_ofExcept, returns_ite,
        returns_pure] at rest
      obtain ⟨root, _, ⟨-, rfl⟩, revision, _, ⟨-, rfl⟩, rest⟩ := rest
      split at rest
      · obtain ⟨rfl, rfl⟩ := rest
        exact ⟨rfl, opened, by simp⟩
      · obtain ⟨rootId, _, ⟨-, rfl⟩, rest⟩ := rest
        split at rest <;> obtain ⟨rfl, rfl⟩ := rest <;> exact ⟨rfl, opened, by simp⟩
    | some parent =>
      simp only [Option.isSome_none, Bool.false_eq_true, if_false, returns_ite,
        returns_pure] at rest
      split at rest <;> obtain ⟨rfl, rfl⟩ := rest
      · rename_i isFinal
        refine ⟨rfl, opened, fun other => ?_⟩
        simp only [Except.ok.injEq, true_and, Option.some.injEq]
        exact ⟨fun same => ⟨same, same ▸ isFinal⟩, fun both => both.1⟩
      · rename_i notFinal
        refine ⟨rfl, opened, fun other => ?_⟩
        simp only [reduceCtorEq, true_and, Option.some.injEq, false_iff, not_and]
        rintro rfl
        exact notFinal

/-- A block that extends a node finds it. -/
theorem findParent_returns {db : Database} (opened : db.isOpen = true)
    (extends_ : Extends block db parent) :
    (findParent block).Returns db (.ok parent) db := by
  simp only [findParent, returns_bind, returns_get, returns_read]
  refine ⟨none, db, ⟨opened, extends_.unknown, rfl⟩, some parent, db,
    ⟨opened, extends_.named, rfl⟩, db, db, ⟨rfl, rfl⟩, ?_⟩
  simp only [Option.isSome_none, Bool.false_eq_true, if_false, extends_.final, if_true]
  exact returns_pure.mpr ⟨rfl, rfl⟩

/-- Looking for the predecessor of a block changes nothing, whatever comes of it. -/
theorem findParent_keeps : (findParent block).Keeps (Eq : Database → Database → Prop) := by
  have gets := get_keeps
  refine keeps_bind (gets _) fun known => keeps_bind (gets _) fun previous => ?_
  refine keeps_bind keeps_read fun db => keeps_ite (keeps_pure _) ?_
  cases previous with
  | some parent => exact keeps_ite (keeps_pure _) (keeps_pure _)
  | none =>
    refine keeps_bind (keeps_expect _ _) fun _ => ?_
    refine keeps_bind (keeps_ofExcept _) fun _ => ?_
    refine keeps_ite (keeps_pure _) ?_
    exact keeps_bind (keeps_ofExcept _) fun _ =>
      keeps_ite (keeps_pure _) (keeps_pure _)

/-- A child that was created and indexed. -/
theorem returns_makeChild
    (gave : (PermanentNode.makeChild parent id).Returns before node after) :
    ∃ own, before.heap.backend parent = .ok own ∧ node = before.heap.size ∧
      after = { before with
        heap := before.heap.push (some parent) (childOf own id)
        index := before.index ++ [before.heap.size] } := by
  obtain ⟨child, _, made, adding⟩ := returns_bind.mp gave
  obtain ⟨heap, madeHeap, rfl⟩ := returns_within.mp made
  obtain ⟨own, backs, rfl, rfl⟩ := Heap.returns_makeChild.mp madeHeap
  obtain ⟨_, _, added, ended⟩ := returns_bind.mp adding
  obtain ⟨rfl, rfl⟩ := returns_pure.mp ended
  obtain ⟨inserted, mid, inserts, rest⟩ := returns_bind.mp added
  obtain ⟨sameHeap, sameRoot, sameHead, sameForkHeads, index⟩ := heap_of_insert inserts
  cases inserted with
  | false => exact absurd rest not_returns_fail
  | true =>
    obtain ⟨-, rfl⟩ := returns_pure.mp rest
    refine ⟨own, backs, rfl, ?_⟩
    cases after
    simp_all

section Stages

variable {limit : Nat}

/-- Asking for the head settles everything. -/
theorem headInfo_settled (node : Nat) :
    (headInfo env node).Keeps (Database.Settled limit) := by
  refine keeps_bind keeps_read fun _ => ?_
  refine keeps_bind (keeps_ofExcept _) fun _ => ?_
  refine keeps_bind (keeps_ofExcept _) fun _ => ?_
  refine keeps_bind (keeps_ofExcept _) fun _ => ?_
  exact keeps_bind (onHeap_settled (merkleRoot_settled _ _)) fun _ =>
    keeps_pure _

/-- Checking a block caches Merkle roots at most. -/
theorem checkBlock_settled (parent : Nat) :
    (checkBlock env block parent now).Keeps (Database.Settled limit) := by
  refine keeps_ite (keeps_ite (keeps_pure _) (keeps_pure _)) ?_
  refine keeps_bind (onHeap_settled (merkleRoot_settled _ _)) fun _ => ?_
  refine keeps_ite (keeps_pure _) ?_
  exact keeps_bind (headInfo_settled _) fun _ =>
    keeps_ite (keeps_pure _) (keeps_pure _)

/-- A context for a node at or above the limit settles what is below. -/
theorem inContext_settled {Value : Type} {node : Nat} {intent : Intent} {routine : Run Value}
    (keeps : routine.Keeps (Beyond limit (Heap.Settled limit))) (above : limit ≤ node) :
    (inContext node intent routine).Keeps (Database.Settled limit) := by
  intro before
  have settled := (keeps (Context.create before.heap node intent) above).2
  exact ⟨settled, rfl, rfl, rfl, rfl⟩

end Stages

/-- The database with a new indexed child, before anything is checked or written. -/
def withChild (db : Database) (parent : Nat) (own : Backend) (id : StateNodeId) : Database :=
  { db with
    heap := db.heap.push (some parent) (childOf own id)
    index := db.index ++ [db.heap.size] }

theorem node?_withChild (db : Database) (parent : Nat) (own : Backend) (id : StateNodeId) :
    (withChild db parent own id).heap.node? db.heap.size = some (childOf own id) :=
  node?_push_self _ _ _

theorem lt_size_withChild (db : Database) (parent : Nat) (own : Backend) (id : StateNodeId) :
    db.heap.size < (withChild db parent own id).heap.size :=
  lt_size_of_node? (node?_withChild db parent own id)

/-- Processing a block changes nothing if the block is malformed or extends no node;
otherwise it evaluates the block on a new child of the node. -/
theorem processBlock_outcome {result : Result BlockReceipt}
    (gave : (processBlock env block now).Returns before result after) :
    (after = before ∧ ∃ error, result = .error error ∧
      (block.validate env.crypto = false ∧ error = .controller .malformedBlock ∨
        (∀ parent, ¬ Extends block before parent) ∧
          (findParent block).Returns before (.error error) before)) ∨
    ∃ parent own, block.validate env.crypto = true ∧ before.isOpen = true ∧
      Extends block before parent ∧ before.heap.backend parent = .ok own ∧
      (evaluateBlock env block parent before.heap.size now).Returns
        (withChild before parent own block.id) result after := by
  unfold processBlock at gave
  split at gave
  · rename_i malformed
    obtain ⟨rfl, rfl⟩ := returns_pure.mp gave
    exact .inl ⟨rfl, _, rfl, .inl ⟨by simpa using malformed, rfl⟩⟩
  · rename_i valid
    obtain ⟨found, _, looked, rest⟩ := returns_bind.mp gave
    obtain ⟨rfl, opened, extends_iff⟩ := findParent_outcome looked
    cases found with
    | error error =>
      obtain ⟨rfl, rfl⟩ := returns_pure.mp rest
      refine .inl ⟨rfl, error, rfl, .inr ⟨fun parent extends_ => ?_, looked⟩⟩
      cases (extends_iff parent).mpr extends_
    | ok parent =>
      obtain ⟨node, _, made, evaluated⟩ := returns_bind.mp rest
      obtain ⟨own, backs, rfl, rfl⟩ := returns_makeChild made
      exact .inr ⟨parent, own, by simpa using valid, opened, (extends_iff parent).mp rfl,
        backs, evaluated⟩

/-- A block that was evaluated and not accepted was left after its checks or after it was
applied. -/
def LeftBehind (env : Env) (block : Block) (parent node : Nat) (now : Int)
    (before after : Database) : Prop :=
  after = (checkBlock env block parent now before).2 ∨
    ∃ checked, (checkBlock env block parent now).Returns before (.ok ()) checked ∧
      after = (inContext node .blockApplication (applyBlock env block) checked).2

/-- Applying a block settles what is below its node. -/
theorem applyBlock_settled (node : Nat) :
    (inContext node .blockApplication (applyBlock env block)).Keeps
      (Database.Settled node) :=
  inContext_settled (applyBlock_beyond shelters_settled block) (Nat.le_refl node)

/-- A block that is left behind leaves everything but its node as it was. -/
theorem LeftBehind.settled (left : LeftBehind env block parent node now before after) :
    Database.Settled node before after := by
  rcases left with rfl | ⟨checked, checks, rfl⟩
  · exact checkBlock_settled parent before
  · have checkSettled : Database.Settled node before checked :=
      (checkBlock_settled parent).of_returns checks
    exact IsTrans.trans _ _ _ checkSettled (applyBlock_settled node checked)

/-- What comes of evaluating a block: it is left behind, or it was checked and applied and is
accepted next. -/
theorem evaluateBlock_cases (env : Env) (block : Block) (parent node : Nat)
    (now : Int) (before : Database) :
    (∃ outcome after, evaluateBlock env block parent node now before = (outcome, after) ∧
      LeftBehind env block parent node now before after ∧
      ∀ receipt, outcome ≠ .ok (.ok receipt)) ∨
    ∃ checked context applied,
      (checkBlock env block parent now).Returns before (.ok ()) checked ∧
      Database.Settled node before checked ∧
      (applyBlock env block).Returns
        (Context.create checked.heap node .blockApplication) (.ok applied) context ∧
      Database.Settled node checked { checked with heap := context.heap } ∧
      evaluateBlock env block parent node now before =
        (acceptBlock env block node applied >>= fun receipt => pure (.ok receipt))
          { checked with heap := context.heap } := by
  rcases checks : checkBlock env block parent now before with ⟨fault | outcome, checked⟩
  · exact .inl ⟨_, checked, stops_bind.mpr (.inl checks), .inl (by rw [checks]), nofun⟩
  have evaluates : evaluateBlock env block parent node now before = _ :=
    Effect.Returns.bind_eq checks _
  cases outcome with
  | error error => exact .inl ⟨_, checked, evaluates, .inl (by rw [checks]), nofun⟩
  | ok value =>
    rcases applies : inContext node .blockApplication (applyBlock env block) checked
      with ⟨fault | applied, mid⟩
    · exact .inl ⟨_, mid, evaluates.trans (stops_bind.mpr (.inl applies)),
        .inr ⟨checked, checks, by rw [applies]⟩, nofun⟩
    have evaluatesOn := evaluates.trans (Effect.Returns.bind_eq applies _)
    cases applied with
    | error error =>
      exact .inl ⟨_, mid, evaluatesOn, .inr ⟨checked, checks, by rw [applies]⟩, nofun⟩
    | ok applied =>
      obtain ⟨context, appliesThere, rfl⟩ := returns_within.mp applies
      exact .inr ⟨checked, context, applied, checks, (checkBlock_settled parent).of_returns checks,
        appliesThere, (applyBlock_settled node).of_returns applies, evaluatesOn⟩

/-- A block that is refused on its node is left behind. -/
theorem leftBehind_of_refused
    (gave : (evaluateBlock env block parent node now).Returns before (.error error) after) :
    LeftBehind env block parent node now before after := by
  rcases evaluateBlock_cases env block parent node now before with
    ⟨_, _, evaluates, left, -⟩ | ⟨_, _, _, -, -, -, -, accepting⟩
  · obtain ⟨-, rfl⟩ := Prod.mk.inj (evaluates.symm.trans gave)
    exact left
  · obtain ⟨_, _, -, ended⟩ := returns_bind.mp (accepting.symm.trans gave)
    cases (returns_pure.mp ended).1

/-- A refusal leaves what is below the node settled. -/
theorem evaluateBlock_refused
    (gave : (evaluateBlock env block parent node now).Returns before (.error error) after) :
    Database.Settled node before after :=
  (leftBehind_of_refused gave).settled

/-- A block that is accepted on its node was checked and applied there before. -/
theorem evaluateBlock_accepted
    (gave : (evaluateBlock env block parent node now).Returns before (.ok receipt) after) :
    ∃ checked context applied,
      (checkBlock env block parent now).Returns before (.ok ()) checked ∧
      Database.Settled node before checked ∧
      (applyBlock env block).Returns
        (Context.create checked.heap node .blockApplication) (.ok applied) context ∧
      Database.Settled node checked { checked with heap := context.heap } ∧
      (acceptBlock env block node applied).Returns { checked with heap := context.heap }
        receipt after := by
  rcases evaluateBlock_cases env block parent node now before with
    ⟨_, _, evaluates, -, notAccepted⟩ |
      ⟨checked, context, applied, checks, checkSettled, applies, applySettled, accepting⟩
  · exact absurd (Prod.mk.inj (evaluates.symm.trans gave)).1 (notAccepted receipt)
  · obtain ⟨_, _, accepts, ended⟩ := returns_bind.mp (accepting.symm.trans gave)
    obtain ⟨same, rfl⟩ := returns_pure.mp ended
    obtain rfl := Except.ok.inj same
    exact ⟨checked, context, applied, checks, checkSettled, applies, applySettled, accepts⟩

/-- The node found at a revision is on the lineage it was looked for on. -/
theorem mem_of_ancestorAt {heap : Heap} {path : List Nat} {found : Nat}
    (gave : ancestorAt heap revision path = .ok found) : found ∈ path := by
  induction path with
  | nil => cases gave
  | cons delta ancestors ih =>
    obtain ⟨ownRevision, -, gave⟩ := bind_eq_ok.mp gave
    split at gave
    · exact List.mem_cons_of_mem _ (ih gave)
    · cases gave
      exact List.mem_cons_self

/-- A database whose deltas all descend from its root, and whose head is final. -/
structure RootedAt (db : Database) (root : Nat) : Prop where
  backed : db.heap.Backed
  isRoot : db.root = some root
  inside : root < db.heap.size
  top : ∀ index < db.heap.size, db.heap.parent? index = none ↔ index = root
  head : ∃ head, db.head = some head ∧ db.heap.final head = true

namespace RootedAt

variable {db : Database} {root : Nat}

theorem isOpen (rooted : RootedAt db root) : db.isOpen = true := by
  obtain ⟨head, isHead, -⟩ := rooted.head
  simp [Database.isOpen, rooted.isRoot, isHead]

/-- The root is above every delta. -/
theorem mem_lineage (rooted : RootedAt db root) {index : Nat}
    (inside : index < db.heap.size) : root ∈ db.heap.lineage index := by
  obtain ⟨younger, top, ends, topmost⟩ := exists_root inside
  have mem : top ∈ db.heap.lineage index := by simp [ends]
  rwa [← (rooted.top top (lt_size_of_mem_lineage mem)).mp topmost]

variable {after : Database}

/-- Looking for a revision changes nothing and finds a delta that exists. -/
theorem atRevision_inside (rooted : RootedAt db root) {revision : UInt64} {id : StateNodeId}
    {found : Nat} (gave : (atRevision revision id).Returns db found after) :
    after = db ∧ found < db.heap.size := by
  obtain ⟨_, _, opened, rest⟩ := returns_bind.mp gave
  obtain ⟨-, rfl⟩ := returns_requireOpen.mp opened
  simp only [returns_bind, returns_read, returns_expect, returns_ofExcept] at rest
  obtain ⟨_, _, ⟨rfl, rfl⟩, base, _, ⟨isBase, rfl⟩, baseRevision, _, ⟨-, rfl⟩, rest⟩ := rest
  split at rest
  · exact absurd rest not_returns_fail
  · split at rest
    · obtain ⟨rfl, rfl⟩ := returns_pure.mp rest
      obtain rfl := Option.some.inj (isBase.symm.trans rooted.isRoot)
      exact ⟨rfl, rooted.inside⟩
    · obtain ⟨child, _, got, walks⟩ := returns_bind.mp rest
      obtain ⟨-, -, rfl⟩ := returns_get.mp got
      -- The walk starts at the named node or at the head; it ends on its lineage either way.
      cases child with
      | some delta =>
        obtain ⟨_, _, started, ancestor⟩ := returns_bind.mp walks
        obtain ⟨-, rfl⟩ := returns_pure.mp started
        obtain ⟨walked, rfl⟩ := returns_ofExcept.mp ancestor
        exact ⟨rfl, lt_size_of_mem_lineage (mem_of_ancestorAt walked)⟩
      | none =>
        obtain ⟨_, _, started, ancestor⟩ := returns_bind.mp walks
        obtain ⟨-, rfl⟩ := returns_expect.mp started
        obtain ⟨walked, rfl⟩ := returns_ofExcept.mp ancestor
        exact ⟨rfl, lt_size_of_mem_lineage (mem_of_ancestorAt walked)⟩

/-- Settled work leaves a database rooted. -/
theorem settled (rooted : RootedAt db root) {limit : Nat}
    (settled : Database.Settled limit db after) : RootedAt after root := by
  refine ⟨settled.heap.backed rooted.backed, settled.root.trans rooted.isRoot,
    Nat.lt_of_lt_of_le rooted.inside settled.heap.size, ?_, ?_⟩
  · intro index grown
    by_cases old : index < db.heap.size
    · rw [settled.heap.parents index old]
      exact rooted.top index old
    · have child := settled.heap.children index grown (Nat.not_lt.mp old)
      refine iff_of_false (fun top => ?_) ?_
      · rw [top] at child
        cases child
      · rintro rfl
        exact old rooted.inside
  · obtain ⟨head, isHead, headFinal⟩ := rooted.head
    exact ⟨head, settled.head.trans isHead,
      (settled.heap.final (lt_size_of_final headFinal)).trans headFinal⟩

/-- Marking a node final and choosing a final head keeps a database rooted. -/
theorem finalized (rooted : RootedAt db root) (node : Nat) {head : Nat}
    (headFinal : final (db.heap.update node fun delta => { delta with final := true })
      head = true) (forkHeads : Finset Nat) :
    RootedAt { db with
      heap := db.heap.update node fun delta => { delta with final := true }
      head := some head
      forkHeads := forkHeads } root := by
  refine ⟨backed_update rooted.backed fun _ held => held, rooted.isRoot, ?_, ?_, head, rfl,
    headFinal⟩
  · rw [size_update]
    exact rooted.inside
  · intro index inside
    rw [size_update] at inside
    rw [parent?_update]
    exact rooted.top index inside

/-- The head that finalizing a node chooses is final. -/
theorem leader_final (rooted : RootedAt db root) {node head : Nat} (inside : node < db.heap.size)
    (isHead : db.head = some head) (headRevision revision : UInt64) :
    final (db.heap.update node fun delta => { delta with final := true })
      (if headRevision < revision then node else head) = true := by
  obtain ⟨held, isHeld, headFinal⟩ := rooted.head
  obtain rfl := Option.some.inj (isHeld.symm.trans isHead)
  rw [final_finalized inside]
  split
  · exact .inl rfl
  · exact .inr headFinal

/-- The head of a rooted database has a revision. -/
theorem head_revision (rooted : RootedAt db root) :
    ∃ head revision, db.head = some head ∧ db.heap.revision head = .ok revision := by
  obtain ⟨head, isHead, headFinal⟩ := rooted.head
  obtain ⟨revision, revised⟩ := revision_of_backed rooted.backed (lt_size_of_final headFinal)
  exact ⟨head, revision, isHead, revised⟩

end RootedAt

/-- The Merkle root of a node is that of its delta. -/
theorem returns_merkleRoot {hash : Bytes → Digest} {root : Digest} :
    (PermanentNode.merkleRoot hash node).Returns before root after ↔
      ∃ heap, (merkleRoot hash node).Returns before.heap root heap ∧
        after = { before with heap := heap } := by
  unfold PermanentNode.merkleRoot Database.onHeap
  exact returns_within

/-- What accepting a block does: its node is final and has a Merkle root, which the receipt
names, and it is the head if it is higher than the head. A block that makes another one
irreversible is then looked up and committed. -/
theorem acceptBlock_eq (env : Env) (block : Block) {head : Nat} {headRevision : UInt64}
    (rooted : RootedAt before root) (inside : node < before.heap.size)
    (isHead : before.head = some head) (headRevised : before.heap.revision head = .ok headRevision)
    (revised : before.heap.revision node = .ok revision)
    (rootRevised : before.heap.revision root = .ok rootRevision) (applied : BlockReceipt) :
    ∃ stateRoot heap forkHeads,
      (merkleRoot env.crypto.hash node).Returns
        (before.heap.update node fun delta => { delta with final := true }) stateRoot heap ∧
      acceptBlock env block node applied before =
        (if rootRevision < irreversibleBlock revision then do
          let irreversible ← atRevision (irreversibleBlock revision) block.id
          PermanentNode.commit env.crypto.hash irreversible
          pure { applied with stateMerkleRoot := stateRoot }
        else pure { applied with stateMerkleRoot := stateRoot } :
          Effect Fault Database BlockReceipt)
        { before with
          heap := heap
          head := some (if headRevision < revision then node else head)
          forkHeads := forkHeads } := by
  let finalHeap : Heap := before.heap.update node fun delta => { delta with final := true }
  obtain ⟨forkHeads, finalizes⟩ : ∃ forkHeads, (PermanentNode.finalize node).Returns before ()
      { before with
        heap := finalHeap
        head := some (if headRevision < revision then node else head)
        forkHeads := forkHeads } :=
    ⟨_, Database.ForkCall.finalize_outcome inside rooted.isRoot isHead revised headRevised⟩
  obtain ⟨stateRoot, heap, caches⟩ := merkleRoot_of_final env.crypto.hash
    (show finalHeap.Backed from backed_update rooted.backed fun _ held => held)
    (show node < finalHeap.size by rwa [size_update])
    ((final_finalized inside node).mpr (.inl rfl))
  have settled : Heap.Settled 0 finalHeap heap := (merkleRoot_settled _ node).of_returns caches
  have cachedRevised : heap.revision root = .ok rootRevision := by
    rw [settled.revision (by rw [size_update]; exact rooted.inside), revision_finalized,
      rootRevised]
  have answers (db : Database) (isFinal : db.heap = finalHeap) :
      (PermanentNode.merkleRoot env.crypto.hash node).Returns db stateRoot
        { db with heap := heap } :=
    returns_merkleRoot.mpr ⟨heap, isFinal ▸ caches, rfl⟩
  refine ⟨stateRoot, heap, forkHeads, caches, ?_⟩
  rw [acceptBlock, read_bind, revised, ofExcept_bind, finalizes.bind_eq,
    (answers _ rfl).bind_eq, read_bind, rooted.isRoot, expect_bind, cachedRevised,
    ofExcept_bind]

/-- A block that is accepted makes no other one irreversible, since no commit returns. Its node is
made final and its Merkle root computed, and it is the head now if it is higher. -/
theorem acceptBlock_accepted {applied : BlockReceipt} {head : Nat} {headRevision : UInt64}
    (rooted : RootedAt before root) (inside : node < before.heap.size)
    (isHead : before.head = some head) (headRevised : before.heap.revision head = .ok headRevision)
    (revised : before.heap.revision node = .ok revision)
    (rootRevised : before.heap.revision root = .ok rootRevision)
    (gave : (acceptBlock env block node applied).Returns before receipt after) :
    ¬ rootRevision < irreversibleBlock revision ∧ ∃ stateRoot heap forkHeads,
      (merkleRoot env.crypto.hash node).Returns
        (before.heap.update node fun delta => { delta with final := true }) stateRoot heap ∧
      receipt = { applied with stateMerkleRoot := stateRoot } ∧
      after = { before with
        heap := heap
        head := some (if headRevision < revision then node else head)
        forkHeads := forkHeads } := by
  obtain ⟨stateRoot, heap, forkHeads, caches, continues⟩ :=
    acceptBlock_eq env block rooted inside isHead headRevised revised rootRevised applied
  rw [Effect.Returns, continues] at gave
  by_cases later : rootRevision < irreversibleBlock revision
  · -- The block would make another one irreversible, and that commit does not return.
    rw [if_pos later] at gave
    have leaderFinal := rooted.leader_final inside isHead headRevision revision
    have cachedRooted := (rooted.finalized node leaderFinal forkHeads).settled
      (show Database.Settled 0 _ { before with heap := heap, head := _, forkHeads := forkHeads }
        from ⟨(merkleRoot_settled _ node).of_returns caches, rfl, rfl, rfl, rfl⟩)
    obtain ⟨irreversible, _, looked, commits⟩ := returns_bind.mp gave
    obtain ⟨rfl, exists_⟩ := cachedRooted.atRevision_inside looked
    obtain ⟨_, _, committed, -⟩ := returns_bind.mp commits
    exact absurd committed (not_returns_commit _ cachedRooted.backed cachedRooted.isOpen
      cachedRooted.isRoot ((cachedRooted.top root cachedRooted.inside).mpr rfl)
      (cachedRooted.mem_lineage exists_))
  · rw [if_neg later] at gave
    obtain ⟨rfl, rfl⟩ := returns_pure.mp gave
    exact ⟨later, stateRoot, heap, forkHeads, caches, rfl, rfl⟩

/-- Then the node is final, the head is a final node, and the rest is settled. -/
theorem acceptBlock_outcome {applied : BlockReceipt} (rooted : RootedAt before root)
    (inside : node < before.heap.size)
    (gave : (acceptBlock env block node applied).Returns before receipt after) :
    (∃ revision rootRevision, before.heap.revision node = .ok revision ∧
      before.heap.revision root = .ok rootRevision ∧
      ¬ rootRevision < irreversibleBlock revision) ∧
    receipt.transactionReceipts = applied.transactionReceipts ∧
    ∃ head forkHeads,
      final (before.heap.update node fun delta => { delta with final := true }) head = true ∧
      ∀ limit, Database.Settled limit { before with
        heap := before.heap.update node fun delta => { delta with final := true }
        head := some head
        forkHeads := forkHeads } after := by
  obtain ⟨revision, revised⟩ := revision_of_backed rooted.backed inside
  obtain ⟨rootRevision, rootRevised⟩ := revision_of_backed rooted.backed rooted.inside
  obtain ⟨head, headRevision, isHead, headRevised⟩ := rooted.head_revision
  obtain ⟨reversible, stateRoot, heap, forkHeads, caches, rfl, rfl⟩ :=
    acceptBlock_accepted rooted inside isHead headRevised revised rootRevised gave
  exact ⟨⟨revision, rootRevision, revised, rootRevised, reversible⟩, rfl, _, forkHeads,
    rooted.leader_final inside isHead headRevision revision,
    fun _ => ⟨(merkleRoot_settled _ node).of_returns caches, rfl, rfl, rfl, rfl⟩⟩

/-- An applied block is accepted if it makes no other irreversible. -/
theorem acceptBlock_returns (rooted : RootedAt before root) (inside : node < before.heap.size)
    (revised : before.heap.revision node = .ok revision)
    (rootRevised : before.heap.revision root = .ok rootRevision)
    (reversible : ¬ rootRevision < irreversibleBlock revision) (applied : BlockReceipt) :
    ∃ receipt after, (acceptBlock env block node applied).Returns before receipt after := by
  obtain ⟨head, headRevision, isHead, headRevised⟩ := rooted.head_revision
  obtain ⟨stateRoot, heap, forkHeads, -, continues⟩ :=
    acceptBlock_eq env block rooted inside isHead headRevised revised rootRevised applied
  rw [if_neg reversible] at continues
  exact ⟨_, _, continues⟩

/-- However accepting a block ends, its node is final then: it is finalized before anything can
fail, and a commit leaves it final. -/
theorem acceptBlock_final (rooted : RootedAt before root) (inside : node < before.heap.size)
    (applied : BlockReceipt) :
    (acceptBlock env block node applied before).2.heap.final node = true := by
  obtain ⟨revision, revised⟩ := revision_of_backed rooted.backed inside
  obtain ⟨rootRevision, rootRevised⟩ := revision_of_backed rooted.backed rooted.inside
  obtain ⟨head, headRevision, isHead, headRevised⟩ := rooted.head_revision
  obtain ⟨stateRoot, heap, forkHeads, caches, continues⟩ :=
    acceptBlock_eq env block rooted inside isHead headRevised revised rootRevised applied
  have finalized := (final_finalized inside node).mpr (.inl rfl)
  have looks : (atRevision (irreversibleBlock revision) block.id).Keeps
      (Preserving fun db => db.heap.final node = true) :=
    (atRevision_keeps _ _).mono fun _ _ same => same ▸ id
  rw [continues]
  refine keeps_ite (keeps_bind looks fun irreversible => ?_) (keeps_pure _) _ ?_
  · exact keeps_bind (PermanentNode.commit_staysFinal _ irreversible node) fun _ =>
      keeps_pure _
  · exact (merkleRoot_staysFinal _ node).of_returns caches finalized

end Respublica.Controller
