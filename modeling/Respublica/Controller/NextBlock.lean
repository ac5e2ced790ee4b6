import Respublica.Controller.ChainHead

/-!
# The next block

`controller::head` reports the head: its id, its height, the id before it and its Merkle root.
A block that extends the head is checked against just these, so that a block made from the
report passes every check of the controller but that of its time, and is left to its signer and
its transactions.
-/

namespace Respublica.Controller

open Foundation Effect Crypto Program Protocol StateDb Heap

/-- `controller::head`. -/
def head (env : Env) : Effect Fault Database HeadInfo := do
  let db ← Effect.read
  let node ← Effect.expect .nullDereference db.head
  headInfo env node

variable {env : Env} {entries : List GenesisEntry} {history : List (Nat × Block)}
  {db after : Database} {root node : Nat} {block : Block} {now : Int}

variable {before : Database} {info : HeadInfo} {parent : Nat} {stateRoot : Digest} {height : UInt64}
  {own : Backend} {id : StateNodeId}

/-- What is reported about a node. -/
theorem returns_headInfo :
    (headInfo env node).Returns before info after ↔
      before.heap.id node = .ok info.id ∧ before.heap.revision node = .ok info.height ∧
      before.heap.parentId node = .ok info.previous ∧ info.lastIrreversibleBlock = 0 ∧
      info.time = 0 ∧ (PermanentNode.merkleRoot env.crypto.hash node).Returns before
        info.stateMerkleRoot after := by
  simp only [headInfo, returns_bind, returns_read, returns_ofExcept, returns_pure]
  constructor
  · rintro ⟨_, _, ⟨rfl, rfl⟩, id, _, ⟨named, rfl⟩, height, _, ⟨revised, rfl⟩, previous, before,
      ⟨isPrevious, rfl⟩, stateRoot, mid, asks, rfl, rfl⟩
    exact ⟨named, revised, isPrevious, rfl, rfl, asks⟩
  · rintro ⟨named, revised, isPrevious, noBlock, noTime, asks⟩
    refine ⟨before, before, ⟨rfl, rfl⟩, info.id, before, ⟨named, rfl⟩, info.height, before,
      ⟨revised, rfl⟩, info.previous, before, ⟨isPrevious, rfl⟩, info.stateMerkleRoot, after, asks,
      ?_, rfl⟩
    cases info
    cases noBlock
    cases noTime
    rfl

/-- The head is asked for its own report. -/
theorem returns_head : (head env).Returns db info after ↔
    ∃ node, db.head = some node ∧ (headInfo env node).Returns db info after := by
  simp only [head, returns_bind, returns_read, returns_expect]
  constructor
  · rintro ⟨_, _, ⟨rfl, rfl⟩, node, _, ⟨isHead, rfl⟩, informs⟩
    exact ⟨node, isHead, informs⟩
  · rintro ⟨node, isHead, informs⟩
    exact ⟨db, db, ⟨rfl, rfl⟩, node, db, ⟨isHead, rfl⟩, informs⟩

/-- The outcome of the checks of a block against a predecessor with the given Merkle root and
height. -/
def verdict (block : Block) (now : Int) (stateRoot : Digest) (height : UInt64) : Result Unit :=
  if block.previous = nullId then
    if block.height ≠ 1 then .error (.controller .unexpectedHeight)
    else checkTime block 0 (timeUpperBound now)
  else if block.stateMerkleRoot ≠ stateRoot then .error (.controller .stateMerkleMismatch)
  else if block.height ≠ height + 1 then .error (.controller .unexpectedHeight)
  else checkTime block 0 (timeUpperBound now)

/-- A predecessor that has cached its Merkle root is looked at and not changed. -/
theorem checkBlock_verdict (backed : before.heap.Backed) (inside : parent < before.heap.size)
    (isFinal : before.heap.final parent = true) (revised : before.heap.revision parent = .ok height)
    (cached : block.previous ≠ nullId → before.heap.cachedRoot parent = some stateRoot) :
    (checkBlock env block parent now).Returns before (verdict block now stateRoot height)
      before := by
  unfold checkBlock verdict
  by_cases isFirst : block.previous = nullId
  · rw [if_pos isFirst, if_pos isFirst]
    split <;> exact returns_pure.mpr ⟨rfl, rfl⟩
  rw [if_neg isFirst, if_neg isFirst]
  obtain ⟨delta, own, found, held, backs⟩ := backend_of_backed backed inside
  have known : delta.merkleRoot = some stateRoot := by
    have isCached := cached isFirst
    rwa [cachedRoot, found, Option.bind_some] at isCached
  have asks : (PermanentNode.merkleRoot env.crypto.hash parent).Returns before stateRoot
      before := by
    refine returns_merkleRoot.mpr ⟨before.heap, (Heap.returns_merkleRoot found held).mpr
      ⟨(Heap.final_eq found).symm.trans isFinal, by rw [Heap.currentRoot, known]; rfl, ?_⟩, rfl⟩
    refine (Forest.update_eq_self fun node isNode => ?_).symm
    obtain rfl := Option.some.inj (found.symm.trans isNode)
    rw [← known]
  have named := id_of_backend backs
  obtain ⟨previous, isPrevious⟩ := parentId_of_backed backed inside
  rw [asks.bind_iff]
  split
  · exact returns_pure.mpr ⟨rfl, rfl⟩
  have informs : (headInfo env parent).Returns before
      ⟨own.id, height, previous, 0, stateRoot, 0⟩ before :=
    returns_headInfo.mpr ⟨named, revised, isPrevious, rfl, rfl, asks⟩
  rw [informs.bind_iff]
  split <;> exact returns_pure.mpr ⟨rfl, rfl⟩

/-- A valid block is processed by evaluating it on a new child of the node it extends. -/
theorem processBlock_iff_evaluated (tracked : Tracked history db root)
    {result : Result BlockReceipt} (valid : block.validate env.crypto = true)
    (extends_ : Extends block db parent) (backs : db.heap.backend parent = .ok own) :
    (processBlock env block now).Returns db result after ↔
      (evaluateBlock env block parent db.heap.size now).Returns
        (withChild db parent own block.id) result after := by
  rw [Effect.Returns, processBlock_evaluates env now tracked valid extends_ backs,
    ← Effect.Returns]

section

variable (run : ProcessRun env entries history db)
include run

/-- The node of an accepted block has cached the Merkle root of what it holds. -/
theorem ProcessRun.cachedRoot (finalNode : FinalNode db node id) (notNull : id ≠ nullId) :
    ∃ content, (db.heap.layers node).head? = some content ∧ db.heap.cachedRoot node =
      some (contentRoot env.crypto.hash content) := by
  obtain ⟨_, _, onRecord⟩ := run.onRecord
  rcases run.chained.standing finalNode with ⟨-, isNull⟩ | ⟨-, block, accepted, -⟩
  · exact absurd isNull notNull
  have recorded := onRecord.records node block accepted
  obtain ⟨delta, found⟩ := Option.isSome_iff_exists.mp (Forest.node?_isSome_iff.mpr recorded.inside)
  have top : (db.heap.layers node).head? = some delta.content := by
    rw [head?_layers, found, Option.map_some]
  exact ⟨delta.content, top, recorded.root delta.content top⟩

/-- The checks of a block in a run come out as its verdict. -/
theorem ProcessRun.checks (now : Int)
    (extends_ : Extends block db parent) (backs : db.heap.backend parent = .ok own)
    (revised : db.heap.revision parent = .ok height)
    (cached : block.previous ≠ nullId → db.heap.cachedRoot parent = some stateRoot) :
    (checkBlock env block parent now).Returns (withChild db parent own block.id)
      (verdict block now stateRoot height) (withChild db parent own block.id) := by
  have inside := lt_size_of_backend backs
  have sameNode : (withChild db parent own block.id).heap.node? parent =
      db.heap.node? parent := Forest.node?_push_of_lt inside
  refine checkBlock_verdict (run.chained.tracked.withChild backs block.id).rooted.backed
    (Nat.lt_trans inside (lt_size_withChild db parent own block.id)) ?_ ?_ fun later => ?_
  · rw [final, sameNode]
    exact extends_.final
  · exact (Heap.revision_push_of_lt inside).trans revised
  · rw [Heap.cachedRoot, sameNode]
    exact cached later

/-- Every final node answers with the Merkle root of what it holds. -/
theorem ProcessRun.merkleRoot (finalNode : FinalNode db node id) :
    ∃ content mid, (db.heap.layers node).head? = some content ∧
      (PermanentNode.merkleRoot env.crypto.hash node).Returns db
        (contentRoot env.crypto.hash content) mid := by
  obtain ⟨_, _, onRecord⟩ := run.onRecord
  obtain ⟨delta, own, found, held, -⟩ := backend_of_backed run.chained.tracked.rooted.backed
    (lt_size_of_final finalNode.final)
  have honestAt : db.heap.HonestAt env.crypto.hash node := by
    rcases run.chained.standing finalNode with ⟨rfl, -⟩ | ⟨notNull, -⟩
    · exact onRecord.baseRoot
    · obtain ⟨content, top, cached⟩ := run.cachedRoot finalNode notNull
      exact fun root isCached => ⟨content, top, Option.some.inj (isCached.symm.trans cached)⟩
  obtain ⟨heap, asked⟩ := merkleRoot_of_honestAt found held
    ((final_eq found).symm.trans finalNode.final) honestAt
  refine ⟨delta.content, _, ?_, returns_merkleRoot.mpr ⟨heap, asked, rfl⟩⟩
  rw [head?_layers, found, Option.map_some]

/-- A report is that of the block which leads the accepted ones, or of the root while there are
none. -/
def Reports (history : List (Nat × Block)) (info : HeadInfo) : Prop :=
  (history = [] ∧ info.id = nullId ∧ info.height = 0 ∧ info.previous = nullId) ∨
    ∃ earlier node block later, history = earlier ++ (node, block) :: later ∧
      info.id = block.id ∧ info.height = block.height ∧ info.previous = block.previous ∧
      (∀ entry ∈ earlier, entry.2.height < block.height) ∧
      ∀ entry ∈ later, entry.2.height ≤ block.height

/-- What is read off the head is the report. -/
theorem ProcessRun.reports
    (headed : Headed history db node height) (named : db.heap.id node = .ok info.id)
    (revised : db.heap.revision node = .ok info.height)
    (isPrevious : db.heap.parentId node = .ok info.previous) : Reports history info := by
  have chained := run.chained
  obtain rfl := Except.ok.inj (headed.revised.symm.trans revised)
  rcases headed.leads with ⟨rfl, rfl, isZero⟩ | ⟨earlier, block, later, rfl, isHeight, lower,
    notHigher⟩
  · have top := (chained.tracked.rooted.top 0 chained.tracked.rooted.inside).mpr rfl
    rw [parentId, top] at isPrevious
    exact .inl ⟨rfl, Except.ok.inj (named.symm.trans chained.tracked.genesis.2.1), isZero,
      (Except.ok.inj isPrevious).symm⟩
  · have link := chained.links node block (List.mem_append_right _ List.mem_cons_self)
    obtain ⟨parent, -, points, -, parentNamed, -⟩ := link.parent
    rw [parentId, points] at isPrevious
    rw [← isHeight] at lower notHigher
    exact .inr ⟨earlier, node, block, later, rfl, Except.ok.inj (named.symm.trans link.named),
      isHeight.symm, Except.ok.inj (isPrevious.symm.trans parentNamed), lower, notHigher⟩

/-- The node that leads is reported as the head. -/
theorem ProcessRun.head_answers (headed : Headed history db node height) :
    ∃ info mid content, (head env).Returns db info mid ∧
      info.height = height ∧ Reports history info ∧
      (db.heap.layers node).head? = some content ∧
      info.stateMerkleRoot = contentRoot env.crypto.hash content := by
  have backed := run.chained.tracked.rooted.backed
  have inside := lt_size_of_final headed.final
  obtain ⟨id, named⟩ := id_of_backed backed inside
  obtain ⟨previous, isPrevious⟩ := parentId_of_backed backed inside
  obtain ⟨content, mid, top, asks⟩ := run.merkleRoot ⟨headed.indexed, headed.final, named⟩
  let info : HeadInfo := ⟨id, height, previous, 0, contentRoot env.crypto.hash content, 0⟩
  have informs : (headInfo env node).Returns db info mid :=
    returns_headInfo.mpr ⟨named, headed.revised, isPrevious, rfl, rfl, asks⟩
  exact ⟨info, mid, content, returns_head.mpr ⟨node, headed.isHead, informs⟩, rfl,
    run.reports headed named headed.revised isPrevious, top, rfl⟩

end

/-- In every run the head is reported: it is the first among the highest accepted blocks, and
its Merkle root is that of what its node holds. -/
theorem head_reports_leader (run : ProcessRun env entries history db) :
    ∃ node info mid content, db.head = some node ∧
      (head env).Returns db info mid ∧ Reports history info ∧
      (db.heap.layers node).head? = some content ∧
      info.stateMerkleRoot = contentRoot env.crypto.hash content := by
  obtain ⟨node, height, headed⟩ := run.headed
  obtain ⟨info, mid, content, answers, -, reports, top, isRoot⟩ := run.head_answers headed
  exact ⟨node, info, mid, content, headed.isHead, answers, reports, top, isRoot⟩

/-- The theorem applies after two blocks, of which the second leads. -/
theorem head_reports_leader_after_second :
    ∃ node info mid content, (afterSecond 3000).head = some node ∧
      (head .plain).Returns (afterSecond 3000) info mid ∧
      Reports [(1, sampleFirst), (2, secondBlock 3000)] info ∧
      ((afterSecond 3000).heap.layers node).head? = some content ∧
      info.stateMerkleRoot = contentRoot Env.plain.crypto.hash content := by
  exact head_reports_leader (@run_afterSecond 3000 (by decide +kernel))

/-- A block suits a report: it has the next height, it names the Merkle root unless it is the
first, and its time is not ahead of the clock. -/
def Suits (block : Block) (info : HeadInfo) (now : Int) : Prop :=
  block.height = info.height + 1 ∧
    (block.previous ≠ nullId → block.stateMerkleRoot = info.stateMerkleRoot) ∧
    0 < block.timestamp ∧ block.timestamp ≤ timeUpperBound now

/-- A time is good if it is above zero and not beyond the bound. -/
theorem checkTime_eq_ok_iff {bound : UInt64} :
    checkTime block 0 bound = .ok () ↔ 0 < block.timestamp ∧ block.timestamp ≤ bound := by
  rw [checkTime]
  split
  · rename_i outside
    simp only [reduceCtorEq, false_iff, not_and_or, UInt64.not_lt, UInt64.not_le]
    exact outside.symm
  · rename_i within
    simp only [true_iff]
    rw [not_or, UInt64.not_lt, UInt64.not_le] at within
    exact within.symm

/-- The verdict on a block is that it suits, where a first block extends the root. -/
theorem verdict_eq_ok_iff (first : block.previous = nullId → info.height = 0) :
    verdict block now info.stateMerkleRoot info.height = .ok () ↔ Suits block info now := by
  unfold verdict Suits
  by_cases isFirst : block.previous = nullId
  · rw [if_pos isFirst, first isFirst]
    by_cases height : block.height = 1
    · simp [height, isFirst, checkTime_eq_ok_iff]
    · simp [height]
  · rw [if_neg isFirst]
    by_cases names : block.stateMerkleRoot = info.stateMerkleRoot
    · by_cases height : block.height = info.height + 1
      · simp [names, height, checkTime_eq_ok_iff]
      · simp [names, height]
    · simp [names, isFirst]

/-- What a report says about the node it is of. -/
theorem ProcessRun.reported (run : ProcessRun env entries history db) {mid : Database}
    (asked : (head env).Returns db info mid) :
    ∃ node, db.head = some node ∧ FinalNode db node info.id ∧
      db.heap.revision node = .ok info.height ∧
      (info.id = nullId → info.height = 0) ∧
      (info.id ≠ nullId → db.heap.cachedRoot node = some info.stateMerkleRoot) := by
  obtain ⟨node, isHead, informs⟩ := returns_head.mp asked
  obtain ⟨named, revised, -, -, -, asks⟩ := returns_headInfo.mp informs
  obtain ⟨_, isFinal⟩ := run.head_final isHead
  have finalNode : FinalNode db node info.id := ⟨isFinal.indexed, isFinal.final, named⟩
  refine ⟨node, isHead, finalNode, revised, fun isNull => ?_, fun notNull => ?_⟩
  · obtain rfl := run.chained.nullRoot node isFinal.indexed (isNull ▸ named)
    exact Except.ok.inj (revised.symm.trans run.chained.rootRevised)
  · obtain ⟨content, top, cached⟩ := run.cachedRoot finalNode notNull
    obtain ⟨other, _, otherTop, answers⟩ := run.merkleRoot finalNode
    obtain rfl := Option.some.inj (top.symm.trans otherTop)
    rw [cached, (asks.unique answers).1]

/-- A block that extends the head is checked against the report about the head: one that does
not suit is refused, and one that suits is refused only if applying it on the head comes to the
same error. -/
theorem block_on_head_checked_by_report (run : ProcessRun env entries history db)
    {info : HeadInfo} {mid : Database}
    (asked : (head env).Returns db info mid)
    (valid : block.validate env.crypto = true)
    (unknown : db.find block.id = .ok none) (onHead : block.previous = info.id) :
    (¬ Suits block info now → ∃ error after,
      (processBlock env block now).Returns db (.error error) after) ∧
    (Suits block info now → ∀ error after,
      (processBlock env block now).Returns db (.error error) after →
        ∃ node heap child context, db.head = some node ∧
          heap.layers child = blankContent :: db.heap.layers node ∧
          (Context.applyBlock env block).Returns
            (Context.create heap child .blockApplication) (.error error) context) := by
  obtain ⟨node, isHead, finalNode, revised, first, cached⟩ := run.reported asked
  have tracked := run.chained.tracked
  have extends_ : Extends block db node :=
    ⟨unknown, onHead ▸ run.find_of_mem finalNode.indexed finalNode.named, finalNode.final⟩
  obtain ⟨-, own, -, -, backs⟩ :=
    backend_of_backed tracked.rooted.backed (lt_size_of_final finalNode.final)
  rw [← onHead] at first cached
  have checks := run.checks now extends_ backs revised cached
  have decided : verdict block now info.stateMerkleRoot info.height = .ok () ↔
      Suits block info now :=
    verdict_eq_ok_iff first
  constructor
  · intro unsuited
    cases outcome : verdict block now info.stateMerkleRoot info.height with
    | ok passed => exact absurd (decided.mp outcome) unsuited
    | error error =>
      rw [outcome] at checks
      exact ⟨error, _, (processBlock_iff_evaluated tracked valid extends_ backs).mpr
        (returns_bind.mpr ⟨_, _, checks, returns_pure.mpr ⟨rfl, rfl⟩⟩)⟩
  · intro suits error after gave
    rw [decided.mpr suits] at checks
    have evaluated := (processBlock_iff_evaluated tracked valid extends_ backs).mp gave
    obtain ⟨applied, applying, applies, rest⟩ := returns_bind.mp (checks.bind_iff.mp evaluated)
    cases applied with
    | ok receipt =>
      obtain ⟨_, _, -, ended⟩ := returns_bind.mp rest
      cases (returns_pure.mp ended).1
    | error code =>
      obtain ⟨same, -⟩ := returns_pure.mp rest
      obtain rfl := Except.error.inj same
      obtain ⟨context, applied, -⟩ := returns_within.mp applies
      exact ⟨node, _, db.heap.size, context, isHead,
        layers_push_child (lt_size_of_backend backs) _, applied⟩

/-- What is reported after the first block. -/
def firstReport : HeadInfo := ⟨sampleFirst.id, 1, nullId, 0, rootAfterFirst, 0⟩

theorem firstReport_reported :
    (head .plain).Returns afterFirst firstReport (head .plain afterFirst).2 :=
  returns_of_fst (by decide +kernel)

/-- The theorem applies to the second block on the first. -/
theorem block_on_head_checked_by_report_after_first :
    (¬ Suits (secondBlock 3000) firstReport 0 → ∃ error after,
      (processBlock .plain (secondBlock 3000) 0).Returns afterFirst (.error error) after) ∧
    (Suits (secondBlock 3000) firstReport 0 → ∀ error after,
      (processBlock .plain (secondBlock 3000) 0).Returns afterFirst (.error error) after →
        ∃ node heap child context, afterFirst.head = some node ∧
          heap.layers child = blankContent :: afterFirst.heap.layers node ∧
          (Context.applyBlock .plain (secondBlock 3000)).Returns
            (Context.create heap child .blockApplication) (.error error) context) := by
  exact block_on_head_checked_by_report run_afterFirst firstReport_reported
    (by decide +kernel) (by decide +kernel) (by decide +kernel)

end Respublica.Controller
