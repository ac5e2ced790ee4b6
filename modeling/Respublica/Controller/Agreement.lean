import Respublica.Controller.Indifference
import Respublica.Controller.History
import Respublica.StateDb.StateRoot

/-!
# The two paths of a transaction

A transaction is processed on its own on a temporary child of the head, and in a block on the
child made for the block. Applying it is indifferent to what differs between the two nodes, so
both paths give the same receipt. They do not accept the same transactions: only the first
path compares the network id. And a block that makes another one irreversible is applied, but
`process` ends in the commit and gives no receipt.
-/

namespace Respublica.Controller

open Foundation Effect Crypto Program Protocol StateDb Context Heap

variable {env : Env} {block : Block} {tx : Transaction} {now : Int}

namespace Context

theorem Alike.symm {left right : Context} (alike : Alike left right) : Alike right left := by
  obtain ⟨heap, intent, heaps, modes, rfl⟩ := alike
  exact ⟨left.heap, left.intent, heaps.symm, modes.symm, rfl⟩

variable {before : Context}

/-- A block with one transaction is applied with one receipt. -/
theorem receipt_of_applyBlock {after : Context} {blockReceipt : BlockReceipt}
    (only : block.transactions = [tx])
    (applied : (applyBlock env block).Returns before (.ok blockReceipt) after) :
    ∃ receipt, blockReceipt.transactionReceipts = [receipt] := by
  obtain ⟨mid, appliesAll, -⟩ := applyBlock_phases applied
  rw [only] at appliesAll
  obtain ⟨receipt, middle, -, rest⟩ := returns_andThen_ok.mp appliesAll
  obtain ⟨_, _, nothing, ended⟩ := returns_andThen_ok.mp rest
  cases (returns_pure.mp nothing).1
  exact ⟨receipt, Except.ok.inj (returns_pure.mp ended).1⟩

/-- A block with one transaction is applied as the transaction is. -/
theorem applyBlock_iff_alone {alone : Context} {receipt : TransactionReceipt}
    (localsAgree : LocalsAgree env) (alike : Alike alone before) (only : block.transactions = [tx])
    (signed : before.heap.get before.stateNode
      (makeCompoundKey ObjectSpace.metadata (genesisKey env)) =
      .ok (some block.signer.publicKey.1)) :
    (∃ blockReceipt after, (applyBlock env block).Returns before (.ok blockReceipt) after ∧
        blockReceipt.transactionReceipts = [receipt]) ↔
      ∃ after, (applyAlone env tx).Returns alone (.ok receipt) after := by
  have applies := applyTransaction_indifferent localsAgree tx
  have limited : ∀ left right, Alike left right → Alike
      { left with meter := left.meter.setResourceLimits resourceLimits }
      { right with meter := right.meter.setResourceLimits resourceLimits } :=
    alike_change (fun _ _ _ => rfl) fun _ => ⟨rfl, rfl⟩
  constructor
  · rintro ⟨blockReceipt, after, applied, receipts⟩
    obtain ⟨mid, appliesAll, -⟩ := applyBlock_phases applied
    rw [only, receipts] at appliesAll
    obtain ⟨first, middle, appliesFirst, ended⟩ := returns_andThen_ok.mp appliesAll
    obtain ⟨_, _, nothing, ended⟩ := returns_andThen_ok.mp ended
    obtain ⟨same, -⟩ := returns_pure.mp nothing
    obtain ⟨sameList, -⟩ := returns_pure.mp ended
    cases same
    cases sameList
    obtain ⟨other, appliesOther, -⟩ := applies _ _ _ _ (limited _ _ alike.symm) appliesFirst
    exact ⟨other, returns_bind.mpr ⟨(), _, returns_modify.mpr rfl, appliesOther⟩⟩
  · rintro ⟨after, appliesAlone⟩
    obtain ⟨_, _, limits, appliesAlone⟩ := returns_bind.mp appliesAlone
    obtain rfl := returns_modify.mp limits
    obtain ⟨other, appliesOther, -⟩ := applies _ _ _ _ (limited _ _ alike) appliesAlone
    have appliesAll : (applyTransactions env block.transactions).Returns
        { before with meter := before.meter.setResourceLimits resourceLimits } (.ok [receipt])
        other := by
      rw [only]
      exact returns_andThen_ok.mpr ⟨receipt, other, appliesOther, returns_andThen_ok.mpr
        ⟨[], other, returns_pure.mpr ⟨rfl, rfl⟩, returns_pure.mpr ⟨rfl, rfl⟩⟩⟩
    obtain ⟨blockReceipt, receipts, applied⟩ := applyBlock_of_phases signed appliesAll
    exact ⟨blockReceipt, _, applied, receipts⟩

end Context

/-- Checking a block changes no contents. -/
theorem checkBlock_alike {before after : Database} {parent : Nat} {result : Result Unit}
    (gave : (checkBlock env block parent now).Returns before result after) :
    Heap.Alike before.heap after.heap := by
  have caches {db mid : Database} {node : Nat} {root : Digest}
      (cached : (PermanentNode.merkleRoot env.crypto.hash node).Returns db root
        mid) : Heap.Alike db.heap mid.heap := by
    obtain ⟨heap, cachedHeap, rfl⟩ := returns_merkleRoot.mp cached
    exact merkleRoot_alike cachedHeap
  unfold checkBlock at gave
  split at gave
  · split at gave <;> obtain ⟨-, rfl⟩ := returns_pure.mp gave <;> exact .refl _
  · obtain ⟨root, middle, cached, compared⟩ := returns_bind.mp gave
    refine (caches cached).trans ?_
    split at compared
    · obtain ⟨-, rfl⟩ := returns_pure.mp compared
      exact .refl _
    · obtain ⟨info, mid, informed, measured⟩ := returns_bind.mp compared
      simp only [headInfo, returns_bind, returns_read, returns_ofExcept, returns_pure] at informed
      obtain ⟨_, _, ⟨rfl, rfl⟩, _, _, ⟨-, rfl⟩, _, _, ⟨-, rfl⟩, _, _, ⟨-, rfl⟩, _, _,
        cachedAgain, -, rfl⟩ := informed
      refine (caches cachedAgain).trans ?_
      split at measured <;> obtain ⟨-, rfl⟩ := returns_pure.mp measured <;> exact .refl _

/-- The stateless checks of a block, without those of its transactions. -/
def headerValid (crypto : Primitives) (block : Block) : Bool :=
  block.height != 0 && block.timestamp != 0 && block.makeId crypto.hash == block.id &&
    block.signer.user && crypto.verify block.signer.publicKey block.signature block.id

/-- A block with one transaction is valid if its header and the transaction are. -/
theorem validate_iff {crypto : Primitives} (only : block.transactions = [tx]) :
    block.validate crypto = true ↔
      headerValid crypto block = true ∧ tx.validate crypto.hash = true := by
  simp [Block.validate, headerValid, only]

/-- A block that has one transaction and is valid on a node as far as this does not depend on
the transaction: its stateless checks, its predecessor, the checks against the predecessor, and
the genesis key as its signer. -/
structure OtherwiseValid (env : Env) (block : Block) (tx : Transaction)
    (now : Int) (db : Database) (node : Nat) : Prop where
  only : block.transactions = [tx]
  header : headerValid env.crypto block = true
  extends_ : Extends block db node
  checks : ∃ own checked, db.heap.backend node = .ok own ∧
    (checkBlock env block node now).Returns (withChild db node own block.id) (.ok ())
      checked
  signer : db.heap.view node
    (makeCompoundKey ObjectSpace.metadata (genesisKey env)) =
      some block.signer.publicKey.1

/-- The receipt that a transaction gives on a new temporary child of a node. -/
def AppliesTo (env : Env) (tx : Transaction) (db : Database)
    (node : Nat) (receipt : TransactionReceipt) : Prop :=
  ∃ own context, db.heap.backend node = .ok own ∧
    (applyAlone env tx).Returns
      (create (db.heap.push (some node) (childOf own nullId)) db.heap.size
        .transactionApplication) (.ok receipt) context

/-- Processed on its own, the transaction is answered with the receipt. -/
def Receives (env : Env) (tx : Transaction) (db : Database)
    (receipt : TransactionReceipt) : Prop :=
  ∃ after, (processTransaction env tx).Returns db (.ok receipt) after

/-- The block is answered with a receipt, and that names the receipt of its transaction. -/
def Includes (env : Env) (block : Block) (now : Int) (db : Database)
    (receipt : TransactionReceipt) : Prop :=
  ∃ blockReceipt after, (processBlock env block now).Returns db (.ok blockReceipt)
    after ∧ blockReceipt.transactionReceipts = [receipt]

/-- The block is applied: the node that is made for it is final when the call ends, whether it
returns or not. -/
def Applied (env : Env) (block : Block) (now : Int) (db : Database) : Prop :=
  (processBlock env block now db).2.heap.final db.heap.size = true

/-- A transaction on its own is answered with a receipt if it is well formed, names the network
and can be applied on the head. -/
theorem receives_iff {db : Database} {head : Nat} {receipt : TransactionReceipt}
    (isHead : db.head = some head) :
    Receives env tx db receipt ↔
      tx.validate env.crypto.hash = true ∧
      tx.networkId = networkId env ∧
      AppliesTo env tx db head receipt := by
  unfold Receives processTransaction
  by_cases valid : tx.validate env.crypto.hash = true
  · by_cases network : networkId env = tx.networkId
    · rw [if_neg (not_not.mpr valid), if_neg (not_not.mpr network)]
      constructor
      · rintro ⟨after, gave⟩
        simp only [returns_bind, returns_read, returns_expect] at gave
        obtain ⟨_, _, ⟨rfl, rfl⟩, found, db, ⟨isFound, rfl⟩, node, child, makes, applies⟩ := gave
        obtain rfl := Option.some.inj (isHead.symm.trans isFound)
        obtain ⟨heap, made, rfl⟩ := returns_within.mp makes
        obtain ⟨own, backs, rfl, rfl⟩ := Heap.returns_makeChild.mp made
        obtain ⟨context, appliesThere, -⟩ := returns_within.mp applies
        exact ⟨valid, network.symm, own, context, backs, appliesThere⟩
      · rintro ⟨-, -, own, context, backs, applies⟩
        have makes : (Database.onHeap (makeChild head nullId)).Returns db
            db.heap.size { db with
              heap := db.heap.push (some head) (Heap.childOf own nullId) } :=
          returns_within.mpr ⟨_, Heap.returns_makeChild.mpr ⟨own, backs, rfl, rfl⟩, rfl⟩
        exact ⟨_, returns_bind.mpr ⟨db, db, returns_read.mpr ⟨rfl, rfl⟩,
          returns_bind.mpr ⟨head, db, returns_expect.mpr ⟨isHead, rfl⟩,
          returns_bind.mpr ⟨_, _, makes, returns_within.mpr ⟨context, applies, rfl⟩⟩⟩⟩⟩
    · rw [if_neg (not_not.mpr valid), if_pos network]
      simp [returns_pure, Ne.symm network]
  · rw [if_pos valid]
    simp [returns_pure, valid]

section Included

variable {history : List (Nat × Block)} {db checked : Database} {root node : Nat} {own : Backend}

/-- After the checks, the node of the block differs from a temporary child in nothing that a
transaction depends on. -/
theorem alike_of_checked
    (checks : (checkBlock env block node now).Returns (withChild db node own block.id)
      (.ok ()) checked) :
    Context.Alike
      (create (db.heap.push (some node) (childOf own nullId)) db.heap.size .transactionApplication)
      (create checked.heap db.heap.size .blockApplication) := by
  have pushed : Heap.Alike (db.heap.push (some node) (childOf own nullId))
      (withChild db node own block.id).heap :=
    (Heap.Alike.refl db.heap).push (some node) rfl
  exact ⟨checked.heap, .blockApplication, pushed.trans (checkBlock_alike checks),
    by simp [create], rfl⟩

/-- The node of the block shows the key that its parent shows. -/
theorem get_of_checked (tracked : Tracked history db root)
    (backs : db.heap.backend node = .ok own)
    (checks : (checkBlock env block node now).Returns (withChild db node own block.id)
      (.ok ()) checked) (key : Bytes) :
    checked.heap.get db.heap.size key = .ok (db.heap.view node key) := by
  have childInside := lt_size_withChild db node own block.id
  have child := tracked.withChild backs block.id
  rw [← (checkBlock_alike checks).get, get_of_backed child.rooted.backed childInside]
  exact congrArg (fun shown : Bytes → Option Bytes => Except.ok (shown key))
    (view_makeChild (lt_size_of_backend backs) own block.id)

/-- After the checks, the block is applied as its transaction is on a temporary child. -/
theorem applyBlock_iff_appliesTo (tracked : Tracked history db root)
    (localsAgree : Context.LocalsAgree env)
    (otherwise : OtherwiseValid env block tx now db node)
    (backs : db.heap.backend node = .ok own)
    (checks : (checkBlock env block node now).Returns (withChild db node own block.id)
      (.ok ()) checked) (receipt : TransactionReceipt) :
    (∃ blockReceipt context, (applyBlock env block).Returns
        (create checked.heap db.heap.size .blockApplication) (.ok blockReceipt) context ∧
        blockReceipt.transactionReceipts = [receipt]) ↔
      AppliesTo env tx db node receipt := by
  have signed := get_of_checked tracked backs checks
    (makeCompoundKey ObjectSpace.metadata (genesisKey env))
  rw [otherwise.signer] at signed
  rw [applyBlock_iff_alone localsAgree (alike_of_checked checks) otherwise.only signed]
  constructor
  · rintro ⟨context, applies⟩
    exact ⟨own, context, backs, applies⟩
  · rintro ⟨sameOwn, context, sameBackend, applies⟩
    obtain rfl := Except.ok.inj (backs.symm.trans sameBackend)
    exact ⟨context, applies⟩

variable {applied : BlockReceipt} {context : Context}

/-- A block whose transaction can be applied is evaluated up to its acceptance. -/
theorem evaluateBlock_of_applies
    (checks : (checkBlock env block node now).Returns (withChild db node own block.id)
      (.ok ()) checked)
    (applies : (applyBlock env block).Returns
      (create checked.heap db.heap.size .blockApplication) (.ok applied) context) :
    evaluateBlock env block node db.heap.size now (withChild db node own block.id) =
      (acceptBlock env block db.heap.size applied >>= fun receipt => pure (.ok receipt))
        { checked with heap := context.heap } := by
  have appliesHere : (inContext db.heap.size .blockApplication
      (applyBlock env block)).Returns checked (.ok applied)
      { checked with heap := context.heap } := returns_within.mpr ⟨context, applies, rfl⟩
  exact (checks.bind_eq _).trans (appliesHere.bind_eq _)

/-- Up to there, everything but the node of the block is settled. -/
theorem settled_of_applies
    (checks : (checkBlock env block node now).Returns (withChild db node own block.id)
      (.ok ()) checked)
    (applies : (applyBlock env block).Returns
      (create checked.heap db.heap.size .blockApplication) (.ok applied) context) :
    Database.Settled db.heap.size (withChild db node own block.id)
      { checked with heap := context.heap } := by
  have checkSettled : Database.Settled db.heap.size _ checked :=
    (checkBlock_settled node).of_returns checks
  exact IsTrans.trans _ _ _ checkSettled ((applyBlock_settled _).of_returns
    (returns_within.mpr ⟨context, applies, rfl⟩))

/-- An otherwise valid block with a well-formed transaction is evaluated on a new node. -/
theorem OtherwiseValid.evaluates (tracked : Tracked history db root)
    (otherwise : OtherwiseValid env block tx now db node)
    (backs : db.heap.backend node = .ok own)
    (valid : tx.validate env.crypto.hash = true) :
    processBlock env block now db =
      evaluateBlock env block node db.heap.size now (withChild db node own block.id) :=
  processBlock_evaluates env now tracked
    ((validate_iff otherwise.only).mpr ⟨otherwise.header, valid⟩) otherwise.extends_ backs

/-- A block whose transaction is malformed is refused at once. -/
theorem OtherwiseValid.refused (otherwise : OtherwiseValid env block tx now db node)
    (malformed : tx.validate env.crypto.hash ≠ true) :
    processBlock env block now db = (.ok (.error (.controller .malformedBlock)), db) := by
  have blockMalformed : ¬ block.validate env.crypto = true :=
    fun valid => malformed ((validate_iff otherwise.only).mp valid).2
  rw [processBlock, if_pos blockMalformed]
  rfl

/-- A block that is otherwise valid is applied if its transaction is well formed and can be
applied on the parent. -/
theorem applied_iff (tracked : Tracked history db root) (localsAgree : Context.LocalsAgree env)
    (otherwise : OtherwiseValid env block tx now db node) :
    Applied env block now db ↔ tx.validate env.crypto.hash = true ∧
      ∃ receipt, AppliesTo env tx db node receipt := by
  obtain ⟨own, checked, backs, checks⟩ := otherwise.checks
  have applies_iff := applyBlock_iff_appliesTo tracked localsAgree otherwise backs checks
  have childInside := lt_size_withChild db node own block.id
  by_cases valid : tx.validate env.crypto.hash = true
  swap
  · rw [Applied, otherwise.refused valid]
    exact iff_of_false (fun isFinal => Nat.lt_irrefl _ (lt_size_of_final isFinal))
      fun both => valid both.1
  rw [Applied, otherwise.evaluates tracked backs valid]
  constructor
  · intro isFinal
    rcases evaluateBlock_cases env block node db.heap.size now (withChild db node own block.id) with
      ⟨_, after, evaluates, left, -⟩ | ⟨again, context, applied, checksAgain, -, applies, -⟩
    · -- A block that is left behind has a node that is not final.
      rw [evaluates, left.settled.heap.final childInside,
        final_eq (node?_withChild db node own block.id)] at isFinal
      cases isFinal
    · obtain ⟨-, rfl⟩ := checks.unique checksAgain
      obtain ⟨receipt, receipts⟩ := receipt_of_applyBlock otherwise.only applies
      exact ⟨valid, receipt, (applies_iff receipt).mp ⟨applied, context, applies, receipts⟩⟩
  · rintro ⟨-, receipt, appliesAlone⟩
    obtain ⟨applied, context, applies, -⟩ := (applies_iff receipt).mpr appliesAlone
    have settled := settled_of_applies checks applies
    rw [evaluateBlock_of_applies checks applies]
    have reachedFinal := @acceptBlock_final env block _ _ _
      ((tracked.withChild backs block.id).settled settled).rooted
      (Nat.lt_of_lt_of_le childInside settled.heap.size) applied
    rcases accepts : acceptBlock env block db.heap.size applied _ with ⟨fault | receipt, mid⟩
    · rw [accepts] at reachedFinal
      rwa [stops_bind.mpr (.inl accepts)]
    · rw [accepts] at reachedFinal
      rwa [Effect.Returns.bind_eq accepts]

/-- A block that is otherwise valid is answered with the receipt of its transaction if this is
well formed and can be applied on the parent, and the block makes no other irreversible. -/
theorem includes_iff (tracked : Tracked history db root) (localsAgree : Context.LocalsAgree env)
    (otherwise : OtherwiseValid env block tx now db node)
    {receipt : TransactionReceipt} :
    Includes env block now db receipt ↔
      tx.validate env.crypto.hash = true ∧ ¬ MakesIrreversible db node ∧
      AppliesTo env tx db node receipt := by
  obtain ⟨own, checked, backs, checks⟩ := otherwise.checks
  have applies_iff := applyBlock_iff_appliesTo tracked localsAgree otherwise backs checks
    receipt
  have childInside := lt_size_withChild db node own block.id
  constructor
  · rintro ⟨blockReceipt, after, gave, receipts⟩
    have valid : tx.validate env.crypto.hash = true := by
      by_contra malformed
      cases (Prod.mk.inj (gave.symm.trans (otherwise.refused malformed))).1
    rw [Effect.Returns, otherwise.evaluates tracked backs valid] at gave
    obtain ⟨again, context, applied, checksAgain, -, applies, -, accepts⟩ :=
      evaluateBlock_accepted gave
    obtain ⟨-, rfl⟩ := checks.unique checksAgain
    have settled := settled_of_applies checks applies
    have sameReceipts := (acceptBlock_outcome ((tracked.withChild backs block.id).settled
      settled).rooted (Nat.lt_of_lt_of_le childInside settled.heap.size) accepts).2.1
    exact ⟨valid, reversible_of_accepted tracked backs settled accepts,
      applies_iff.mp ⟨applied, context, applies, sameReceipts.symm.trans receipts⟩⟩
  · rintro ⟨valid, reversible, appliesAlone⟩
    obtain ⟨applied, context, applies, receipts⟩ := applies_iff.mpr appliesAlone
    have settled := settled_of_applies checks applies
    obtain ⟨blockReceipt, after, accepts⟩ :=
      acceptBlock_of_reversible env tracked backs reversible settled applied
    have sameReceipts := (acceptBlock_outcome ((tracked.withChild backs block.id).settled
      settled).rooted (Nat.lt_of_lt_of_le childInside settled.heap.size) accepts).2.1
    refine ⟨blockReceipt, after, ?_, sameReceipts.trans receipts⟩
    rw [Effect.Returns, otherwise.evaluates tracked backs valid,
      evaluateBlock_of_applies checks applies]
    exact returns_bind.mpr ⟨_, _, accepts, returns_pure.mpr ⟨rfl, rfl⟩⟩

end Included

/-- What the two paths should have in common: the transaction is answered with a receipt if and
only if the block applies it, the receipts are the same, and what is applied names the network. -/
structure PathsAgree (env : Env) (block : Block) (tx : Transaction) (now : Int)
    (db : Database) : Prop where
  applied : (∃ receipt, Receives env tx db receipt) ↔ Applied env block now db
  receipts : ∀ receipt, Receives env tx db receipt ↔ Includes env block now db receipt
  network : Applied env block now db → tx.networkId = networkId env

/-- In every state of a controller, a transaction and the block that has it as its only one and
is otherwise valid on the head: the two paths agree if the transaction names the network and the
block makes no other irreversible. For a well-formed transaction that can be applied on the head,
they agree in no other case. -/
theorem transaction_paths_agree {entries : List GenesisEntry} {history : List (Nat × Block)}
    {db : Database} {head : Nat} (run : ProcessRun env entries history db)
    (isHead : db.head = some head) (localsAgree : Context.LocalsAgree env)
    (otherwise : OtherwiseValid env block tx now db head) :
    (tx.networkId = networkId env ∧ ¬ MakesIrreversible db head → PathsAgree env block tx now db) ∧
    (tx.validate env.crypto.hash = true → (∃ receipt, AppliesTo env tx db head receipt) →
      PathsAgree env block tx now db →
      tx.networkId = networkId env ∧ ¬ MakesIrreversible db head) := by
  have applied := applied_iff run.tracked localsAgree otherwise
  have reported := fun receipt : TransactionReceipt =>
    @includes_iff _ _ _ _ _ _ _ _ run.tracked localsAgree otherwise receipt
  have received := fun receipt : TransactionReceipt =>
    @receives_iff env tx _ _ receipt isHead
  constructor
  · rintro ⟨named, reversible⟩
    refine ⟨?_, fun receipt => ?_, fun _ => named⟩
    · simp only [applied, received, named, true_and, exists_and_left]
    · simp only [reported, received, named, reversible, not_false_eq_true, true_and]
  · rintro valid ⟨receipt, applies⟩ ⟨-, receipts, network⟩
    have named := network (applied.mpr ⟨valid, receipt, applies⟩)
    exact ⟨named, ((reported receipt).mp ((receipts receipt).mp
      ((received receipt).mpr ⟨valid, named, applies⟩))).2.1⟩

/-- A transaction without operations that names the given network, alone in a first block. -/
def soleTransaction (network : Digest) : Transaction := sampleTransaction network 1 []

def soleBlock (network : Digest) : Block :=
  sampleBlock nullId 1 2000 (SizedBytes.zero 32) [soleTransaction network]

/-- The block with a transaction of this network is otherwise valid on the root. -/
theorem otherwiseValid_soleBlock : OtherwiseValid .plain (soleBlock (networkId .plain))
    (soleTransaction (networkId .plain)) 0 sampleGenesis 0 where
  only := rfl
  header := by decide +kernel
  extends_ := ⟨by decide +kernel, by decide +kernel, by decide +kernel⟩
  checks := by
    have rooted := run_sampleGenesis.tracked.rooted
    obtain ⟨-, own, -, -, backs⟩ := backend_of_backed rooted.backed rooted.inside
    refine ⟨own, withChild sampleGenesis 0 own (soleBlock (networkId .plain)).id, backs, ?_⟩
    unfold checkBlock
    rw [if_pos (by decide +kernel), if_neg (by decide +kernel)]
    exact returns_pure.mpr ⟨by decide +kernel, rfl⟩
  signer := view_of_get (by decide +kernel)

/-- The paths agree for it, and both apply it. -/
theorem transaction_paths_agree_for_soleBlock :
    PathsAgree .plain (soleBlock (networkId .plain)) (soleTransaction (networkId .plain)) 0
        sampleGenesis ∧
      (processTransaction .plain (soleTransaction (networkId .plain)) sampleGenesis).1.map
        (Except.map TransactionReceipt.id) = .ok (.ok (soleTransaction (networkId .plain)).id) := by
  refine ⟨(transaction_paths_agree run_sampleGenesis (by decide +kernel)
    (fun _ _ _ => rfl) otherwiseValid_soleBlock).1 ?_, by decide +kernel⟩
  have reversible : ¬ MakesIrreversible sampleGenesis 0 := by
    rw [makesIrreversible_iff (show sampleGenesis.root = some 0 by decide +kernel)
      (show sampleGenesis.heap.revision 0 = .ok 0 by decide +kernel)
      (show sampleGenesis.heap.revision 0 = .ok 0 by decide +kernel)]
    decide
  exact ⟨rfl, reversible⟩

/-- A transaction of another network is refused on its own, and applied in a block on the same
head. -/
theorem foreign_transaction_applied_in_block :
    ProcessRun .plain sampleEntries [] sampleGenesis ∧
      (soleTransaction (SizedBytes.zero 32)).networkId ≠ networkId .plain ∧
      (processTransaction .plain (soleTransaction (SizedBytes.zero 32)) sampleGenesis).1.map
        (Except.map TransactionReceipt.id) = .ok (.error (.controller .networkIdMismatch)) ∧
      (processBlock .plain (soleBlock (SizedBytes.zero 32)) 0 sampleGenesis).1.map
        (Except.map fun receipt => receipt.transactionReceipts.map TransactionReceipt.id) =
          .ok (.ok [(soleTransaction (SizedBytes.zero 32)).id]) :=
  ⟨run_sampleGenesis, by decide +kernel, by decide +kernel, by decide +kernel⟩

end Respublica.Controller
