import Respublica.Controller.History

/-!
# No replay

On a chain whose initial state stores no nonces, the stored nonce of an account counts the
transactions that were applied for it. A transaction is applied only if its nonce is the next
number, whether its operations are reverted later or not, and nothing but this step writes
under a nonce key. Chains are followed by what their last node shows, so that storage may be
rearranged between two blocks; the accepted blocks of a controller form such chains.
-/

namespace Respublica.Controller

open Foundation Effect Crypto Program Protocol StateDb Heap Forest Context

/-- How many transactions of a list take the nonce of an account. -/
def nonceCount (account : Account) (transactions : List Transaction) : Nat :=
  transactions.countP fun tx => Transaction.nonceAccount tx = account

/-- What is stored for an account with so many applied transactions. -/
def storedNonce : Nat → Option Bytes
  | 0 => none
  | count + 1 => some (storeWord (UInt64.ofNat (count + 1)))

/-- A state stores the number of transactions of every account. -/
def Counts (transactions : List Transaction) (view : Bytes → Option Bytes) : Prop :=
  ∀ account, view (nonceKey account) = storedNonce (nonceCount account transactions)

/-- Every transaction has the number that follows those of its account before it. -/
def Numbered (transactions : List Transaction) : Prop :=
  ∀ earlier tx later, transactions = earlier ++ tx :: later →
    tx.nonce =
      UInt64.ofNat (nonceCount (Transaction.nonceAccount tx) earlier + 1)

/-- One more transaction counts for its own account. -/
theorem nonceCount_concat (account : Account) (transactions : List Transaction)
    (tx : Transaction) :
    nonceCount account (transactions ++ [tx]) = nonceCount account transactions +
      if Transaction.nonceAccount tx = account then 1 else 0 := by
  simp [nonceCount, List.countP_append, List.countP_cons]

variable {transactions : List Transaction} {tx : Transaction} {parent : Nat} {block : Block}
  {db after : Database} {now : Int}

/-- Numbering goes on with the next number. -/
theorem Numbered.concat (numbered : Numbered transactions)
    (next : tx.nonce = UInt64.ofNat (nonceCount (Transaction.nonceAccount tx) transactions + 1)) :
    Numbered (transactions ++ [tx]) := by
  intro earlier other later split
  rcases List.eq_nil_or_concat later with rfl | ⟨front, last, rfl⟩
  · obtain ⟨rfl, same⟩ := List.append_inj' split rfl
    obtain rfl := List.singleton_inj.mp same
    exact next
  · rw [List.concat_eq_append, ← List.cons_append, ← List.append_assoc] at split
    obtain ⟨rfl, -⟩ := List.append_inj' split rfl
    exact numbered earlier other front rfl

/-- As long as there are fewer transactions than words, numbers are exact. -/
theorem Numbered.exact {earlier later : List Transaction} (numbered : Numbered transactions)
    (few : transactions.length < 2 ^ 64) (split : transactions = earlier ++ tx :: later) :
    tx.nonce.toNat =
      nonceCount (Transaction.nonceAccount tx) earlier + 1 := by
  have counted : nonceCount (Transaction.nonceAccount tx) earlier ≤ earlier.length :=
    List.countP_le_length
  have length : transactions.length = earlier.length + (later.length + 1) := by simp [split]
  rw [numbered earlier tx later split, UInt64.toNat_ofNat']
  exact Nat.mod_eq_of_lt (by omega)

/-- Then no two transactions of one account have the same number. -/
theorem Numbered.nodup (numbered : Numbered transactions) (few : transactions.length < 2 ^ 64) :
    (transactions.map fun tx =>
      (Transaction.nonceAccount tx, tx.nonce)).Nodup := by
  rw [List.Nodup, List.pairwise_map, List.pairwise_iff_getElem]
  intro i j iInside jInside before same
  obtain ⟨sameAccount, sameNonce⟩ := Prod.mk.inj same
  -- Both numbers count a prefix of the list, and the longer prefix contains the earlier one.
  have split (position : Nat) (inside : position < transactions.length) :
      transactions = transactions.take position ++
        transactions[position] :: transactions.drop (position + 1) := by
    rw [← List.drop_eq_getElem_cons inside, List.take_append_drop]
  have first := numbered.exact few (split i iInside)
  have second := numbered.exact few (split j jInside)
  have more : nonceCount (Transaction.nonceAccount transactions[i]) (transactions.take i) + 1 ≤
      nonceCount (Transaction.nonceAccount transactions[i]) (transactions.take j) := by
    calc nonceCount _ (transactions.take i) + 1
        = nonceCount _ (transactions.take (i + 1)) := by
          rw [List.take_succ_eq_append_getElem iInside, nonceCount_concat, if_pos rfl]
      _ ≤ nonceCount _ (transactions.take j) := (List.take_sublist_take_left before).countP_le
  rw [sameNonce, second, ← sameAccount] at first
  omega

namespace Context

variable {env : Env} {before after : Context} {earlier : List Transaction}

/-- The nonce that is read for an account is the number of its transactions. -/
theorem accountNonce_of_counts {account : Account} {nonce : UInt64}
    (counts : Counts earlier before.view)
    (gave : (accountNonce account).Returns before nonce after) :
    nonce = UInt64.ofNat (nonceCount account earlier) := by
  simp only [accountNonce, getState, returns_bind, returns_read, returns_ofExcept] at gave
  obtain ⟨found, _, ⟨_, _, ⟨rfl, rfl⟩, got, rfl⟩, rest⟩ := gave
  have stored : storedNonce (nonceCount account earlier) = found :=
    (counts account).symm.trans (view_of_get got)
  cases count : nonceCount account earlier with
  | zero =>
    obtain rfl : none = found := by rw [← stored, count]; rfl
    exact (returns_pure.mp rest).1
  | succ number =>
    obtain rfl : some (storeWord (UInt64.ofNat (number + 1))) = found := by
      rw [← stored, count]
      rfl
    have long : ¬ (storeWord (UInt64.ofNat (number + 1))).length < 8 := by simp
    simp only [if_neg long, loadWord_storeWord, returns_pure] at rest
    exact rest.1

variable {tx : Transaction}

/-- Accounts have nonces of their own. -/
theorem nonceKey_ne {account other : Account} (different : other ≠ account) :
    nonceKey account ≠ nonceKey other :=
  fun same => different (Subtype.ext (makeCompoundKey_inj.mp same).symm)

/-- A charged transaction has the next number, and its account counts one more. -/
theorem chargeTransaction_counts (counts : Counts earlier before.view)
    (gave : (chargeTransaction tx).Returns before (.ok ()) after) :
    tx.nonce =
        UInt64.ofNat (nonceCount (Transaction.nonceAccount tx) earlier + 1) ∧
      Counts (earlier ++ [tx]) after.view := by
  have next : tx.nonce =
      UInt64.ofNat (nonceCount (Transaction.nonceAccount tx) earlier + 1) := by
    obtain ⟨size, stored, storedMeter, charged⟩ := chargeTransaction_charged gave
    obtain ⟨nonce, read, next⟩ := charged.next
    rw [← next, accountNonce_of_counts counts read, UInt64.ofNat_add]
    rfl
  refine ⟨next, fun account => ?_⟩
  rw [(chargeTransaction_shows gave).2, nonceCount_concat]
  by_cases own : Transaction.nonceAccount tx = account
  · subst own
    rw [Function.update_self, if_pos rfl, next]
    rfl
  · rw [Function.update_of_ne (nonceKey_ne own), if_neg own]
    exact counts account

/-- The context stays on its node, where the transactions that were applied are counted after
the earlier ones. -/
structure Advanced (earlier applied : List Transaction) (before after : Context) : Prop where
  stateNode : after.stateNode = before.stateNode
  numbered : Numbered (earlier ++ applied)
  counts : Counts (earlier ++ applied) after.view

/-- An applied transaction advances its account, whatever becomes of its operations. -/
theorem applyTransaction_advances {receipt : TransactionReceipt} (backed : before.heap.Backed)
    (numbered : Numbered earlier) (counts : Counts earlier before.view)
    (gave : (applyTransaction env tx).Returns before (.ok receipt) after) :
    Advanced earlier [tx] before after := by
  obtain ⟨authorized, charged, executed, code, authorizes, charges, executes, -, rfl⟩ :=
    applyTransaction_phases gave
  have authorizing := (authorizeTransaction_frame tx).of_returns authorizes
  have charging := (chargeTransaction_frame tx).of_returns charges
  have authorizedCounts : Counts earlier authorized.view := fun account =>
    (authorizing.view (not_moduleKey_nonceKey account)).trans (counts account)
  obtain ⟨next, chargedCounts⟩ := chargeTransaction_counts authorizedCounts charges
  have chargedBacked := charging.heap.backed (authorizing.heap.backed backed)
  have executing (account : Account) :=
    view_of_executed chargedBacked executes (not_operationKey_nonceKey account)
  refine ⟨?_, numbered.concat next, fun account => ?_⟩
  · calc executed.stateNode = charged.stateNode := (executing tx.payer).1
      _ = authorized.stateNode := charging.stateNode
      _ = before.stateNode := authorizing.stateNode
  · exact (executing account).2.trans (chargedCounts account)

/-- Applied transactions advance their accounts one after the other. -/
theorem applyTransactions_advance {transactions : List Transaction}
    {receipts : List TransactionReceipt} (backed : before.heap.Backed) (numbered : Numbered earlier)
    (counts : Counts earlier before.view)
    (gave : (applyTransactions env transactions).Returns before (.ok receipts) after) :
    Advanced earlier transactions before after := by
  induction transactions generalizing before earlier receipts with
  | nil =>
    obtain ⟨-, rfl⟩ := returns_pure.mp gave
    refine ⟨rfl, ?_, ?_⟩
    · rwa [List.append_nil]
    · rwa [List.append_nil]
  | cons tx rest ih =>
    obtain ⟨receipt, middle, applied, continued⟩ := returns_andThen_ok.mp gave
    obtain ⟨others, final, restApplied, ended⟩ := returns_andThen_ok.mp continued
    obtain ⟨-, rfl⟩ := returns_pure.mp ended
    have first := applyTransaction_advances backed numbered counts applied
    have middleBacked : middle.heap.Backed :=
      ((applyTransaction_beyond Heap.shelters_settled tx).of_returns applied
        (Nat.zero_le _)).2.backed backed
    have later := ih middleBacked first.numbered first.counts restApplied
    refine ⟨later.stateNode.trans first.stateNode, ?_, ?_⟩
    · rw [List.append_cons]
      exact later.numbered
    · rw [List.append_cons]
      exact later.counts

/-- An applied block advances the accounts of its transactions. -/
theorem applyBlock_advances {block : Block} {receipt : BlockReceipt} (backed : before.heap.Backed)
    (numbered : Numbered earlier) (counts : Counts earlier before.view)
    (gave : (applyBlock env block).Returns before (.ok receipt) after) :
    Advanced earlier block.transactions before after := by
  obtain ⟨mid, applies, rfl⟩ := applyBlock_phases gave
  have limited : Counts earlier (view { before with
      meter := before.meter.setResourceLimits resourceLimits }) := counts
  have advanced := applyTransactions_advance (by exact backed) numbered limited applies
  exact ⟨advanced.stateNode, advanced.numbered, advanced.counts⟩

end Context

variable {env : Env}

/-- The transactions of a chain of blocks, each applied to a node that shows what the block
before it left, and what the last one left. -/
inductive Chain (env : Env) : List Transaction → (Bytes → Option Bytes) → Prop where
  | genesis {view : Bytes → Option Bytes} :
      (∀ account, view (nonceKey account) = none) → Chain env [] view
  | block {transactions : List Transaction} {heap : Heap} {node : Nat} {block : Block}
      {receipt : BlockReceipt} {after : Context} :
      Chain env transactions (heap.view node) → heap.Backed →
        (applyBlock env block).Returns
          (create heap node .blockApplication) (.ok receipt) after →
        Chain env (transactions ++ block.transactions) (after.heap.view node)

/-- Along every chain transactions are numbered and counted. -/
theorem Chain.numbered {view : Bytes → Option Bytes} (chain : Chain env transactions view) :
    Numbered transactions ∧ Counts transactions view := by
  induction chain with
  | genesis fresh =>
    refine ⟨?_, fresh⟩
    intro earlier tx later split
    cases (List.append_eq_nil_iff.mp split.symm).2
  | @block _ heap node _ _ after _ backed applied ih =>
    obtain ⟨numbered, counts⟩ := ih
    have shown : Counts _ (create heap node .blockApplication).view := counts
    have advanced := applyBlock_advances backed numbered shown applied
    have stays : after.stateNode = node := advanced.stateNode
    exact ⟨advanced.numbered, stays ▸ advanced.counts⟩

/-- The transactions of the accepted blocks from the root to a node. -/
def chainOf (history : List (Nat × Block)) (heap : Heap) (node : Nat) : List Transaction :=
  (heap.lineage node).reverse.flatMap fun mem =>
    ((history.find? fun entry => entry.1 = mem).map fun entry => entry.2.transactions).getD []

variable {entries : List GenesisEntry} {history : List (Nat × Block)} {heap : Heap} {node : Nat}

theorem chainOf_nil (heap : Heap) (node : Nat) : chainOf [] heap node = [] :=
  List.flatMap_eq_nil_iff.mpr fun _ _ => rfl

/-- A block on a later node is not on the chain of an earlier one. -/
theorem chainOf_append_of_lt {last : Nat} (block : Block) (before : node < last) :
    chainOf (history ++ [(last, block)]) heap node = chainOf history heap node := by
  refine List.flatMap_congr fun mem isMember => ?_
  have older := le_of_mem_lineage (List.mem_reverse.mp isMember)
  have apart : ¬ last = mem := by omega
  rw [List.find?_append]
  simp [apart]

/-- The chain of a new block is that of its parent and the block's transactions. -/
theorem chainOf_append_self (points : heap.parent? node = some parent)
    (later : ∀ entry ∈ history, entry.1 < node) :
    chainOf (history ++ [(node, block)]) heap node =
      chainOf history heap parent ++ block.transactions := by
  have older := parent?_lt points
  have unknown : history.find? (fun entry => entry.1 = node) = none := by
    rw [List.find?_eq_none]
    intro entry mem
    simpa using Nat.ne_of_lt (later entry mem)
  rw [← chainOf_append_of_lt block older, chainOf, lineage_eq,
    if_pos (lt_size_of_parent? points), points, List.reverse_cons, List.flatMap_append,
    List.flatMap_singleton, List.find?_append, unknown]
  simp [chainOf]

/-- A settled heap has the chains it had. -/
theorem chainOf_settled {limit : Nat} {after : Heap} (settled : Heap.Settled limit heap after)
    (inside : node < heap.size) : chainOf history after node = chainOf history heap node := by
  rw [chainOf, settled.lineage inside, ← chainOf]

/-- Initial objects under other keys leave a key unset. -/
theorem written_of_absent {writes : List (Bytes × Bytes)} {key : Bytes}
    (absent : ∀ write ∈ writes, write.1 ≠ key) (shown : Bytes → Option Bytes) :
    Database.written writes shown key = shown key := by
  induction writes generalizing shown with
  | nil => rfl
  | cons write rest ih =>
    have later := ih (fun other mem => absent other (List.mem_cons_of_mem _ mem))
      (Function.update shown write.1 (some write.2))
    exact later.trans (Function.update_of_ne (absent write List.mem_cons_self).symm _ _)

/-- A block that is refused settles all nodes. -/
theorem settled_of_refused {error : ErrorCode}
    (gave : (processBlock env block now).Returns db (.error error) after) :
    Heap.Settled db.heap.size db.heap after.heap := by
  rcases processBlock_outcome gave with ⟨rfl, -⟩ |
    ⟨parent, own, -, -, -, backs, evaluated⟩
  · exact Std.Refl.refl _
  · exact IsTrans.trans _ _ _ (settled_makeChild backs block.id)
      (evaluateBlock_refused evaluated).heap

/-- So does one that stops without making another one irreversible. -/
theorem settled_of_stopped {root : Nat} {fault : Fault} (tracked : Tracked history db root)
    (reversible : ∀ parent, Extends block db parent → ¬ MakesIrreversible db parent)
    (stopped : (processBlock env block now).Stops db fault after) :
    Heap.Settled db.heap.size db.heap after.heap := by
  rcases processBlock_stopped tracked stopped with rfl |
    ⟨parent, own, extends_, backs, evaluating⟩
  · exact Std.Refl.refl _
  · have left := leftBehind_of_stopped tracked backs (reversible parent extends_) evaluating
    exact IsTrans.trans _ _ _ (settled_makeChild backs block.id) left.settled.heap

namespace Acceptance

variable {block : Block} {now : Int} {db after checked : Database} {parent : Nat}
  {context : Context}

section

variable (acceptance : Acceptance env block now db after parent checked context)
include acceptance

/-- Up to the end of its application a block settles the nodes before its own. -/
theorem applied_settled :
    Heap.Settled db.heap.size db.heap context.heap := by
  obtain ⟨own, backs, -, checkSettled⟩ := acceptance.child
  have pushed : Heap.Settled db.heap.size db.heap
      (withChild db parent own block.id).heap := settled_makeChild backs block.id
  exact IsTrans.trans _ _ _ pushed (IsTrans.trans _ _ _ checkSettled.heap acceptance.settled.heap)

/-- Accepting an applied block changes what no node shows. -/
theorem view_after {node : Nat} (inside : node < context.heap.size) :
    after.heap.lineage node = context.heap.lineage node ∧
      after.heap.view node = context.heap.view node := by
  obtain ⟨head, forkHeads, -, settled⟩ := acceptance.finalized
  have finalizedInside : node < Forest.size (context.heap.update db.heap.size
      fun delta => { delta with final := true }) := by
    rwa [size_update]
  have shown := (settled (node + 1)).heap.view finalizedInside (Nat.lt_succ_self node)
  have linked := (settled (node + 1)).heap.lineage finalizedInside
  refine ⟨linked.trans (lineage_update _ _ _ _), shown.trans ?_⟩
  rw [Heap.view, abstraction_finalized, ← Heap.view]

/-- The block was applied to a node that showed what its parent shows. -/
theorem view_checked :
    checked.heap.view db.heap.size = db.heap.view parent := by
  obtain ⟨own, backs, checks, -⟩ := acceptance.child
  have settled : Database.Settled (db.heap.size + 1) _ checked :=
    (checkBlock_settled parent).of_returns checks
  have fresh := lt_size_withChild db parent own block.id
  rw [settled.heap.view fresh (Nat.lt_succ_self _)]
  exact view_makeChild (lt_size_of_backend backs) own block.id

end

end Acceptance

/-- A node of a run: the root's, or that of an accepted block. -/
def Standing (history : List (Nat × Block)) (node : Nat) : Prop :=
  node = 0 ∨ ∃ block, (node, block) ∈ history

theorem Standing.inside (tracked : Tracked history db 0) (standing : Standing history node) :
    node < db.heap.size := by
  rcases standing with rfl | ⟨block, mem⟩
  · exact tracked.rooted.inside
  · exact (tracked.placed node block mem).inside

/-- The node that a block extends stands. -/
theorem Extends.standing (extends_ : Extends block db node) (tracked : Tracked history db 0) :
    Standing history node := by
  obtain ⟨-, indexed⟩ := Database.id_of_findAmong extends_.named
  rcases tracked.accepted node indexed extends_.final with top | accepted
  · exact .inl ((tracked.rooted.top node (tracked.inside node indexed)).mp top)
  · exact .inr accepted

/-- Accepting a block extends the chain of its parent and leaves the others alone. -/
theorem Acceptance.chain {checked : Database} {context : Context} (tracked : Tracked history db 0)
    (acceptance : Acceptance env block now db after parent checked context)
    (chains : ∀ node, Standing history node → Chain env (chainOf history db.heap node)
      (db.heap.view node))
    (standing : Standing (history ++ [(db.heap.size, block)]) node) :
    Chain env (chainOf (history ++ [(db.heap.size, block)]) after.heap node)
      (after.heap.view node) := by
  have settled := acceptance.applied_settled
  have split : Standing history node ∨ (node, block) = (db.heap.size, block) := by
    rcases standing with isRoot | ⟨other, mem⟩
    · exact .inl (.inl isRoot)
    · rcases List.mem_append.mp mem with old | new
      · exact .inl (.inr ⟨other, old⟩)
      · exact .inr (by rw [(Prod.mk.inj (List.mem_singleton.mp new)).1])
  rcases split with old | new
  · have inside := old.inside tracked
    obtain ⟨sameLineage, sameView⟩ := acceptance.view_after (Nat.lt_of_lt_of_le inside settled.size)
    rw [sameView, settled.view inside inside, chainOf_append_of_lt block inside, chainOf,
      sameLineage, ← chainOf, chainOf_settled settled inside]
    exact chains node old
  · obtain rfl := (Prod.mk.inj new).1
    obtain ⟨own, backs, -, checkSettled⟩ := acceptance.child
    obtain ⟨receipt, applied⟩ := acceptance.applied
    obtain ⟨indexed, -, points, -⟩ := tracked.child_outcome acceptance.extends_ backs
    have childTracked := tracked.withChild backs block.id
    have childInside := childTracked.inside _ indexed
    have applySettled := IsTrans.trans _ _ _ checkSettled acceptance.settled
    have appliedInside := Nat.lt_of_lt_of_le childInside applySettled.heap.size
    have appliedPoints := (applySettled.heap.parents _ childInside).trans points
    have parentStands := acceptance.extends_.standing tracked
    have later : ∀ entry ∈ history, entry.1 < db.heap.size :=
      fun entry mem => (tracked.placed entry.1 entry.2 mem).inside
    obtain ⟨sameLineage, sameView⟩ := acceptance.view_after appliedInside
    rw [sameView, chainOf, sameLineage, ← chainOf, chainOf_append_self appliedPoints later,
      chainOf_settled settled (parentStands.inside tracked)]
    refine .block ?_ (childTracked.settled checkSettled).rooted.backed applied
    rw [acceptance.view_checked]
    exact chains parent parentStands

/-- A database whose nodes were settled has the chains it had. -/
theorem Chain.carried {before : Database}
    (chain : Chain env (chainOf history before.heap node) (before.heap.view node))
    (tracked : Tracked history before 0) (standing : Standing history node)
    (settled : Heap.Settled before.heap.size before.heap after.heap) :
    Chain env (chainOf history after.heap node) (after.heap.view node) := by
  have inside := standing.inside tracked
  rwa [chainOf_settled settled inside, settled.view inside inside]

/-- In a run from initial objects without nonces every node is the last of a chain. -/
theorem ProcessRun.chain
    (fresh : ∀ entry ∈ entries, ∀ account, entry.compoundKey ≠ nonceKey account)
    (run : ProcessRun env entries history db) (node : Nat) (standing : Standing history node) :
    Chain env (chainOf history db.heap node) (db.heap.view node) := by
  induction run generalizing node with
  | opened gave =>
    rcases standing with rfl | ⟨block, mem⟩
    · obtain ⟨-, -, -, shows⟩ := tracked_of_openController gave
      rw [chainOf_nil, shows]
      refine .genesis fun account => written_of_absent (fun write mem => ?_) _
      obtain ⟨entry, isEntry, rfl⟩ := List.mem_map.mp mem
      exact fresh entry isEntry account
    · cases mem
  | accepted run gave ih =>
    obtain ⟨parent, checked, context, acceptance⟩ := run.tracked.acceptance gave
    exact acceptance.chain run.tracked ih standing
  | refused run gave ih =>
    exact (ih node standing).carried run.tracked standing (settled_of_refused gave)
  | threw run reversible stopped ih =>
    exact (ih node standing).carried run.tracked standing
      (settled_of_stopped run.tracked reversible stopped)
  | transaction tx run ih =>
    exact (ih node standing).carried run.tracked standing
      (processTransaction_settled _ tx).heap

/-- No program, native or not, changes a stored nonce. -/
theorem Context.runProgram_keeps_nonces (tolerance : Tolerance) (account : Account) (stdin : Bytes)
    (arguments : List Bytes) (before : Context) (owner : Account) :
    (runProgram env tolerance account stdin arguments before).2.view (nonceKey owner) =
      before.view (nonceKey owner) :=
  (runProgramAt_frame (fun account _ => permits_operationKey account) (permits_operationKey coin)
    fullRoom tolerance account stdin arguments before).view (not_operationKey_nonceKey owner)

/-- No replay. On every chain of fewer than 2^64 transactions each transaction was applied with
the number that follows those of its account, so no two share account and number; the accepted
blocks of a controller stand on such chains; and no program changes a nonce. -/
theorem applied_nonces_are_consecutive (env : Env) :
    (∀ transactions view, Chain env transactions view → transactions.length < 2 ^ 64 →
      (∀ earlier tx later, transactions = earlier ++ tx :: later → tx.nonce.toNat =
          nonceCount (Transaction.nonceAccount tx) earlier + 1) ∧
      (transactions.map fun tx =>
        (Transaction.nonceAccount tx, tx.nonce)).Nodup) ∧
    (∀ entries history db, (∀ entry ∈ entries, ∀ account, entry.compoundKey ≠ nonceKey account) →
        ProcessRun env entries history db →
        ∀ node block, (node, block) ∈ history →
          Chain env (chainOf history db.heap node) (db.heap.view node)) ∧
    ∀ tolerance account stdin arguments before owner,
      (runProgram env tolerance account stdin arguments before).2.view
        (nonceKey owner) = before.view (nonceKey owner) := by
  refine ⟨?_, ?_, fun tolerance account stdin arguments before owner =>
    runProgram_keeps_nonces tolerance account stdin arguments before owner⟩
  · intro transactions view chain few
    obtain ⟨numbered, -⟩ := chain.numbered
    exact ⟨fun _ _ _ split => numbered.exact few split, numbered.nodup few⟩
  · intro entries history db fresh run node block mem
    exact run.chain fresh node (.inr ⟨block, mem⟩)

/-- A transaction whose call is reverted, and the next one of its account. -/
def revertedTransaction : Transaction :=
  sampleTransaction (networkId .plain) 1 [.callProgram (SizedBytes.fit 33 [1, 7]) ⟨[], []⟩]

def nextTransaction : Transaction := sampleTransaction (networkId .plain) 2 []

/-- Two blocks with a transaction each. -/
def firstPaying : Block := sampleBlock nullId 1 2000 (SizedBytes.zero 32) [revertedTransaction]

def afterFirstPaying : Database := (processBlock .plain firstPaying 0 sampleGenesis).2

theorem run_afterFirstPaying :
    ProcessRun .plain sampleEntries [(1, firstPaying)] afterFirstPaying :=
  run_sampleGenesis.extended firstPaying 0 (show sampleGenesis.heap.size = 1 by decide +kernel)
    (show (processBlock .plain firstPaying 0 sampleGenesis).1.map
      (Except.map BlockReceipt.height) = .ok (.ok 1) by decide +kernel)

def secondPaying : Block :=
  sampleBlock firstPaying.id 2 3000
    (reportedRoot (processBlock .plain firstPaying 0 sampleGenesis).1) [nextTransaction]

def afterSecondPaying : Database := (processBlock .plain secondPaying 0 afterFirstPaying).2

theorem run_afterSecondPaying :
    ProcessRun .plain sampleEntries [(1, firstPaying), (3, secondPaying)] afterSecondPaying :=
  run_afterFirstPaying.extended secondPaying 0
    (show afterFirstPaying.heap.size = 3 by decide +kernel)
    (show (processBlock .plain secondPaying 0 afterFirstPaying).1.map
      (Except.map BlockReceipt.height) = .ok (.ok 2) by decide +kernel)

/-- The second transaction of an account on such a chain has number two. -/
theorem applied_nonces_are_consecutive_after_revert :
    nextTransaction.nonce.toNat = nonceCount sampleSigner [revertedTransaction] + 1 := by
  obtain ⟨numbers, chains, -⟩ := applied_nonces_are_consecutive .plain
  have fresh : ∀ entry ∈ sampleEntries, ∀ account, entry.compoundKey ≠ nonceKey account := by
    intro entry mem account
    obtain rfl := List.mem_singleton.mp mem
    exact makeCompoundKey_ne (by decide) _ _
  have chain := chains _ _ _ fresh run_afterSecondPaying 3 secondPaying (by simp)
  have transactions : chainOf [(1, firstPaying), (3, secondPaying)] afterSecondPaying.heap 3 =
      [revertedTransaction, nextTransaction] := by decide +kernel
  rw [transactions] at chain
  exact (numbers _ _ chain (by decide)).1 [revertedTransaction] nextTransaction [] rfl

end Respublica.Controller
