import Respublica.Controller.Frame

/-!
# The phases of a transaction

What each phase of `apply(transaction)` does to the state, phase by phase: asking for
authority writes under module keys on the node of the block, charging writes the nonce
there, and the operations write on a node of their own. Results about whole transactions
are put together from these.
-/

namespace Respublica.Controller

open Foundation Effect Crypto Program Protocol StateDb Heap Context

section Results

variable {First Second : Type} {before after : Context}

variable {first : Run (Result First)} {next : First → Run (Result Second)}

/-- A chain of results ends in its second half, or with the error of its first. -/
theorem returns_andThen {result : Result Second} :
    (andThen first next).Returns before result after ↔
      (∃ value mid, first.Returns before (.ok value) mid ∧ (next value).Returns mid result after) ∨
      ∃ error, first.Returns before (.error error) after ∧ result = .error error := by
  simp only [andThen, returns_bind]
  constructor
  · rintro ⟨outcome, mid, gave, continued⟩
    cases outcome with
    | error error =>
      obtain ⟨rfl, rfl⟩ := returns_pure.mp continued
      exact .inr ⟨error, gave, rfl⟩
    | ok value => exact .inl ⟨value, mid, gave, continued⟩
  · rintro (⟨value, mid, gave, continued⟩ | ⟨error, gave, rfl⟩)
    · exact ⟨.ok value, mid, gave, continued⟩
    · exact ⟨.error error, after, gave, returns_pure.mpr ⟨rfl, rfl⟩⟩

/-- A chain that ends well has gone well from the start. -/
theorem returns_andThen_ok {value : Second} :
    (andThen first next).Returns before (.ok value) after ↔
      ∃ given mid, first.Returns before (.ok given) mid ∧
        (next given).Returns mid (.ok value) after := by
  simp [returns_andThen]

/-- A code that is no failure becomes the unit. -/
theorem returns_unlessFailed {code : Run ErrorCode} {result : Result Unit} :
    (unlessFailed code).Returns before result after ↔
      ∃ given, code.Returns before given after ∧
        result = if given.failed then .error given else .ok () := by
  simp only [unlessFailed, returns_bind, returns_pure]
  constructor
  · rintro ⟨given, _, gave, rfl, rfl⟩
    exact ⟨given, gave, rfl⟩
  · rintro ⟨given, gave, rfl⟩
    exact ⟨given, after, gave, rfl, rfl⟩

end Results

/-- Where the nonce of an account is stored. -/
def nonceKey (account : Account) : Bytes :=
  makeCompoundKey ObjectSpace.transactionNonce account.1

/-- The keys operations write under: those of program objects and of program data. -/
def OperationKey (key : Bytes) : Prop :=
  key.head? = some 0 ∨ ∃ id : Account, key = makeCompoundKey ObjectSpace.programData id.1

theorem permits_operationKey (account : Account) : Permits OperationKey account :=
  fun _ _ => .inl rfl

/-- No operation writes a nonce. -/
theorem not_operationKey_nonceKey (account : Account) : ¬ OperationKey (nonceKey account) := by
  rintro (program | ⟨id, same⟩)
  · have heads : some (1 : UInt8) = some 0 := program
    exact absurd heads (by decide)
  · exact makeCompoundKey_ne (by decide) _ _ same

/-- No module writes a nonce. -/
theorem not_moduleKey_nonceKey (account : Account) : ¬ ModuleKey (nonceKey account) := by
  intro isModule
  have heads : [1, 0, 0, 0, 0] = [0, 0, 0, 0, (1 : UInt8)] := isModule
  exact absurd heads (by decide)

namespace Context

variable {env : Env} {writes : Bytes → Prop} {before after : Context}

theorem requireAuthority_frame (permits : ∀ account : Account, account.type = .program →
      Permits writes account) (account : Account) :
    (requireAuthority env account).Keeps (Frame writes) :=
  requireAuthority_kept (checkAuthority_modules permits fullRoom account)

/-- Asking payer and payee writes under module keys. -/
theorem authorizeTransaction_frame (tx : Transaction) :
    (authorizeTransaction env tx).Keeps (Frame ModuleKey) :=
  authorizeTransaction_kept (requireAuthority_frame (fun _ type => permits_moduleKey type) _)
    fun _ => requireAuthority_frame (fun _ type => permits_moduleKey type) _

/-- Operations write under the keys of operations. -/
theorem applyOperations_frame (operations : List Operation) :
    (applyOperations env operations).Keeps (Frame OperationKey) :=
  applyOperations_kept (requireAuthority_frame fun account _ => permits_operationKey account)
    (fun id value => putState_frame value (.inr ⟨id, rfl⟩))
    (runProgramAt_frame (fun account _ => permits_operationKey account) (permits_operationKey coin)
      fullRoom .strict) operations

variable {account : Account} {nonce : UInt64} {code : ErrorCode} {tx : Transaction}
  {receipt : BlockReceipt} {block : Block}

/-- Storing a nonce: a write, and then the meter. -/
theorem returns_setAccountNonce :
    (setAccountNonce account nonce).Returns before code after ↔
      ∃ size heap meter,
        (Heap.put before.stateNode (nonceKey account) (storeWord nonce)).Returns before.heap size
          heap ∧
        (Meter.useDiskStorage (UInt64.ofInt size)).Returns before.meter code meter ∧
        after = { before with heap := heap, meter := meter } := by
  simp only [setAccountNonce, putState, onHeap, onMeter, returns_bind, returns_read, returns_within]
  constructor
  · rintro ⟨size, _, ⟨_, _, ⟨rfl, rfl⟩, heap, stored, rfl⟩, meter, used, rfl⟩
    exact ⟨size, heap, meter, stored, used, rfl⟩
  · rintro ⟨size, heap, meter, stored, used, rfl⟩
    exact ⟨size, _, ⟨before, before, ⟨rfl, rfl⟩, heap, stored, rfl⟩, meter, used, rfl⟩

theorem accountNonce_unchanged (gave : (accountNonce account).Returns before nonce after) :
    after = before := by
  simp only [accountNonce, getState, returns_bind, returns_read, returns_ofExcept] at gave
  obtain ⟨object, _, ⟨_, _, ⟨rfl, rfl⟩, -, rfl⟩, gave⟩ := gave
  cases object with
  | none => exact (returns_pure.mp gave).2
  | some bytes =>
    simp only [returns_ite, not_returns_fail, returns_pure] at gave
    split at gave
    · exact gave.elim
    · exact gave.2

/-- What a charge that goes well consists of: the nonce was the next one, it was stored and paid
for, and the size of the transaction was paid for. -/
structure Charged (tx : Transaction) (before after : Context) (size : Int) (stored : Heap)
    (storedMeter : Meter) : Prop where
  next : ∃ nonce, (accountNonce (Transaction.nonceAccount tx)).Returns before nonce before ∧
    nonce + 1 = tx.nonce
  put : (Heap.put before.stateNode (nonceKey (Transaction.nonceAccount tx))
    (storeWord tx.nonce)).Returns before.heap size stored
  paid : ∃ code, (Meter.useDiskStorage (UInt64.ofInt size)).Returns before.meter code storedMeter ∧
    code.failed = false
  sent : ∃ code, (Meter.useNetworkBandwidth (UInt64.ofNat tx.size)).Returns storedMeter
    code after.meter
  after_eq : after = { before with heap := stored, meter := after.meter }

/-- A transaction that is charged has stored its nonce and paid for it and for its size. -/
theorem chargeTransaction_charged
    (gave : (chargeTransaction tx).Returns before (.ok ()) after) :
    ∃ size stored storedMeter, Charged tx before after size stored storedMeter := by
  obtain ⟨nonce, _, read, continued⟩ := returns_bind.mp gave
  obtain rfl := accountNonce_unchanged read
  split at continued
  · cases (returns_pure.mp continued).1
  · rename_i next
    obtain ⟨_, _, wrote, paid⟩ := returns_andThen_ok.mp continued
    obtain ⟨code, wrote, well⟩ := returns_unlessFailed.mp wrote
    obtain ⟨size, heap, meter, put, used, rfl⟩ := returns_setAccountNonce.mp wrote
    obtain ⟨sentCode, sent, -⟩ := returns_unlessFailed.mp paid
    obtain ⟨sentMeter, sends, rfl⟩ := returns_within.mp sent
    have succeeded : code.failed = false := by
      cases failed : code.failed with
      | false => rfl
      | true =>
        rw [failed] at well
        cases well
    exact ⟨size, heap, meter, ⟨nonce, read, not_not.mp next⟩, put, ⟨code, used, succeeded⟩,
      ⟨sentCode, sends⟩, rfl⟩

/-- A charged transaction has its nonce stored and nothing else. -/
theorem chargeTransaction_shows (gave : (chargeTransaction tx).Returns before (.ok ()) after) :
    after.stateNode = before.stateNode ∧ after.view = Function.update before.view
      (nonceKey (Transaction.nonceAccount tx)) (some (storeWord tx.nonce)) := by
  obtain ⟨size, stored, storedMeter, charged⟩ := chargeTransaction_charged gave
  rw [charged.after_eq]
  exact ⟨rfl, view_of_put charged.put⟩

/-- The operations run on a new child node, which is squashed when they all went well and
forgotten otherwise. -/
theorem returns_executeTransaction :
    (executeTransaction env tx).Returns before code after ↔
      ∃ node heap outcome finished,
        (makeChild before.stateNode nullId).Returns before.heap node heap ∧
        (applyOperations env tx.operations).Returns
          { before with heap := heap, stateNode := node } outcome finished ∧
        if outcome.failed then
          code = outcome ∧ after = { finished with stateNode := before.stateNode }
        else ∃ squashed, (Heap.squashTemporary node).Returns finished.heap () squashed ∧
          code = .controller .ok ∧
          after = { finished with heap := squashed, stateNode := before.stateNode } := by
  simp only [executeTransaction, onHeap, setStateNode, returns_bind, returns_read,
    returns_within, returns_modify, returns_ite, returns_pure]
  constructor
  · rintro ⟨_, _, ⟨rfl, rfl⟩, node, _, ⟨heap, made, rfl⟩, _, _, rfl, outcome, finished, ran, ended⟩
    refine ⟨node, heap, outcome, finished, made, ran, ?_⟩
    split at ended <;> rename_i failed
    · obtain ⟨_, _, rfl, rfl, rfl⟩ := ended
      simp [failed]
    · obtain ⟨_, _, ⟨squashed, squash, rfl⟩, _, _, rfl, rfl, rfl⟩ := ended
      rw [if_neg failed]
      exact ⟨squashed, squash, rfl, rfl⟩
  · rintro ⟨node, heap, outcome, finished, made, ran, ended⟩
    refine ⟨before, before, ⟨rfl, rfl⟩, node, _, ⟨heap, made, rfl⟩, (), _, rfl, outcome, finished,
      ran, ?_⟩
    split at ended <;> rename_i failed
    · obtain ⟨rfl, rfl⟩ := ended
      simp [failed]
    · obtain ⟨squashed, squash, rfl, rfl⟩ := ended
      rw [if_neg failed]
      exact ⟨(), _, ⟨squashed, squash, rfl⟩, (), _, rfl, rfl, rfl⟩

/-- A node made for operations is not seen from the node it was made on, whatever is
written there. -/
theorem view_of_child {node : Nat} {heap : Heap} {finished : Context}
    (made : (makeChild before.stateNode nullId).Returns before.heap node heap)
    (frame : Frame writes { before with heap := heap, stateNode := node } finished) :
    finished.heap.view before.stateNode = before.view := by
  obtain ⟨own, backs, rfl, rfl⟩ := returns_makeChild.mp made
  have inside := lt_size_of_backend backs
  have apart : before.heap.size ∉ Forest.lineage
      (before.heap.push (some before.stateNode) (childOf own nullId)) before.stateNode := by
    rw [Forest.lineage_push_of_lt inside]
    exact fun mem => Nat.lt_irrefl _ (Forest.lt_size_of_mem_lineage mem)
  refine (frame.heap.view_of_not_mem apart).trans ?_
  have insideAbstract : before.stateNode < Forest.size before.heap.abstraction := by
    simpa [Heap.abstraction] using inside
  rw [Heap.view, abstraction_makeChild inside]
  exact OverlayTree.view_push_of_lt insideAbstract

/-- The operations start on what the node of the block shows. When they go well it shows
what they left, and what it showed before otherwise. -/
theorem executeTransaction_views (backed : before.heap.Backed)
    (gave : (executeTransaction env tx).Returns before code after) :
    ∃ node heap outcome finished,
      (makeChild before.stateNode nullId).Returns before.heap node heap ∧
      (applyOperations env tx.operations).Returns
        { before with heap := heap, stateNode := node } outcome finished ∧
      heap.view node = before.view ∧ after.stateNode = before.stateNode ∧
      after.view = if outcome.failed then before.view else finished.view := by
  obtain ⟨node, heap, outcome, finished, made, ran, ended⟩ := returns_executeTransaction.mp gave
  have frame := (applyOperations_frame tx.operations).of_returns ran
  have shown := view_of_child made frame
  refine ⟨node, heap, outcome, finished, made, ran, ?_⟩
  obtain ⟨own, backs, rfl, rfl⟩ := returns_makeChild.mp made
  have inside := lt_size_of_backend backs
  refine ⟨view_makeChild inside own nullId, ?_⟩
  split at ended <;> rename_i failed
  · obtain ⟨-, rfl⟩ := ended
    rw [if_pos failed]
    exact ⟨rfl, shown⟩
  · obtain ⟨squashed, squash, -, rfl⟩ := ended
    have points : finished.heap.parent? before.heap.size = some before.stateNode := by
      rw [frame.heap.parents]
      simp [Forest.parent?_push, Option.filter, inside]
    have finishedBacked := frame.heap.backed (backed_push backed rfl)
    have finishedNode : finished.stateNode = before.heap.size := frame.stateNode
    rw [if_neg failed, view, view, finishedNode]
    exact ⟨rfl, view_of_squash finishedBacked points (squash_of_squashTemporary squash)⟩

/-- Operations that fail leave no trace on the node of the block. -/
theorem view_of_reverted (gave : (executeTransaction env tx).Returns before code after)
    (failed : code.failed = true) :
    after.stateNode = before.stateNode ∧ after.view = before.view := by
  obtain ⟨node, heap, outcome, finished, made, ran, ended⟩ := returns_executeTransaction.mp gave
  have frame := (applyOperations_frame tx.operations).of_returns ran
  have shown := view_of_child made frame
  split at ended
  · obtain ⟨-, rfl⟩ := ended
    exact ⟨rfl, shown⟩
  · obtain ⟨squashed, -, rfl, -⟩ := ended
    exact absurd failed (by decide)

/-- Whether operations fail or not, the node of the block shows what it showed outside the
keys of operations. -/
theorem view_of_executed (backed : before.heap.Backed)
    (gave : (executeTransaction env tx).Returns before code after) {key : Bytes}
    (outside : ¬ OperationKey key) :
    after.stateNode = before.stateNode ∧ after.view key = before.view key := by
  obtain ⟨node, heap, outcome, finished, made, ran, started, stateNode, shown⟩ :=
    executeTransaction_views backed gave
  have frame := (applyOperations_frame tx.operations).of_returns ran
  refine ⟨stateNode, ?_⟩
  rw [shown]
  split
  · rfl
  · exact (frame.view outside).trans (congrFun started key)

/-- An applied transaction went through its phases one by one, and its receipt was drawn up
after the last one. -/
theorem applyTransaction_reports {receipt : TransactionReceipt}
    (applied : (applyTransaction env tx).Returns before (.ok receipt) after) :
    ∃ authorized charged executed code,
      (authorizeTransaction env tx).Returns
        (beginTransaction tx before) (.ok ()) authorized ∧
      (chargeTransaction tx).Returns authorized (.ok ()) charged ∧
      (executeTransaction env tx).Returns charged code executed ∧
      (transactionReceipt tx before.meter.remaining code).Returns executed receipt
        { executed with frames := [] } ∧
      after = endSession { executed with frames := [] } := by
  obtain ⟨mid, inner, rfl⟩ := returns_ensuring.mp applied
  obtain ⟨_, _, read, started⟩ := returns_bind.mp inner
  obtain ⟨rfl, rfl⟩ := returns_read.mp read
  obtain ⟨_, _, begun, phases⟩ := returns_bind.mp started
  obtain rfl := returns_modify.mp begun
  obtain ⟨_, authorized, authorizes, afterFirst⟩ := returns_andThen_ok.mp phases
  obtain ⟨_, charged, charges, afterSecond⟩ := returns_andThen_ok.mp afterFirst
  obtain ⟨code, executed, executes, receipts⟩ := returns_bind.mp afterSecond
  obtain ⟨_, _, reports, ended⟩ := returns_bind.mp receipts
  obtain ⟨same, rfl⟩ := returns_pure.mp ended
  obtain rfl := Except.ok.inj same
  have cleared := reports
  simp only [transactionReceipt, returns_bind, returns_read, returns_modify,
    returns_pure] at cleared
  obtain ⟨_, _, ⟨rfl, rfl⟩, _, _, rfl, -, rfl⟩ := cleared
  exact ⟨authorized, charged, _, code, authorizes, charges, executes, reports, rfl⟩

/-- A transaction that is applied has been authorized, charged and executed. -/
theorem applyTransaction_phases {receipt : TransactionReceipt}
    (applied : (applyTransaction env tx).Returns before (.ok receipt) after) :
    ∃ authorized charged executed code,
      (authorizeTransaction env tx).Returns
        (beginTransaction tx before) (.ok ()) authorized ∧
      (chargeTransaction tx).Returns authorized (.ok ()) charged ∧
      (executeTransaction env tx).Returns charged code executed ∧
      receipt.reverted = code.failed ∧
      after = endSession { executed with frames := [] } := by
  obtain ⟨authorized, charged, executed, code, authorizes, charges, executes, reports, ended⟩ :=
    applyTransaction_reports applied
  simp only [transactionReceipt, returns_bind, returns_read, returns_modify,
    returns_pure] at reports
  obtain ⟨_, _, ⟨rfl, rfl⟩, _, _, -, rfl, -⟩ := reports
  exact ⟨authorized, charged, _, code, authorizes, charges, executes, rfl, ended⟩

/-- A transaction that goes through its phases is applied. -/
theorem applyTransaction_of_phases {authorized charged executed : Context}
    (authorizes : (authorizeTransaction env tx).Returns (beginTransaction tx before)
      (.ok ()) authorized)
    (charges : (chargeTransaction tx).Returns authorized (.ok ()) charged)
    (executes : (executeTransaction env tx).Returns charged code executed) :
    ∃ receipt, (applyTransaction env tx).Returns before (.ok receipt)
      (endSession { executed with frames := [] }) := by
  obtain ⟨receipt, reports⟩ : ∃ receipt,
      (transactionReceipt tx before.meter.remaining code).Returns executed receipt
        { executed with frames := [] } :=
    ⟨_, returns_bind.mpr ⟨executed, executed, returns_read.mpr ⟨rfl, rfl⟩,
      returns_bind.mpr ⟨(), _, returns_modify.mpr rfl, returns_pure.mpr ⟨rfl, rfl⟩⟩⟩⟩
  refine ⟨receipt, returns_ensuring.mpr ⟨{ executed with frames := [] }, ?_, rfl⟩⟩
  refine returns_bind.mpr ⟨before, before, returns_read.mpr ⟨rfl, rfl⟩, ?_⟩
  refine returns_bind.mpr ⟨(), _, returns_modify.mpr rfl, ?_⟩
  refine returns_andThen_ok.mpr ⟨(), authorized, authorizes, ?_⟩
  refine returns_andThen_ok.mpr ⟨(), charged, charges, ?_⟩
  refine returns_bind.mpr ⟨code, executed, executes, ?_⟩
  exact returns_bind.mpr ⟨receipt, _, reports, returns_pure.mpr ⟨rfl, rfl⟩⟩

section

variable (applied : (applyBlock env block).Returns before (.ok receipt) after)
include applied

/-- In an applied block the transactions were applied, under the limits of a block, and the
receipt says what is then missing from these limits. -/
theorem applyBlock_reports :
    ∃ mid, (applyTransactions env block.transactions).Returns
        { before with meter := before.meter.setResourceLimits resourceLimits }
        (.ok receipt.transactionReceipts) mid ∧
      after = { mid with frames := [] } ∧
      receipt.diskStorageUsed =
        resourceLimits.limit.diskStorage - mid.meter.remaining.diskStorage ∧
      receipt.networkBandwidthUsed =
        resourceLimits.limit.networkBandwidth - mid.meter.remaining.networkBandwidth ∧
      receipt.computeBandwidthUsed =
        resourceLimits.limit.computeBandwidth - mid.meter.remaining.computeBandwidth := by
  simp only [applyBlock, getState, returns_bind, returns_read, returns_modify,
    returns_ofExcept] at applied
  obtain ⟨_, _, rfl, _, _, ⟨rfl, rfl⟩, key, _, ⟨_, _, ⟨rfl, rfl⟩, -, rfl⟩, rest⟩ := applied
  cases key with
  | none => exact (not_returns_fail rest).elim
  | some key =>
    simp only at rest
    split at rest
    · cases (returns_pure.mp rest).1
    · obtain ⟨receipts, mid, applies, ended⟩ := returns_andThen_ok.mp rest
      simp only [returns_bind, returns_read, returns_modify, returns_pure, Except.ok.injEq] at ended
      obtain ⟨_, mid, ⟨rfl, rfl⟩, _, _, rfl, rfl, rfl⟩ := ended
      exact ⟨mid, applies, rfl, rfl, rfl, rfl⟩

/-- A block that is applied has its transactions applied in a row. -/
theorem applyBlock_phases :
    ∃ mid, (applyTransactions env block.transactions).Returns
        { before with meter := before.meter.setResourceLimits resourceLimits }
        (.ok receipt.transactionReceipts) mid ∧
      after = { mid with frames := [] } := by
  obtain ⟨mid, applies, ended, -⟩ := applyBlock_reports applied
  exact ⟨mid, applies, ended⟩

/-- An applied block is signed with the genesis key that its node shows. -/
theorem applyBlock_signed :
    before.heap.get before.stateNode
      (makeCompoundKey ObjectSpace.metadata (genesisKey env)) =
        .ok (some block.signer.publicKey.1) := by
  simp only [applyBlock, getState, returns_bind, returns_read, returns_modify,
    returns_ofExcept] at applied
  obtain ⟨_, _, rfl, _, _, ⟨rfl, rfl⟩, key, _, ⟨_, _, ⟨rfl, rfl⟩, found, rfl⟩, rest⟩ := applied
  cases key with
  | none => exact (not_returns_fail rest).elim
  | some key =>
    simp only at rest
    split at rest
    · cases (returns_pure.mp rest).1
    · rename_i same
      rw [not_not.mp same] at found
      exact found

end

/-- A block of the genesis key is applied when its transactions are. -/
theorem applyBlock_of_phases {receipts : List TransactionReceipt} {mid : Context}
    (signed : before.heap.get before.stateNode
      (makeCompoundKey ObjectSpace.metadata (genesisKey env)) = .ok (some block.signer.publicKey.1))
    (applies : (applyTransactions env block.transactions).Returns
      { before with meter := before.meter.setResourceLimits resourceLimits } (.ok receipts) mid) :
    ∃ receipt : BlockReceipt, receipt.transactionReceipts = receipts ∧
      (applyBlock env block).Returns before (.ok receipt) { mid with frames := [] } := by
  let limited : Context := { before with meter := before.meter.setResourceLimits resourceLimits }
  have reads : (getState ObjectSpace.metadata (genesisKey env)).Returns limited
      (some block.signer.publicKey.1) limited :=
    returns_bind.mpr ⟨limited, limited, returns_read.mpr ⟨rfl, rfl⟩,
      returns_ofExcept.mpr ⟨signed, rfl⟩⟩
  obtain ⟨receipt, applied⟩ : ∃ receipt, (applyBlock env block).Returns before (.ok receipt)
      { mid with frames := [] } := by
    refine Exists.imp (fun _ rest => returns_bind.mpr
      ⟨(), limited, returns_modify.mpr rfl, rest⟩) ?_
    refine Exists.imp (fun _ rest => returns_bind.mpr
      ⟨limited, limited, returns_read.mpr ⟨rfl, rfl⟩, rest⟩) ?_
    refine Exists.imp (fun _ rest => returns_bind.mpr ⟨_, limited, reads, rest⟩) ?_
    simp only [ne_eq, not_true_eq_false, if_false]
    refine Exists.imp (fun _ rest => returns_andThen_ok.mpr ⟨receipts, mid, applies, rest⟩) ?_
    exact ⟨_, returns_bind.mpr ⟨mid, mid, returns_read.mpr ⟨rfl, rfl⟩,
      returns_bind.mpr ⟨(), _, returns_modify.mpr rfl, returns_pure.mpr ⟨rfl, rfl⟩⟩⟩⟩
  obtain ⟨_, again, -⟩ := applyBlock_phases applied
  exact ⟨receipt, Except.ok.inj (again.unique applies).1, applied⟩

/-- The context of a block on a finalized state with the given objects. -/
def blockOn (objects : List (Bytes × Bytes)) : Context :=
  let genesis : Backend := ⟨Std.ExtTreeMap.ofList objects, nullId, 0, SizedBytes.zero 32⟩
  let root : Heap := Forest.empty.push none ⟨some genesis, ∅, none, true⟩
  let context := create (root.push (some 0) (childOf genesis (SizedBytes.fit 32 [1]))) 1
    .blockApplication
  { context with meter := context.meter.setResourceLimits resourceLimits }

theorem backed_blockOn (objects : List (Bytes × Bytes)) : (blockOn objects).heap.Backed :=
  backed_push (backed_push backed_empty rfl) rfl

end Context

/-- The errors a routine returns are failures. -/
def Fails {Value : Type} (routine : Run (Result Value)) : Prop :=
  ∀ before after error, routine.Returns before (.error error) after → error.failed = true

section Fails

variable {First Second : Type} {env : Env}

theorem fails_ok (value : First) : Fails (pure (.ok value) : Run (Result First)) := by
  intro before after error gave
  cases (returns_pure.mp gave).1

theorem fails_error {error : ErrorCode} (failed : error.failed = true) :
    Fails (pure (.error error) : Run (Result First)) := by
  intro before after other gave
  obtain ⟨same, -⟩ := returns_pure.mp gave
  obtain rfl := Except.error.inj same
  exact failed

variable {first : Run (Result First)} {next : First → Run (Result Second)}

theorem fails_andThen (firstFails : Fails first) (nextFails : ∀ value, Fails (next value)) :
    Fails (andThen first next) := by
  intro before after error gave
  rcases returns_andThen.mp gave with ⟨value, mid, -, continued⟩ | ⟨other, stopped, same⟩
  · exact nextFails value _ _ _ continued
  · obtain rfl := Except.error.inj same
    exact firstFails _ _ _ stopped

theorem fails_bind {first : Run First} (nextFails : ∀ value, Fails (next value)) :
    Fails (first >>= next) := by
  intro before after error gave
  obtain ⟨value, mid, -, continued⟩ := returns_bind.mp gave
  exact nextFails value _ _ _ continued

theorem fails_ite {condition : Prop} [Decidable condition] {second : Run (Result First)}
    (firstFails : Fails first) (secondFails : Fails second) :
    Fails (if condition then first else second) := by
  split
  · exact firstFails
  · exact secondFails

theorem fails_unlessFailed (code : Run ErrorCode) : Fails (unlessFailed code) := by
  intro before after error gave
  obtain ⟨given, -, same⟩ := returns_unlessFailed.mp gave
  split at same
  · rename_i failed
    obtain rfl := Except.error.inj same
    exact failed
  · cases same

/-- A program that is run strictly surfaces failures only. -/
theorem runProgramAt_fails (room : Nat) (account : Account) (stdin : Bytes)
    (arguments : List Bytes) :
    Fails (runProgramAt env room .strict account stdin arguments) := by
  cases room with
  | zero => exact fails_error rfl
  | succ room =>
    intro before after error gave
    rw [Effect.Returns, runProgramAt_succ] at gave
    split at gave
    · obtain rfl := Except.error.inj (Except.ok.inj (Prod.mk.inj gave).1)
      rfl
    · obtain ⟨mid, inner, -⟩ := returns_ensuring.mp gave
      obtain ⟨code, finished, executed, surfaced⟩ := returns_bind.mp inner
      split at surfaced
      · rename_i surfaces
        obtain ⟨same, -⟩ := returns_pure.mp surfaced
        obtain rfl := Except.error.inj same
        cases type : account.type with
        | program => simpa [Context.surfaces, type] using surfaces
        | nativeProgram => simpa [Context.surfaces, type] using surfaces
        | user =>
          simp only [executeProgram, type] at executed
          obtain ⟨rfl, -⟩ := returns_pure.mp executed
          rfl
        | invalid =>
          simp only [executeProgram, type] at executed
          obtain ⟨rfl, -⟩ := returns_pure.mp executed
          rfl
      · obtain ⟨_, _, -, ended⟩ := returns_bind.mp surfaced
        cases (returns_pure.mp ended).1

theorem scanAuthorizations_fails (crypto : Primitives) (id : Digest) (account : Account)
    (authorizations : List Authorization) :
    Fails (scanAuthorizations crypto id account authorizations) := by
  induction authorizations with
  | nil => exact fails_ok _
  | cons authorization rest ih =>
    exact fails_ite (fails_bind fun _ => fails_ite (fails_ok _) ih) (fails_error rfl)

/-- Authority fails with errors. -/
theorem authority_fails (account : Account) : Fails (authority env account) := by
  refine fails_bind fun _ => fails_bind fun context => ?_
  refine fails_ite (fails_error rfl) (fails_ite ?_ ?_)
  · intro before after error gave
    obtain ⟨output, mid, ran, answered⟩ := returns_bind.mp gave
    obtain ⟨same, -⟩ := returns_pure.mp answered
    cases output with
    | error code =>
      obtain rfl := Except.error.inj same
      exact runProgramAt_fails _ _ _ _ _ _ _ ran
    | ok output =>
      simp only [authorizeAnswer] at same
      split at same
      · cases same
      · obtain rfl := Except.error.inj same
        rfl
  · exact fails_bind fun context => fails_bind fun tx =>
      fails_ite (fails_ok _) (scanAuthorizations_fails _ _ _ _)

/-- Requiring authority fails with errors. -/
theorem requireAuthority_fails (account : Account) :
    Fails (requireAuthority env account) := by
  intro before after error gave
  obtain ⟨answer, mid, asked, ended⟩ := returns_bind.mp gave
  rcases answer with code | (_ | _)
  · obtain ⟨same, -⟩ := returns_pure.mp ended
    obtain rfl := Except.error.inj same
    exact authority_fails account _ _ _ asked
  · obtain ⟨same, -⟩ := returns_pure.mp ended
    obtain rfl := Except.error.inj same
    rfl
  · cases (returns_pure.mp ended).1

/-- Applying a transaction fails with errors only, and none of them is a success. -/
theorem applyTransaction_fails (tx : Transaction) :
    Fails (applyTransaction env tx) := by
  intro before after error gave
  obtain ⟨mid, inner, -⟩ := returns_ensuring.mp gave
  refine fails_bind (fun context => fails_bind fun _ => fails_andThen ?_ fun _ => fails_andThen ?_
    fun _ => fails_bind fun code => fails_bind fun receipt => fails_ok _) _ _ _ inner
  · exact fails_ite (fails_error rfl) (fails_andThen (requireAuthority_fails _) fun _ =>
      fails_ite (requireAuthority_fails _) (fails_ok _))
  · exact fails_bind fun nonce => fails_ite (fails_error rfl)
      (fails_andThen (fails_unlessFailed _) fun _ => fails_unlessFailed _)

/-- So does applying a list of transactions. -/
theorem applyTransactions_fails (transactions : List Transaction) :
    Fails (applyTransactions env transactions) := by
  induction transactions with
  | nil => exact fails_ok _
  | cons tx rest ih =>
    exact fails_andThen (applyTransaction_fails tx) fun _ =>
      fails_andThen ih fun _ => fails_ok _

/-- So does applying a block. -/
theorem applyBlock_fails (block : Block) : Fails (applyBlock env block) := by
  refine fails_bind fun _ => fails_bind fun start => fails_bind fun key => ?_
  cases key with
  | none => exact fun _ _ _ gave => absurd gave not_returns_fail
  | some key =>
    exact fails_ite (fails_error rfl) (fails_andThen (applyTransactions_fails _) fun _ =>
      fails_bind fun _ => fails_bind fun _ => fails_ok _)

end Fails

end Respublica.Controller
