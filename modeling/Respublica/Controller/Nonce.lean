import Respublica.Controller.Replay

/-!
# Several transactions of one account in one block

Storing a nonce is charged with the size that `put` reports, turned into an unsigned amount.
The first nonce of an account takes 81 bytes, and a nonce that replaces one of an earlier
block takes none. A second nonce in the same block takes none either if the account had no
nonce before the block; otherwise `put` counts the nonce of the earlier block off a second
time, reports -81 bytes, and the amount is more than any block has.
-/

namespace Respublica.Controller

open Foundation Effect Crypto Program Protocol StateDb Heap Forest Meter

theorem length_nonceKey (account : Account) : (nonceKey account).length = 73 := by
  simp [nonceKey, makeCompoundKey, ObjectSpace.transactionNonce, ObjectSpace.system, account.2]

/-- The bytes that storing a nonce is charged with, given the nonce of the blocks below and the
one already stored in the block. -/
def nonceSize : (stored written : Option UInt64) → Int
  | none, none => 81
  | some _, some _ => -81
  | _, _ => 0

namespace Context

variable {env : Env} {account : Account} {stored written : Option UInt64}
  {before after : Context} {tx : Transaction}

/-- A node on which a block is being applied, with what is stored for an account below it and
by the block itself. -/
structure Ready (account : Account) (stored written : Option UInt64) (context : Context) :
    Prop where
  backed : context.heap.Backed
  notFinal : context.heap.final context.stateNode = false
  child : (context.heap.parent? context.stateNode).isSome
  below : context.heap.below context.stateNode (nonceKey account) = stored.map storeWord
  record : OverlayTree.overlay context.heap.abstraction context.stateNode (nonceKey account) =
    written.map fun nonce => .put (storeWord nonce)
  limits : context.meter.limits = resourceLimits
  diskLeft : 0 < context.meter.remaining.diskStorage
  diskLimit : context.meter.remaining.diskStorage ≤ 409600

namespace Ready

section

variable (ready : Ready account stored written before)
include ready

theorem inside :
    before.stateNode < before.heap.size := by
  obtain ⟨parent, points⟩ := Option.isSome_iff_exists.mp ready.child
  exact lt_size_of_parent? points

/-- The end of a transaction leaves the node ready. -/
theorem ended :
    Ready account stored written (endSession { before with frames := [] }) :=
  ⟨ready.backed, ready.notFinal, ready.child, ready.below, ready.record, ready.limits,
    ready.diskLeft, ready.diskLimit⟩

/-- A node stays ready when the nodes below it are settled, its record is kept and the meter has
only gone down. -/
theorem carried (stateNode : after.stateNode = before.stateNode)
    (settled : Heap.Settled before.stateNode before.heap after.heap)
    (record : OverlayTree.overlay after.heap.abstraction before.stateNode (nonceKey account) =
      OverlayTree.overlay before.heap.abstraction before.stateNode (nonceKey account))
    (spent : Meter.Spent before.meter after.meter) : Ready account stored written after where
  backed := settled.backed ready.backed
  notFinal := by rw [stateNode, settled.final ready.inside, ready.notFinal]
  child := by rw [stateNode, settled.parents _ ready.inside]; exact ready.child
  below := by
    obtain ⟨parent, points⟩ := Option.isSome_iff_exists.mp ready.child
    have older := parent?_lt points
    have below := ready.below
    rw [Heap.below, points, Option.bind_some] at below
    rw [stateNode, Heap.below, settled.parents _ ready.inside, points, Option.bind_some,
      settled.view (Nat.lt_trans older ready.inside) older, below]
  record := by rw [stateNode, record, ready.record]
  limits := spent.limits.trans ready.limits
  diskLeft := spent.diskStorage ready.diskLeft
  diskLimit := UInt64.le_trans spent.remaining.1 ready.diskLimit

/-- Work under other keys leaves a node ready. -/
theorem of_frame {writes : Bytes → Prop}
    (frame : Frame writes before after) (outside : ¬ writes (nonceKey account)) :
    Ready account stored written after :=
  ready.carried frame.stateNode (frame.heap.settled (Nat.le_refl _))
    (frame.heap.overlay (.inr outside)) frame.meter

/-- The block's own nonce hides the one below. -/
theorem view :
    before.view (nonceKey account) = (written.or stored).map storeWord := by
  have inside : before.stateNode < size before.heap.abstraction := by
    simpa [Heap.abstraction] using ready.inside
  rw [Context.view, Heap.view, OverlayTree.view_eq inside, Overlay.atop, Heap.below_abstraction,
    ready.record, ready.below]
  cases written <;> rfl

/-- What is read as the nonce of the account. -/
theorem accountNonce :
    (accountNonce account).Returns before ((written.or stored).getD 0) before := by
  have got := get_of_backed ready.backed ready.inside (nonceKey account)
  have shown : before.heap.view before.stateNode (nonceKey account) = _ := ready.view
  rw [shown] at got
  refine returns_bind.mpr ⟨_, before, returns_bind.mpr ⟨before, before,
    returns_read.mpr ⟨rfl, rfl⟩, returns_ofExcept.mpr ⟨got, rfl⟩⟩, ?_⟩
  cases held : written.or stored with
  | none => exact returns_pure.mpr ⟨rfl, rfl⟩
  | some nonce =>
    have long : ¬ (storeWord nonce).length < 8 := by simp
    simp only [Option.map_some, if_neg long, loadWord_storeWord, Option.getD_some]
    exact returns_pure.mpr ⟨rfl, rfl⟩

/-- Storing a nonce returns the size that it is charged with. -/
theorem put (nonce : UInt64) :
    ∃ heap, (put before.stateNode (nonceKey account) (storeWord nonce)).Returns before.heap
        (nonceSize stored written) heap ∧
      Ready account stored (some nonce) { before with heap := heap } := by
  obtain ⟨size, stores⟩ := put_of_backed ready.backed ready.inside ready.notFinal
    (nonceKey account) (storeWord nonce)
  have confined := (put_confined (storeWord nonce)
    (show (fun key => key = nonceKey account) (nonceKey account) from rfl)).of_returns stores
  have sized : size = nonceSize stored written := by
    obtain ⟨-, parentSize, own, parentSized, held, rfl, -⟩ := returns_put.mp stores
    rw [parentSize_eq parentSized, Backend.putSize, get_eq_overlay held, ready.record, ready.below]
    cases stored <;> cases written <;>
      simp [nonceSize, Backend.objectSize, length_nonceKey]
  have record : OverlayTree.overlay (abstraction (before.heap.update before.stateNode
      (changeBackend (Backend.put · (nonceKey account) (storeWord nonce))))) before.stateNode
      (nonceKey account) = some (.put (storeWord nonce)) := by
    have inside : before.stateNode < Forest.size before.heap.abstraction := by
      simpa [abstraction] using ready.inside
    rw [abstraction_put (ready.backed before.stateNode), OverlayTree.put,
      OverlayTree.overlay_update_self inside, Overlay.assign, Function.update_self]
  have child := (congrArg Option.isSome (confined.parents before.stateNode)).trans ready.child
  exact ⟨_, sized ▸ stores, confined.backed ready.backed, (confined.final _).trans ready.notFinal,
    child, (confined.below _).trans ready.below, record, ready.limits, ready.diskLeft,
    ready.diskLimit⟩

/-- Metering leaves a node ready. -/
theorem spent {meter : Meter}
    (spent : Meter.Spent before.meter meter) :
    Ready account stored written { before with meter := meter } :=
  ready.carried rfl (Std.Refl.refl _) rfl spent

/-- A charged transaction was charged with storage that the block has. -/
theorem charged (own : Transaction.nonceAccount tx = account)
    (gave : (chargeTransaction tx).Returns before (.ok ()) after) :
    UInt64.ofInt (nonceSize stored written) < before.meter.remaining.diskStorage ∧
      Ready account stored (some tx.nonce) after := by
  subst own
  obtain ⟨size, heap, meter, charged⟩ := chargeTransaction_charged gave
  obtain ⟨expected, puts, writtenReady⟩ := ready.put tx.nonce
  obtain ⟨rfl, rfl⟩ := charged.put.unique puts
  obtain ⟨code, used, well⟩ := charged.paid
  obtain ⟨_, sent⟩ := charged.sent
  have first := (use_spends _ _).of_returns used
  have second := (use_spends _ _).of_returns sent
  refine ⟨lt_of_useDiskStorage used well, ?_⟩
  rw [charged.after_eq]
  exact writtenReady.spent (IsTrans.trans _ _ _ first second)

/-- Storage that a block has is never a negative number of bytes. -/
theorem amount_le
    (room : UInt64.ofInt (nonceSize stored written) < before.meter.remaining.diskStorage) :
    (UInt64.ofInt (nonceSize stored written)).toNat ≤ 81 := by
  have limit := UInt64.lt_of_lt_of_le room ready.diskLimit
  cases stored <;> cases written <;> simp only [nonceSize] at limit ⊢
  · decide
  · decide
  · decide
  · exact absurd limit (by decide)

/-- With enough left for the bytes of a nonce and of the transaction, a transaction with the
next nonce is charged if the block has the storage. -/
theorem charges (own : Transaction.nonceAccount tx = account)
    (next : (written.or stored).getD 0 + 1 = tx.nonce) {session : Session}
    (held : before.meter.session = some session)
    (pays : 810 + 5 * tx.size ≤ session.remainingResources.toNat)
    (fits : tx.size < before.meter.remaining.networkBandwidth.toNat)
    (room : UInt64.ofInt (nonceSize stored written) < before.meter.remaining.diskStorage) :
    ∃ charged, (chargeTransaction tx).Returns before (.ok ()) charged := by
  subst own
  obtain ⟨heap, puts, -⟩ := ready.put tx.nonce
  have small := ready.amount_le room
  have diskCost : (diskStorage.read before.meter.limits.cost).toNat = 10 := by
    rw [ready.limits]
    rfl
  have networkCost : (networkBandwidth.read before.meter.limits.cost).toNat = 5 := by
    rw [ready.limits]
    rfl
  have size : (UInt64.ofNat tx.size).toNat = tx.size := by
    have bounded := before.meter.remaining.networkBandwidth.toNat_lt
    rw [UInt64.toNat_ofNat', Nat.mod_eq_of_lt (by omega)]
  have available : UInt64.ofNat tx.size < before.meter.remaining.networkBandwidth := by
    rwa [UInt64.lt_iff_toNat_lt, size]
  obtain ⟨left, paid, stores, leftHeld, leftLimits, leftResources, leftRemaining⟩ :=
    use_paid diskStorage _ held diskCost (by decide)
      (decide_eq_false (UInt64.not_le.mpr room)) (by omega)
  have leftAvailable : UInt64.ofNat tx.size < paid.remaining.networkBandwidth := by
    rw [leftRemaining]
    exact available
  obtain ⟨_, sent, sends, -⟩ := use_paid networkBandwidth
    (UInt64.ofNat tx.size) leftHeld (leftLimits ▸ networkCost) (by decide)
    (decide_eq_false (UInt64.not_le.mpr leftAvailable)) (by omega)
  have writes := returns_setAccountNonce.mpr ⟨_, heap, paid, puts, stores, rfl⟩
  refine ⟨{ before with heap := heap, meter := sent }, returns_bind.mpr ⟨_, before,
    ready.accountNonce, ?_⟩⟩
  rw [if_neg (not_not.mpr next)]
  exact returns_andThen_ok.mpr ⟨(), _, returns_unlessFailed.mpr ⟨_, writes, rfl⟩,
    returns_unlessFailed.mpr ⟨_, returns_within.mpr ⟨sent, sends, rfl⟩, rfl⟩⟩

/-- Operations leave the node of the block ready, squashed into it or not. -/
theorem executed {code : ErrorCode} (gave : (executeTransaction env tx).Returns before code after) :
    Ready account stored written after := by
  have settled := ((executeTransaction_beyond shelters_settled tx).of_returns gave
    (Nat.le_refl before.stateNode)).2
  obtain ⟨node, heap, outcome, finished, made, ran, ended⟩ := returns_executeTransaction.mp gave
  have frame := (applyOperations_frame tx.operations).of_returns ran
  obtain ⟨own, -, rfl, rfl⟩ := Heap.returns_makeChild.mp made
  let pushed : Heap := before.heap.push (some before.stateNode) (Heap.childOf own nullId)
  have apart : before.stateNode ≠ before.heap.size := Nat.ne_of_lt ready.inside
  have pushedRecord : OverlayTree.overlay pushed.abstraction before.stateNode =
      OverlayTree.overlay before.heap.abstraction before.stateNode :=
    have settled : Heap.Settled (before.stateNode + 1) before.heap pushed :=
      settled_push_child ready.inside rfl
    settled.overlays _ ready.inside (Nat.lt_succ_self _)
  have finishedRecord : OverlayTree.overlay finished.heap.abstraction before.stateNode
      (nonceKey account) = _ :=
    (frame.heap.overlay (.inl apart)).trans (congrFun pushedRecord (nonceKey account))
  split at ended
  · obtain ⟨-, rfl⟩ := ended
    exact ready.carried rfl settled finishedRecord frame.meter
  · obtain ⟨squashed, squash, -, rfl⟩ := ended
    refine ready.carried rfl settled (Eq.trans ?_ finishedRecord) frame.meter
    have points : finished.heap.parent? before.heap.size = some before.stateNode := by
      rw [frame.heap.parents]
      simp [parent?_push, Option.filter, ready.inside]
    have abstractPoints : finished.heap.abstraction.parent? before.heap.size =
        some before.stateNode := by
      simpa [abstraction] using points
    have finishedBacked := frame.heap.backed (backed_push ready.backed rfl)
    have childRecord : OverlayTree.overlay finished.heap.abstraction before.heap.size
        (nonceKey account) = none := by
      rw [frame.heap.overlay (.inr (not_operationKey_nonceKey account)),
        overlay_makeChild ready.inside]
      rfl
    rw [abstraction_squash finishedBacked points (squash_of_squashTemporary squash),
      OverlayTree.overlay_squash_parent abstractPoints, Overlay.merge, childRecord, Option.none_or]

end

end Ready

/-- The transactions take the next nonces of the account. -/
def Consecutive (account : Account) : UInt64 → List Transaction → Prop
  | _, [] => True
  | nonce, tx :: rest =>
    Transaction.nonceAccount tx = account ∧ nonce + 1 = tx.nonce ∧
      Consecutive account tx.nonce rest

/-- The transactions of an account among those of a block. -/
def ofAccount (account : Account) (transactions : List Transaction) : List Transaction :=
  transactions.filter fun tx => Transaction.nonceAccount tx = account

/-- Nothing but the storing of nonces can stand in the way of the transactions of an account: each
one is authorized, it can then pay for its nonce and its bytes, the block has the network bandwidth,
and once it is charged its operations end, well or not. Those of other accounts are applied. -/
def Prepared (env : Env) (account : Account) : List Transaction → Context → Prop
  | [], _ => True
  | tx :: rest, before =>
    if Transaction.nonceAccount tx = account then ∃ authorized session,
      (authorizeTransaction env tx).Returns (beginTransaction tx before) (.ok ()) authorized ∧
      authorized.meter.session = some session ∧
      810 + 5 * tx.size ≤ session.remainingResources.toNat ∧
      tx.size < authorized.meter.remaining.networkBandwidth.toNat ∧
      ∀ charged, (chargeTransaction tx).Returns authorized (.ok ()) charged →
        ∃ code executed, (executeTransaction env tx).Returns charged code executed ∧
          Prepared env account rest (endSession { executed with frames := [] })
    else ∃ receipt after, (applyTransaction env tx).Returns before (.ok receipt) after ∧
      Prepared env account rest after

/-- The transactions are applied, and the account has the nonce of the last one. -/
def Fit (env : Env) (account : Account) (nonce : UInt64)
    (transactions : List Transaction) (before : Context) : Prop :=
  ∃ receipts after,
    (applyTransactions env transactions).Returns before (.ok receipts) after ∧
      (accountNonce account).Returns after nonce after

variable {nonce : UInt64} {rest : List Transaction}

/-- The last of consecutive nonces, counted from the first one. -/
theorem add_length_cons (next : nonce + 1 = tx.nonce) :
    nonce + UInt64.ofNat (tx :: rest).length =
      tx.nonce + UInt64.ofNat rest.length := by
  rw [← next, List.length_cons, UInt64.ofNat_add, UInt64.add_assoc, UInt64.add_comm 1]
  rfl

/-- A fitting rest is fitting behind an applied transaction. -/
theorem Fit.cons {middle : Context} {receipt : TransactionReceipt}
    (applied : (applyTransaction env tx).Returns before (.ok receipt) middle)
    (fit : Fit env account nonce rest middle) :
    Fit env account nonce (tx :: rest) before := by
  obtain ⟨receipts, after, restApplied, read⟩ := fit
  exact ⟨receipt :: receipts, after, returns_andThen_ok.mpr ⟨receipt, middle, applied,
    returns_andThen_ok.mpr ⟨receipts, after, restApplied, returns_pure.mpr ⟨rfl, rfl⟩⟩⟩, read⟩

/-- The context when a transaction has been asked for its authority. -/
def authorizedContext (env : Env) (tx : Transaction) (before : Context) :
    Context :=
  (authorizeTransaction env tx (beginTransaction tx before)).2

/-- The storage that a block has left when the nonce of a transaction is about to be stored. -/
def storageForNonce (env : Env) (tx : Transaction) (before : Context) :
    UInt64 :=
  (authorizedContext env tx before).meter.remaining.diskStorage

/-- What is left for the nonce is left when the transaction is authorized. -/
theorem storageForNonce_eq {authorized : Context}
    (authorizes : (authorizeTransaction env tx).Returns
      (beginTransaction tx before) (.ok ()) authorized) :
    storageForNonce env tx before =
      authorized.meter.remaining.diskStorage := by
  rw [storageForNonce, authorizedContext, show authorizeTransaction env tx _ = _ from authorizes]

namespace Ready

/-- The node stays ready while a transaction is authorized. -/
theorem authorized (ready : Ready account stored written before) {authorized : Context}
    (authorizes : (authorizeTransaction env tx).Returns
      (beginTransaction tx before) (.ok ()) authorized) :
    Ready account stored written authorized := by
  have begun : Ready account stored written (beginTransaction tx before) :=
    ⟨ready.backed, ready.notFinal, ready.child, ready.below, ready.record, ready.limits,
      ready.diskLeft, ready.diskLimit⟩
  exact begun.of_frame ((authorizeTransaction_frame tx).of_returns authorizes)
    (not_moduleKey_nonceKey account)

variable {rest : List Transaction} {receipt : TransactionReceipt}

/-- A transaction with the next nonce is applied if the block has the storage for it. -/
theorem applies (ready : Ready account stored written before)
    (own : Transaction.nonceAccount tx = account)
    (next : (written.or stored).getD 0 + 1 = tx.nonce)
    (prepared : Prepared env account (tx :: rest) before)
    (room : UInt64.ofInt (nonceSize stored written) < storageForNonce env tx before) :
    ∃ receipt after, (applyTransaction env tx).Returns before (.ok receipt) after ∧
      Ready account stored (some tx.nonce) after ∧ Prepared env account rest after := by
  rw [Prepared, if_pos own] at prepared
  obtain ⟨authorized, session, authorizes, held, pays, fits, continues⟩ := prepared
  rw [storageForNonce_eq authorizes] at room
  have authorizedReady := ready.authorized authorizes
  obtain ⟨charged, charges⟩ := authorizedReady.charges own next held pays fits room
  obtain ⟨-, chargedReady⟩ := authorizedReady.charged own charges
  obtain ⟨code, executed, executes, restPrepared⟩ := continues charged charges
  obtain ⟨receipt, applied⟩ := applyTransaction_of_phases authorizes charges executes
  exact ⟨receipt, _, applied, (chargedReady.executed executes).ended, restPrepared⟩

/-- A transaction of another account leaves the node ready. -/
theorem passed (ready : Ready account stored written before)
    (other : Transaction.nonceAccount tx ≠ account)
    (gave : (applyTransaction env tx).Returns before (.ok receipt) after) :
    Ready account stored written after := by
  obtain ⟨authorized, charged, executed, code, authorizes, charges, executes, -, rfl⟩ :=
    applyTransaction_phases gave
  have chargedReady := (ready.authorized authorizes).of_frame
    ((chargeTransaction_frame tx).of_returns charges) (nonceKey_ne other)
  exact (chargedReady.executed executes).ended

/-- A transaction that was applied had the storage for its nonce. -/
theorem applied (ready : Ready account stored written before)
    (own : Transaction.nonceAccount tx = account)
    (gave : (applyTransaction env tx).Returns before (.ok receipt) after) :
    UInt64.ofInt (nonceSize stored written) < storageForNonce env tx before ∧
      Ready account stored (some tx.nonce) after := by
  obtain ⟨authorized, charged, executed, code, authorizes, charges, executes, -, rfl⟩ :=
    applyTransaction_phases gave
  obtain ⟨room, chargedReady⟩ := (ready.authorized authorizes).charged own charges
  rw [storageForNonce_eq authorizes]
  exact ⟨room, (chargedReady.executed executes).ended⟩

/-- Some storage is always left. -/
theorem storageForNonce_pos (ready : Ready account stored written before)
    (own : Transaction.nonceAccount tx = account)
    (prepared : Prepared env account (tx :: rest) before) :
    0 < storageForNonce env tx before := by
  rw [Prepared, if_pos own] at prepared
  obtain ⟨authorized, session, authorizes, -⟩ := prepared
  rw [storageForNonce_eq authorizes]
  exact (ready.authorized authorizes).diskLeft

/-- A nonce that the account had before the block is not replaced twice. -/
theorem not_applied {nonce last : UInt64} (ready : Ready account (some nonce) (some last) before)
    (own : Transaction.nonceAccount tx = account) :
    ¬ (applyTransaction env tx).Returns before (.ok receipt) after := by
  intro gave
  obtain ⟨authorized, charged, executed, code, authorizes, charges, -⟩ :=
    applyTransaction_phases gave
  have authorizedReady := ready.authorized authorizes
  have small := authorizedReady.amount_le (authorizedReady.charged own charges).1
  exact absurd small (by simp only [nonceSize]; decide)

/-- Transactions of other accounts leave the node ready. -/
theorem passedAll {transactions : List Transaction} {receipts : List TransactionReceipt}
    (ready : Ready account stored written before) (others : ofAccount account transactions = [])
    (gave : (applyTransactions env transactions).Returns before (.ok receipts) after) :
    Ready account stored written after := by
  induction transactions generalizing before receipts with
  | nil =>
    obtain ⟨-, rfl⟩ := returns_pure.mp gave
    exact ready
  | cons tx rest ih =>
    obtain ⟨different, restOthers⟩ := List.forall_mem_cons.mp (List.filter_eq_nil_iff.mp others)
    obtain ⟨receipt, middle, applied, continued⟩ := returns_andThen_ok.mp gave
    obtain ⟨_, _, restApplied, ended⟩ := returns_andThen_ok.mp continued
    obtain ⟨-, rfl⟩ := returns_pure.mp ended
    exact ih (ready.passed (by simpa using different) applied)
      (List.filter_eq_nil_iff.mpr restOthers) restApplied

/-- No nonces are left to store. -/
theorem fit_nil (ready : Ready account stored written before) :
    Fit env account
      ((written.or stored).getD 0 + UInt64.ofNat ([] : List Transaction).length) [] before := by
  rw [List.length_nil, show UInt64.ofNat 0 = 0 from rfl, UInt64.add_zero]
  exact ⟨[], before, returns_pure.mpr ⟨rfl, rfl⟩, ready.accountNonce⟩

/-- After the first nonce of an account, all further ones of the block fit if the account had none
before; otherwise there must not be any. -/
theorem fit {written : UInt64} (ready : Ready account stored (some written) before)
    {transactions : List Transaction}
    (consecutive : Consecutive account written (ofAccount account transactions))
    (prepared : Prepared env account transactions before)
    (fresh : stored = none ∨ ofAccount account transactions = []) :
    Fit env account (written + UInt64.ofNat (ofAccount account transactions).length) transactions
      before := by
  induction transactions generalizing written before with
  | nil => exact ready.fit_nil
  | cons tx rest ih =>
    by_cases own : Transaction.nonceAccount tx = account
    · have split : ofAccount account (tx :: rest) = tx :: ofAccount account rest :=
        List.filter_cons_of_pos (by simpa using own)
      rw [split] at consecutive fresh ⊢
      obtain rfl := fresh.resolve_right (List.cons_ne_nil _ _)
      obtain ⟨-, next, restConsecutive⟩ := consecutive
      obtain ⟨receipt, middle, applied, middleReady, restPrepared⟩ :=
        ready.applies own next prepared (ready.storageForNonce_pos own prepared)
      rw [add_length_cons next]
      exact .cons applied (ih middleReady restConsecutive restPrepared (.inl rfl))
    · have split : ofAccount account (tx :: rest) = ofAccount account rest :=
        List.filter_cons_of_neg (by simpa using own)
      rw [split] at consecutive fresh ⊢
      rw [Prepared, if_neg own] at prepared
      obtain ⟨receipt, middle, applied, restPrepared⟩ := prepared
      exact .cons applied (ih (ready.passed own applied) consecutive restPrepared fresh)

/-- A nonce that the account had before the block is replaced once, and by no later transaction. -/
theorem none_left {nonce last : UInt64} {transactions : List Transaction}
    {receipts : List TransactionReceipt} (ready : Ready account (some nonce) (some last) before)
    (gave : (applyTransactions env transactions).Returns before (.ok receipts) after) :
    ofAccount account transactions = [] := by
  induction transactions generalizing before after receipts with
  | nil => rfl
  | cons tx rest ih =>
    obtain ⟨receipt, middle, applied, continued⟩ := returns_andThen_ok.mp gave
    obtain ⟨_, _, restApplied, -⟩ := returns_andThen_ok.mp continued
    have other : Transaction.nonceAccount tx ≠ account := fun own =>
      ready.not_applied own applied
    rw [ofAccount, List.filter_cons_of_neg (by simpa using other)]
    exact ih (ready.passed other applied) restApplied

end Ready

/-- The context in which a block on a node is applied: a new child of the node, under the limits
of a block. -/
def blockContext (heap : Heap) (parent : Nat) (own : Backend) (id : StateNodeId) : Context :=
  let context := create (heap.push (some parent) (childOf own id)) heap.size .blockApplication
  { context with meter := context.meter.setResourceLimits resourceLimits }

/-- A new child is ready for any account, with the nonce its parent shows. -/
theorem ready_blockContext {heap : Heap} {parent : Nat} {own : Backend} (backed : heap.Backed)
    (held : heap.backend parent = .ok own) (id : StateNodeId)
    (shown : heap.view parent (nonceKey account) = stored.map storeWord) :
    Ready account stored none (blockContext heap parent own id) := by
  have inside := lt_size_of_backend held
  let pushed : Heap := heap.push (some parent) (childOf own id)
  have points : pushed.parent? heap.size = some parent := parent?_push_child inside _
  have fresh : pushed.node? heap.size = some (childOf own id) := node?_push_self _ _ _
  have settled : Heap.Settled heap.size heap pushed := settled_push_child inside rfl
  have below : pushed.below heap.size (nonceKey account) = stored.map storeWord := by
    rw [below, points, Option.bind_some, settled.view inside inside, shown]
  have record := congrFun (overlay_makeChild inside own id) (nonceKey account)
  exact ⟨backed_push backed rfl, final_eq fresh, Option.isSome_of_eq_some points, below,
    record, rfl, show (0 : UInt64) < 409600 by decide, UInt64.le_refl _⟩

end Context

open Context

variable {env : Env}

/-- Transactions of one account with consecutive nonces, among those of other accounts in a block,
fit in the block exactly when the account has no nonce before the block, and the block has the
storage for one, or when there is only one of them. -/
theorem consecutive_nonces_fit_iff {heap : Heap} {parent : Nat} {own : Backend} {id : StateNodeId}
    {account : Account} {stored : Option UInt64} {first : Transaction}
    {earlier rest : List Transaction} {receipts : List TransactionReceipt} {before : Context}
    (backed : heap.Backed) (held : heap.backend parent = .ok own)
    (shown : heap.view parent (nonceKey account) = stored.map storeWord)
    (begun : (applyTransactions env earlier).Returns (blockContext heap parent own id)
      (.ok receipts) before) (others : ofAccount account earlier = [])
    (consecutive : Consecutive account (stored.getD 0) (first :: ofAccount account rest))
    (prepared : Prepared env account (first :: rest) before) :
    Fit env account (stored.getD 0 + UInt64.ofNat (first :: ofAccount account rest).length)
        (first :: rest) before ↔
      match stored with
      | none => 81 < storageForNonce env first before
      | some _ => ofAccount account rest = [] := by
  have ready := (ready_blockContext backed held id shown).passedAll others begun
  have ⟨own, next, restConsecutive⟩ := consecutive
  constructor
  · rintro ⟨receipts, after, applies, -⟩
    obtain ⟨receipt, middle, applied, continued⟩ := returns_andThen_ok.mp applies
    obtain ⟨room, middleReady⟩ := ready.applied own applied
    cases stored with
    | none => exact room
    | some nonce =>
      obtain ⟨_, _, restApplied, -⟩ := returns_andThen_ok.mp continued
      exact middleReady.none_left restApplied
  · intro condition
    rw [add_length_cons next]
    have room : UInt64.ofInt (nonceSize stored none) < storageForNonce env first before := by
      cases stored with
      | none => exact condition
      | some nonce => exact ready.storageForNonce_pos own prepared
    have fresh : stored = none ∨ ofAccount account rest = [] := by
      cases stored with
      | none => exact .inl rfl
      | some nonce => exact .inr condition
    obtain ⟨receipt, middle, applied, middleReady, restPrepared⟩ :=
      ready.applies own next prepared room
    exact .cons applied (middleReady.fit restConsecutive restPrepared fresh)

/-- The context when the phases of a transaction have been run one after the other. -/
def executedContext (env : Env) (tx : Transaction) (before : Context) :
    Context :=
  let charged := (chargeTransaction tx (authorizedContext env tx before)).2
  endSession { (executeTransaction env tx charged).2 with frames := [] }

/-- Transactions are prepared if that ends well for each of them. -/
theorem prepared_cons {tx : Transaction} {rest : List Transaction} {before : Context}
    (session : Session)
    (authorizes : (authorizeTransaction env tx (beginTransaction tx before)).1 = .ok (.ok ()))
    (held : (authorizedContext env tx before).meter.session = some session)
    (pays : 810 + 5 * tx.size ≤ session.remainingResources.toNat)
    (fits : tx.size < (authorizedContext env tx before).meter.remaining.networkBandwidth.toNat)
    (executes : ((executeTransaction env tx (chargeTransaction tx
      (authorizedContext env tx before)).2).1.map fun _ => ()) = .ok ())
    (continues : Prepared env (Transaction.nonceAccount tx) rest (executedContext env tx before)) :
    Prepared env (Transaction.nonceAccount tx) (tx :: rest) before := by
  rw [Prepared, if_pos rfl]
  refine ⟨_, session, returns_of_fst authorizes, held, pays, fits, fun charged charges => ?_⟩
  obtain ⟨code, executed, -⟩ := returns_of_map_fst executes
  rw [authorizedContext, show chargeTransaction tx _ = _ from charges] at executed
  refine ⟨code, _, executed, ?_⟩
  rw [executedContext, authorizedContext, show chargeTransaction tx _ = _ from charges]
    at continues
  exact continues

/-- A state without objects. -/
def blankState : Heap :=
  empty.push none ⟨some ⟨∅, nullId, 0, SizedBytes.zero 32⟩, ∅, none, true⟩

/-- The context of a first block on that state. -/
def blankContext : Context :=
  blockContext blankState 0 ⟨∅, nullId, 0, SizedBytes.zero 32⟩ (SizedBytes.fit 32 [1])

/-- Two transactions of an account without a nonce. -/
def firstNonces : List Transaction :=
  [sampleTransaction (networkId .plain) 1 [], sampleTransaction (networkId .plain) 2 []]

/-- They fit in one block. -/
theorem consecutive_nonces_fit_iff_for_new_account :
    Fit .plain sampleSigner 2 firstNonces blankContext := by
  have backed : blankState.Backed := backed_push (fun _ _ found => by cases found) rfl
  have shown : blankState.view 0 (nonceKey sampleSigner) = (none : Option UInt64).map storeWord :=
    view_of_get (by decide +kernel)
  have later : ofAccount sampleSigner [sampleTransaction (networkId .plain) 2 []] =
      [sampleTransaction (networkId .plain) 2 []] := List.filter_cons_of_pos (decide_eq_true rfl)
  have consecutive : Consecutive sampleSigner 0 (sampleTransaction (networkId .plain) 1 [] ::
      ofAccount sampleSigner [sampleTransaction (networkId .plain) 2 []]) := by
    rw [later]
    exact ⟨rfl, rfl, rfl, rfl, trivial⟩
  have begun : (applyTransactions .plain []).Returns blankContext (.ok []) blankContext :=
    returns_pure.mpr ⟨rfl, rfl⟩
  have prepared : Prepared .plain sampleSigner firstNonces blankContext := by
    refine prepared_cons ⟨1000000, 999999⟩ ?_ ?_ ?_ ?_ ?_
      (prepared_cons ⟨1000000, 999999⟩ ?_ ?_ ?_ ?_ ?_ trivial) <;> decide +kernel
  have fits := (consecutive_nonces_fit_iff backed rfl shown begun rfl consecutive prepared).mpr
    (show 81 < storageForNonce _ _ _ by decide +kernel)
  rw [later] at fits
  exact fits

/-- A second block with two transactions of an account whose first nonce is in the first block. -/
def doubledBlock : Block :=
  sampleBlock firstPaying.id 2 3000
    (reportedRoot (processBlock .plain firstPaying 0 sampleGenesis).1)
    [nextTransaction, sampleTransaction (networkId .plain) 3 []]

/-- Storing the second nonce of the block is charged with more bytes than a block has: the nonce
is the next one, there are no operations, and the block is refused for its storage. -/
theorem second_nonce_in_block_refused :
    ProcessRun .plain sampleEntries [(1, firstPaying)] afterFirstPaying ∧
      afterFirstPaying.heap.view 1 (nonceKey sampleSigner) = some (storeWord 1) ∧
      Consecutive sampleSigner 1 doubledBlock.transactions ∧
      (processBlock .plain doubledBlock 0 afterFirstPaying).1 =
        .ok (.error (.controller .diskStorageLimitExceeded)) := by
  refine ⟨run_afterFirstPaying, ?_, ⟨rfl, rfl, rfl, rfl, trivial⟩, ?_⟩
  · exact view_of_get (by decide +kernel)
  · decide +kernel

end Respublica.Controller
