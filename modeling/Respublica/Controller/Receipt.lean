import Respublica.Controller.History

/-!
# What receipts account for

A receipt reports what is missing from the meter in each resource and what is missing from
the session of its transaction. The session pays for every use at the price of the resource,
so the two agree, whatever the programs of the transaction do and however many of their uses
are refused. Nothing is used between transactions, so a block reports the sums.
-/

namespace Respublica.Controller

open Foundation Effect Program Protocol StateDb

namespace ResourceState

/-- What is missing from resources, compared with what there was. -/
def since (before after : ResourceState) : ResourceState :=
  ⟨before.diskStorage - after.diskStorage, before.networkBandwidth - after.networkBandwidth,
    before.computeBandwidth - after.computeBandwidth⟩

/-- What is missing is worth what was lost. -/
theorem worth_since {before after : ResourceState} (less : after ≤ before) (cost : ResourceState) :
    (before.since after).worth cost + after.worth cost = before.worth cost := by
  have disk := sub_mul_add less.1 cost.diskStorage
  have network := sub_mul_add less.2.1 cost.networkBandwidth
  have compute := sub_mul_add less.2.2 cost.computeBandwidth
  simp only [worth, since]
  omega

end ResourceState

/-- What a transaction reports to have used. -/
def TransactionReceipt.used (receipt : TransactionReceipt) : ResourceState :=
  ⟨receipt.diskStorageUsed, receipt.networkBandwidthUsed, receipt.computeBandwidthUsed⟩

/-- What a block reports to have used. -/
def BlockReceipt.used (receipt : BlockReceipt) : ResourceState :=
  ⟨receipt.diskStorageUsed, receipt.networkBandwidthUsed, receipt.computeBandwidthUsed⟩

/-- A receipt adds up: the resources used are worth what was spent, as natural numbers, and no
more was spent than allowed. -/
structure Accounted (cost : ResourceState) (receipt : TransactionReceipt) : Prop where
  spent : receipt.resourceUsed.toNat = (TransactionReceipt.used receipt).worth cost
  limited : receipt.resourceUsed ≤ receipt.resourceLimit

/-- Resources are the sums of what the receipts report, as natural numbers. -/
structure Totals (used : ResourceState) (receipts : List TransactionReceipt) : Prop where
  diskStorage : used.diskStorage.toNat =
    (receipts.map fun receipt => receipt.diskStorageUsed.toNat).sum
  networkBandwidth : used.networkBandwidth.toNat =
    (receipts.map fun receipt => receipt.networkBandwidthUsed.toNat).sum
  computeBandwidth : used.computeBandwidth.toNat =
    (receipts.map fun receipt => receipt.computeBandwidthUsed.toNat).sum

/-- Of three falling amounts, the whole loss is the sum of the two losses. -/
theorem toNat_sub_add {first second third : UInt64} (earlier : second ≤ first)
    (later : third ≤ second) :
    (first - third).toNat = (first - second).toNat + (second - third).toNat := by
  have earlierBound := UInt64.le_iff_toNat_le.mp earlier
  have laterBound := UInt64.le_iff_toNat_le.mp later
  rw [UInt64.toNat_sub_of_le _ _ (UInt64.le_trans later earlier),
    UInt64.toNat_sub_of_le _ _ earlier, UInt64.toNat_sub_of_le _ _ later]
  omega

theorem totals_nil (remaining : ResourceState) : Totals (remaining.since remaining) [] := by
  constructor <;> simp [ResourceState.since]

/-- Totals add up over the receipts. -/
theorem Totals.cons {first second third : ResourceState} {receipt : TransactionReceipt}
    {receipts : List TransactionReceipt}
    (reported : TransactionReceipt.used receipt = first.since second) (earlier : second ≤ first)
    (later : third ≤ second) (totals : Totals (second.since third) receipts) :
    Totals (first.since third) (receipt :: receipts) := by
  obtain ⟨disk, network, compute⟩ := ResourceState.mk.inj reported
  constructor
  · rw [List.map_cons, List.sum_cons, ← totals.diskStorage, disk]
    exact toNat_sub_add earlier.1 later.1
  · rw [List.map_cons, List.sum_cons, ← totals.networkBandwidth, network]
    exact toNat_sub_add earlier.2.1 later.2.1
  · rw [List.map_cons, List.sum_cons, ← totals.computeBandwidth, compute]
    exact toNat_sub_add earlier.2.2 later.2.2

namespace Context

variable {env : Env} {before after : Context}

/-- The operations of a transaction are paid for, on the node made for them as anywhere. -/
theorem executeTransaction_spends {tx : Transaction} {code : ErrorCode}
    (gave : (executeTransaction env tx).Returns before code after) :
    Meter.Spent before.meter after.meter := by
  obtain ⟨node, heap, outcome, finished, -, ran, ended⟩ := returns_executeTransaction.mp gave
  have spent := ((applyOperations_frame tx.operations).of_returns ran).meter
  split at ended
  · obtain ⟨-, rfl⟩ := ended
    exact spent
  · obtain ⟨squashed, -, -, rfl⟩ := ended
    exact spent

/-- An applied transaction reports what the meter lost, and this adds up. -/
theorem applyTransaction_accounted {tx : Transaction} {receipt : TransactionReceipt}
    (applied : (applyTransaction env tx).Returns before (.ok receipt) after) :
    Accounted before.meter.limits.cost receipt ∧
      TransactionReceipt.used receipt = before.meter.remaining.since after.meter.remaining ∧
      after.meter.remaining ≤ before.meter.remaining ∧
      after.meter.limits = before.meter.limits := by
  obtain ⟨authorized, charged, executed, code, authorizes, charges, executes, reports, rfl⟩ :=
    applyTransaction_reports applied
  have spent : Meter.Spent (beginTransaction tx before).meter executed.meter :=
    IsTrans.trans _ _ _ ((authorizeTransaction_frame tx).of_returns authorizes).meter
      (IsTrans.trans _ _ _ ((chargeTransaction_frame tx).of_returns charges).meter
        (executeTransaction_spends executes))
  simp only [transactionReceipt, returns_bind, returns_read, returns_modify,
    returns_pure] at reports
  obtain ⟨_, executed, ⟨rfl, rfl⟩, _, _, -, rfl, -⟩ := reports
  refine ⟨?_, rfl, spent.remaining, spent.limits⟩
  -- The session began with the limit of the transaction; what it lost is what was used.
  obtain ⟨left, held, initial, paid⟩ : ∃ left, executed.meter.session = some left ∧
      left.initialResources = tx.resourceLimit ∧
      left.remainingResources.toNat + before.meter.remaining.worth before.meter.limits.cost =
        tx.resourceLimit.toNat +
          executed.meter.remaining.worth before.meter.limits.cost := spent.paid _ rfl
  have less : executed.meter.remaining ≤ before.meter.remaining := spent.remaining
  have lost := ResourceState.worth_since less before.meter.limits.cost
  have balance : left.remainingResources.toNat +
      (before.meter.remaining.since executed.meter.remaining).worth before.meter.limits.cost =
        tx.resourceLimit.toNat := by omega
  have within : left.remainingResources ≤ tx.resourceLimit := by
    rw [UInt64.le_iff_toNat_le]
    omega
  have used : left.usedResources = tx.resourceLimit - left.remainingResources := by
    rw [Session.usedResources, initial]
  constructor
  · simp only [held, Option.map_some, Option.getD_some, used, UInt64.toNat_sub_of_le _ _ within]
    exact Nat.sub_eq_of_eq_add (by rw [← balance, Nat.add_comm]; rfl)
  · simp only [held, Option.map_some, Option.getD_some, used]
    exact UInt64.sub_le within

/-- Receipts of transactions in a row add up one by one, and they add up to what the meter
lost. -/
theorem applyTransactions_accounted {transactions : List Transaction}
    {receipts : List TransactionReceipt}
    (applied : (applyTransactions env transactions).Returns before (.ok receipts) after) :
    (∀ receipt ∈ receipts, Accounted before.meter.limits.cost receipt) ∧
      Totals (before.meter.remaining.since after.meter.remaining) receipts ∧
      after.meter.remaining ≤ before.meter.remaining ∧
      after.meter.limits = before.meter.limits := by
  induction transactions generalizing before receipts with
  | nil =>
    obtain ⟨same, rfl⟩ := returns_pure.mp applied
    obtain rfl := Except.ok.inj same
    exact ⟨by simp, totals_nil _, ResourceState.le_refl _, rfl⟩
  | cons tx rest ih =>
    obtain ⟨receipt, middle, first, continued⟩ := returns_andThen_ok.mp applied
    obtain ⟨others, _, later, ended⟩ := returns_andThen_ok.mp continued
    obtain ⟨same, rfl⟩ := returns_pure.mp ended
    obtain rfl := Except.ok.inj same
    obtain ⟨accounted, reported, less, limits⟩ := applyTransaction_accounted first
    obtain ⟨othersAccounted, totals, othersLess, othersLimits⟩ := ih later
    rw [limits] at othersAccounted
    exact ⟨List.forall_mem_cons.mpr ⟨accounted, othersAccounted⟩,
      totals.cons reported less othersLess, ResourceState.le_trans othersLess less,
      othersLimits.trans limits⟩

/-- A context whose meter has been set to the limits of a block. -/
def limited (context : Context) : Context :=
  { context with meter := context.meter.setResourceLimits resourceLimits }

/-- Each receipt of a transaction that is applied in a block, the block being refused later or
not, adds up at the costs of a block, a block reports the sums of its transactions' uses, and a
use that is refused leaves the meter and the session as they are. -/
theorem receipts_account_for_use (env : Env) :
    (∀ before mid after earlier receipts tx receipt,
      (applyTransactions env earlier).Returns (limited before) (.ok receipts) mid →
        (applyTransaction env tx).Returns mid (.ok receipt) after →
          Accounted resourceLimits.cost receipt) ∧
      (∀ before after block receipt, (applyBlock env block).Returns before (.ok receipt) after →
          (∀ applied ∈ receipt.transactionReceipts, Accounted resourceLimits.cost applied) ∧
            Totals (BlockReceipt.used receipt) receipt.transactionReceipts) ∧
      ∀ metered amount meter code after,
        (Meter.use metered amount).Returns meter code after → code.failed = true →
          after = meter := by
  refine ⟨?_, ?_, fun _ _ _ _ _ => Meter.use_refused⟩
  · intro before mid after earlier receipts tx receipt begun applied
    obtain ⟨-, -, -, limits⟩ := applyTransactions_accounted begun
    have accounted := (applyTransaction_accounted applied).1
    rwa [limits] at accounted
  · intro before after block receipt applied
    obtain ⟨mid, applies, -, disk, network, compute⟩ := applyBlock_reports applied
    obtain ⟨accounted, totals, -, -⟩ := applyTransactions_accounted applies
    have used : BlockReceipt.used receipt =
        resourceLimits.limit.since mid.meter.remaining := by
      rw [BlockReceipt.used, disk, network, compute]
      rfl
    exact ⟨accounted, used ▸ totals⟩

/-- A block whose only transaction mints five coins. -/
def mintingBlock : Block :=
  sampleBlock nullId 1 2000 (SizedBytes.zero 32) [sampleTransaction (SizedBytes.zero 32) 1
    [.callProgram coin ⟨[], littleEndian 4 7 ++ sampleSigner.1 ++ storeWord 5⟩]]

/-- The context of a block on a state with nothing but the genesis key. -/
def keyed : Context :=
  blockOn [(makeCompoundKey ObjectSpace.metadata (genesisKey .plain), sampleSigner.publicKey.1)]

/-- The block is applied, with storage, bandwidth and ticks used, and its receipts add up. -/
theorem receipts_account_for_mint :
    ∃ receipt after, (applyBlock .plain mintingBlock).Returns keyed (.ok receipt) after ∧
      (∀ applied ∈ receipt.transactionReceipts, Accounted resourceLimits.cost applied) ∧
      Totals (BlockReceipt.used receipt) receipt.transactionReceipts ∧
      BlockReceipt.used receipt = ⟨210, 225, 8⟩ := by
  obtain ⟨receipt, applied, used⟩ := returns_ok_of_map_fst
    (show (applyBlock .plain mintingBlock keyed).1.map (Except.map BlockReceipt.used) =
      .ok (.ok ⟨210, 225, 8⟩) by decide +kernel)
  obtain ⟨accounted, totals⟩ := (receipts_account_for_use .plain).2.1 _ _ _ _ applied
  exact ⟨receipt, _, applied, accounted, totals, used⟩

end Context

end Respublica.Controller
