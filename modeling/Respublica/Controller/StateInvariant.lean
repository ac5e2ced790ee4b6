import Respublica.Controller.Layering
import Respublica.Controller.Receipt
import Respublica.Controller.Replay

/-!
# State invariants

What the node of an accepted block shows comes from applying the block to what its predecessor
shows. A property of states that initial objects have and that applying a block keeps is so a
property of every node a run ever has a block or the root on, whatever forks it holds.

Transactions do the work of a block. What each of their phases keeps on the way is kept by the
block, so that an invariant is stated for the phases and not for blocks.
-/

namespace Respublica.Controller

open Foundation Effect Crypto Program Protocol StateDb Context

variable {env : Env} {entries : List GenesisEntry} {history : List (Nat × Block)}
  {db after : Database} {node : Nat} {block : Block} {now : Int}

/-- Applying a block to a state with the first objects leaves the second ones. -/
def Derives (env : Env) (block : Block) (below above : Bytes → Option Bytes) : Prop :=
  ∃ before receipt after, before.heap.Backed ∧ before.stateNode < before.heap.size ∧
    before.view = below ∧
    (applyBlock env block).Returns before (.ok receipt) after ∧ after.view = above

variable {checked : Database} {context : Context} {parent : Nat}

/-- The node of an accepted block shows what applying it leaves. -/
theorem Acceptance.derives (acceptance : Acceptance env block now db after parent checked context)
    (tracked : Tracked history db 0) :
    Derives env block (db.heap.view parent) (after.heap.view db.heap.size) := by
  obtain ⟨own, backs, -, checkSettled⟩ := acceptance.child
  obtain ⟨receipt, applied⟩ := acceptance.applied
  have childTracked := tracked.withChild backs block.id
  have checkedInside := Nat.lt_of_lt_of_le (lt_size_withChild db parent own block.id)
    checkSettled.heap.size
  have appliedInside := Nat.lt_of_lt_of_le checkedInside acceptance.settled.heap.size
  have stateNode : context.stateNode = db.heap.size := applyBlock_stateNode applied
  refine ⟨create checked.heap db.heap.size .blockApplication, receipt, context,
    (childTracked.settled checkSettled).rooted.backed, checkedInside, acceptance.view_checked,
    applied, ?_⟩
  rw [view, stateNode, (acceptance.view_after appliedInside).2]

/-- The new node points at the predecessor. -/
theorem Acceptance.points (acceptance : Acceptance env block now db after parent checked context)
    (tracked : Tracked history db 0) :
    after.heap.parent? db.heap.size = some parent := by
  obtain ⟨own, backs, -, checkSettled⟩ := acceptance.child
  have childInside := lt_size_withChild db parent own block.id
  have checkedInside := Nat.lt_of_lt_of_le childInside checkSettled.heap.size
  obtain ⟨-, -, childPoints, -, -⟩ := tracked.child_outcome acceptance.extends_ backs
  rw [acceptance.carried_checked.parents _ checkedInside, checkSettled.heap.parents _ childInside,
    childPoints]

/-- Every accepted block stands on the root or on another one, and its node shows what applying
it there leaves. -/
theorem ProcessRun.derives (run : ProcessRun env entries history db) :
    ∀ node block, (node, block) ∈ history → ∃ parent, Standing history parent ∧
      db.heap.parent? node = some parent ∧
      Derives env block (db.heap.view parent) (db.heap.view node) := by
  refine run.invariant (fun history db => ∀ node block, (node, block) ∈ history →
    ∃ parent, Standing history parent ∧ db.heap.parent? node = some parent ∧
      Derives env block (db.heap.view parent) (db.heap.view node)) ?_ ?_ ?_
  · exact fun db gave node block mem => absurd mem List.not_mem_nil
  · intro history before after earlier unmoved derives node block mem
    obtain ⟨parent, standing, points, derived⟩ := derives node block mem
    have tracked := earlier.chained.tracked
    have inside := (tracked.placed node block mem).inside
    have parentInside := standing.inside tracked
    refine ⟨parent, standing, (unmoved.settled.parents node inside).trans points, ?_⟩
    rwa [unmoved.settled.view parentInside parentInside, unmoved.settled.view inside inside]
  · intro history before after block now receipt earlier gave derives node other mem
    have tracked := earlier.chained.tracked
    obtain ⟨parent, checked, context, acceptance⟩ := tracked.acceptance gave
    have carried := acceptance.carried
    have wider (node : Nat) (standing : Standing history node) :
        Standing (history ++ [(before.heap.size, block)]) node :=
      standing.imp id fun ⟨block, mem⟩ => ⟨block, List.mem_append_left _ mem⟩
    rcases List.mem_append.mp mem with old | new
    · obtain ⟨above, standing, points, derived⟩ := derives node other old
      have inside := (tracked.placed node other old).inside
      have aboveInside := standing.inside tracked
      refine ⟨above, wider above standing, (carried.parents node inside).trans points, ?_⟩
      rwa [carried.views above aboveInside aboveInside, carried.views node inside inside]
    · obtain ⟨rfl, rfl⟩ := Prod.mk.inj (List.mem_singleton.mp new)
      have parentInside := tracked.inside parent acceptance.parent_indexed.2
      refine ⟨parent, wider parent (acceptance.extends_.standing tracked),
        acceptance.points tracked, ?_⟩
      rw [carried.views parent parentInside parentInside]
      exact acceptance.derives tracked

/-- The root shows the initial objects throughout. -/
theorem ProcessRun.root_shows (run : ProcessRun env entries history db) :
    db.heap.view 0 = Database.written (genesisWrites entries) fun _ => none := by
  refine run.invariant (fun _ db =>
    db.heap.view 0 = Database.written (genesisWrites entries) fun _ => none) ?_ ?_ ?_
  · exact fun db gave => (tracked_of_openController gave).2.2.2
  · intro history before after earlier unmoved shows
    have inside := earlier.chained.tracked.rooted.inside
    rw [unmoved.settled.view inside inside, shows]
  · intro history before after block now receipt earlier gave shows
    have inside := earlier.chained.tracked.rooted.inside
    obtain ⟨parent, checked, context, acceptance⟩ := earlier.chained.tracked.acceptance gave
    rw [acceptance.carried.views 0 inside inside, shows]

/-- A property of the initial objects that every block keeps is shown by every node of a run. -/
theorem ProcessRun.shows (run : ProcessRun env entries history db)
    {Holds : (Bytes → Option Bytes) → Prop}
    (genesis : Holds (Database.written (genesisWrites entries) fun _ => none))
    (blocks : ∀ block below above, Derives env block below above → Holds below → Holds above) :
    ∀ node, Standing history node → Holds (db.heap.view node) := by
  intro node
  -- Blocks stand on older nodes, down to the root, which shows what it showed when it was opened.
  induction node using Nat.strong_induction_on with
  | _ node ih =>
    rintro (rfl | ⟨block, accepted⟩)
    · rwa [run.root_shows]
    · obtain ⟨parent, standing, points, derived⟩ := run.derives node block accepted
      exact blocks block _ _ derived (ih parent (Forest.parent?_lt points) standing)

namespace Context

variable {before after : Context} {writes : Bytes → Prop}

/-- A context in the middle of a block: it is on a live node and metered by the limits of blocks. -/
structure Working (context : Context) : Prop where
  backed : context.heap.Backed
  inside : context.stateNode < context.heap.size
  limits : context.meter.limits = resourceLimits
  remaining : context.meter.remaining ≤ resourceLimits.limit

namespace Working

/-- Whatever remains of a block's limits can be paid for. -/
theorem sound (working : before.Working) : before.Sound := by
  have priced (metered : Meter.Metered) (costs : metered.read resourceLimits.cost ≠ 0)
      (fits : metered.read resourceLimits.limit ≤ maxWord / metered.read resourceLimits.cost) :
      Meter.Priced metered before.meter := by
    intro _
    rw [working.limits]
    exact ⟨costs, UInt64.le_trans (metered.read_le _ _ working.remaining) fits⟩
  exact ⟨working.backed, working.inside, priced _ (by decide) (by decide), priced _ (by decide)
    (by decide), priced _ (by decide) (by decide)⟩

/-- Spending leaves a context working. -/
theorem of_spent (working : before.Working) (stateNode : after.stateNode = before.stateNode)
    (backed : after.heap.Backed) (size : before.heap.size ≤ after.heap.size)
    (spent : Meter.Spent before.meter after.meter) : after.Working :=
  ⟨backed, by rw [stateNode]; exact Nat.lt_of_lt_of_le working.inside size,
    spent.limits.trans working.limits, ResourceState.le_trans spent.remaining working.remaining⟩

theorem of_frame (working : before.Working) (frame : Frame writes before after) : after.Working :=
  working.of_spent frame.stateNode (frame.heap.backed working.backed) frame.heap.size.ge frame.meter

end Working

end Context

/-- What a routine does to a property of states in the middle of a block. -/
def Kept (Holds : (Bytes → Option Bytes) → Prop) (before after : Context) : Prop :=
  before.Working → Holds before.view → after.Working ∧ Holds after.view

section Kept

variable {Holds : (Bytes → Option Bytes) → Prop} {before after : Context} {writes : Bytes → Prop}

instance : Std.Refl (Kept Holds) := ⟨fun _ working holds => ⟨working, holds⟩⟩

instance : IsTrans Context (Kept Holds) :=
  ⟨fun _ _ _ earlier later working holds =>
    have mid := earlier working holds
    later mid.1 mid.2⟩

/-- A property is kept by writes to keys that it does not depend on. -/
theorem kept_of_frame (apart : ∀ view other : Bytes → Option Bytes,
      (∀ key, ¬ writes key → other key = view key) → Holds view → Holds other)
    (frame : Frame writes before after) : Kept Holds before after :=
  fun working holds => ⟨working.of_frame frame, apart _ _ (fun _ outside => frame.view outside)
    holds⟩

variable (authorizes : ∀ tx, (authorizeTransaction env tx).Keeps (Kept Holds))
  (charges : ∀ tx, (chargeTransaction tx).Keeps (Kept Holds))
  (operates : ∀ operation before code after,
    (applyOperation env operation).Returns before code after → Kept Holds before after)

variable {code : ErrorCode} {tx : Transaction}

include operates in
/-- Operations keep what their writes keep. -/
theorem applyOperations_holds {operations : List Operation}
    (gave : (applyOperations env operations).Returns before code after) :
    Kept Holds before after := by
  induction operations generalizing before with
  | nil =>
    obtain ⟨-, rfl⟩ := returns_pure.mp gave
    exact Std.Refl.refl _
  | cons operation rest ih =>
    obtain ⟨outcome, middle, applied, continued⟩ := returns_bind.mp gave
    have first := operates operation before outcome middle applied
    split at continued
    · obtain ⟨-, rfl⟩ := returns_pure.mp continued
      exact first
    · exact IsTrans.trans _ _ _ first (ih continued)

include operates in
/-- Operations are undone or kept as a whole. -/
theorem executeTransaction_holds (working : before.Working) (holds : Holds before.view)
    (gave : (executeTransaction env tx).Returns before code after) :
    after.Working ∧ Holds after.view := by
  obtain ⟨node, heap, outcome, finished, made, ran, started, stateNode, shown⟩ :=
    executeTransaction_views working.backed gave
  have settled : Heap.Settled 0 before.heap after.heap :=
    ((executeTransaction_beyond Heap.shelters_settled tx).of_returns gave (Nat.zero_le _)).2
  refine ⟨working.of_spent stateNode (settled.backed working.backed) settled.size
    (executeTransaction_spends gave), ?_⟩
  obtain ⟨own, backs, rfl, rfl⟩ := Heap.returns_makeChild.mp made
  rw [shown]
  split
  · exact holds
  · refine (applyOperations_holds operates ran ?_ ?_).2
    · refine ⟨Heap.backed_push working.backed rfl, ?_, working.limits, working.remaining⟩
      simp
    · rw [view, started]
      exact holds

include authorizes charges operates

/-- A transaction that is applied keeps the invariant. -/
theorem applyTransaction_holds {receipt : TransactionReceipt} (working : before.Working)
    (holds : Holds before.view)
    (gave : (applyTransaction env tx).Returns before (.ok receipt) after) :
    after.Working ∧ Holds after.view := by
  obtain ⟨authorized, charged, executed, code, authorizing, charging, executing, -, rfl⟩ :=
    applyTransaction_phases gave
  have begun : (beginTransaction tx before).Working :=
    ⟨working.backed, working.inside, working.limits, working.remaining⟩
  obtain ⟨authorizedWorking, authorizedHolds⟩ := (authorizes tx).of_returns authorizing begun holds
  obtain ⟨chargedWorking, chargedHolds⟩ :=
    (charges tx).of_returns charging authorizedWorking authorizedHolds
  obtain ⟨executedWorking, executedHolds⟩ :=
    executeTransaction_holds operates chargedWorking chargedHolds executing
  exact ⟨⟨executedWorking.backed, executedWorking.inside, executedWorking.limits,
    executedWorking.remaining⟩, executedHolds⟩

/-- Transactions in a row keep it. -/
theorem applyTransactions_holds {transactions : List Transaction}
    {receipts : List TransactionReceipt} (working : before.Working) (holds : Holds before.view)
    (gave : (applyTransactions env transactions).Returns before (.ok receipts)
      after) : Holds after.view := by
  induction transactions generalizing before receipts with
  | nil =>
    obtain ⟨-, rfl⟩ := returns_pure.mp gave
    exact holds
  | cons tx rest ih =>
    obtain ⟨receipt, middle, applied, continued⟩ := returns_andThen_ok.mp gave
    obtain ⟨others, final, restApplied, ended⟩ := returns_andThen_ok.mp continued
    obtain ⟨-, rfl⟩ := returns_pure.mp ended
    obtain ⟨middleWorking, middleHolds⟩ :=
      applyTransaction_holds authorizes charges operates working holds applied
    exact ih middleWorking middleHolds restApplied

/-- What the phases of transactions keep, blocks keep. -/
theorem Derives.keeps {below above : Bytes → Option Bytes}
    (derives : Derives env block below above) (holds : Holds below) : Holds above := by
  obtain ⟨before, receipt, after, backed, inside, rfl, gave, rfl⟩ := derives
  obtain ⟨mid, applied, rfl⟩ := applyBlock_phases gave
  have working : Context.Working { before with
      meter := before.meter.setResourceLimits resourceLimits } :=
    ⟨backed, inside, rfl, ResourceState.le_refl _⟩
  have kept := applyTransactions_holds authorizes charges operates working holds applied
  exact kept

end Kept

end Respublica.Controller
