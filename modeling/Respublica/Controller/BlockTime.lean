import Respublica.Controller.ChainEnd
import Respublica.Controller.Resubmission

/-!
# Block time

A block's timestamp is compared with the clock and with the time of its predecessor as the
predecessor's state gives it. That time is a field that is never set, so the second comparison is
with zero. A block is later than its predecessor if its timestamp is beyond the bound that the
predecessor has passed, five seconds after the clock of that time. Otherwise nothing sees to it: on
every accepted block below the irreversible threshold the controller takes any timestamp that is
not in the future.
-/

namespace Respublica.Controller

open Foundation Effect Crypto Program Protocol StateDb

variable {env : Env} {entries : List GenesisEntry} {history : List (Nat × Block)}
  {db after : Database} {node : Nat} {block previous : Block} {now clock : Int}

/-- What the checks of a block say about its timestamp: the lower bound is zero. -/
theorem timely_of_checkBlock {before : Database} {parent : Nat}
    (checks : (checkBlock env block parent now).Returns before (.ok ()) after) :
    0 < block.timestamp ∧ block.timestamp ≤ timeUpperBound now := by
  unfold checkBlock at checks
  split at checks
  · split at checks
    · cases (returns_pure.mp checks).1
    · exact checkTime_eq_ok_iff.mp (returns_pure.mp checks).1.symm
  · obtain ⟨root, middle, -, compared⟩ := returns_bind.mp checks
    split at compared
    · cases (returns_pure.mp compared).1
    · obtain ⟨info, mid, informed, measured⟩ := returns_bind.mp compared
      obtain ⟨-, -, -, -, noTime, -⟩ := returns_headInfo.mp informed
      rw [noTime] at measured
      split at measured
      · cases (returns_pure.mp measured).1
      · exact checkTime_eq_ok_iff.mp (returns_pure.mp measured).1.symm

/-- A block that was accepted in a run when the clock had the given value. The database is one
that the controller has reached since. -/
def AcceptedAt (env : Env) (entries : List GenesisEntry) (block : Block) (clock : Int)
    (node : Nat) (db : Database) : Prop :=
  ∃ history before receipt mid, ProcessRun env entries history before ∧
    node = before.heap.size ∧ (processBlock env block clock).Returns before (.ok receipt) mid ∧
    Relation.ReflTransGen (ProcessStep env) mid db

namespace AcceptedAt

/-- The block is in the history of the run. -/
theorem run (accepted : AcceptedAt env entries block clock node db) :
    ∃ history, ProcessRun env entries history db ∧ (node, block) ∈ history := by
  obtain ⟨history, before, receipt, mid, earlier, rfl, gave, steps⟩ := accepted
  obtain ⟨later, run⟩ := (earlier.accepted gave).steps steps
  exact ⟨_, run, List.mem_append_left _ (List.mem_append_right _ List.mem_cons_self)⟩

/-- It has passed the bound of its clock. -/
theorem timestamp_le (accepted : AcceptedAt env entries block clock node db) :
    block.timestamp ≤ timeUpperBound clock := by
  obtain ⟨history, before, receipt, mid, earlier, -, gave, -⟩ := accepted
  obtain ⟨parent, checked, context, acceptance⟩ := earlier.tracked.acceptance gave
  obtain ⟨own, -, checks, -⟩ := acceptance.child
  exact (timely_of_checkBlock checks).2

end AcceptedAt

/-- On a block that was accepted at some clock value, a block with a timestamp beyond the bound of
that value is later. No more can be said: below the irreversible threshold a block without
transactions that is valid on it but for its time is accepted with exactly the timestamps above
zero that are not beyond the bound of the present, whatever the timestamp of its predecessor. -/
theorem timestamps_increase_beyond_bound
    (accepted : AcceptedAt env entries previous clock node db) :
    (∀ block now receipt after, block.previous = previous.id →
      timeUpperBound clock < block.timestamp →
      (processBlock env block now).Returns db (.ok receipt) after →
        previous.timestamp < block.timestamp) ∧
    (previous.height < irreversibleThreshold → ∀ block now, EmptyOn env entries db node block →
      ((∃ receipt after, (processBlock env block now).Returns db (.ok receipt) after) ↔
        0 < block.timestamp ∧ block.timestamp ≤ timeUpperBound now)) := by
  refine ⟨fun block now receipt after _ beyond _ => ?_, fun below block now made => ?_⟩
  · exact UInt64.lt_of_le_of_lt accepted.timestamp_le beyond
  · obtain ⟨history, run, mem⟩ := accepted.run
    have revised := (run.chained.links node previous mem).revised
    constructor
    · rintro ⟨receipt, after, gave⟩
      exact made.timely_of_accepted run gave
    · exact fun timely => made.accepted run timely revised below

/-- The first block was accepted at clock zero. -/
theorem acceptedAt_sampleFirst :
    AcceptedAt .plain sampleEntries sampleFirst 0 1 afterFirst := by
  obtain ⟨receipt, gave, -⟩ := returns_ok_of_map_fst
    (show (processBlock .plain sampleFirst 0 sampleGenesis).1.map
      (Except.map BlockReceipt.height) = .ok (.ok 1) by decide +kernel)
  exact ⟨[], sampleGenesis, receipt, afterFirst, run_sampleGenesis, by decide +kernel, gave,
    .refl⟩

/-- A second block of six seconds is later than the first, which has passed a bound of five. One
of a second is accepted as well, on a first block of two. -/
theorem timestamps_increase_beyond_bound_after_first :
    sampleFirst.timestamp < (secondBlock 6000).timestamp ∧
      ∃ receipt after, (processBlock .plain (secondBlock 1000) 0).Returns afterFirst
        (.ok receipt) after := by
  obtain ⟨later, accepts⟩ := timestamps_increase_beyond_bound acceptedAt_sampleFirst
  obtain ⟨receipt, gave, -⟩ := returns_ok_of_map_fst
    (show (processBlock .plain (secondBlock 6000) 2000000000 afterFirst).1.map
      (Except.map BlockReceipt.height) = .ok (.ok 2) by decide +kernel)
  have made : EmptyOn .plain sampleEntries afterFirst 1 (secondBlock 1000) := by
    refine ⟨?_, ?_, ⟨?_, ?_, ?_⟩, ⟨1, ?_, ?_⟩, fun _ => ?_, ?_, ?_⟩
    all_goals decide +kernel
  exact ⟨later (secondBlock 6000) 2000000000 receipt _ rfl (by decide +kernel) gave,
    (accepts (by decide +kernel) (secondBlock 1000) 0 made).mpr (by decide +kernel)⟩

/-- A block is accepted on one that is a second later. -/
theorem earlier_block_accepted_on_later :
    ProcessRun .plain sampleEntries [(1, sampleFirst), (2, secondBlock 1000)]
        (afterSecond 1000) ∧
      (afterSecond 1000).heap.parent? 2 = some 1 ∧
      (secondBlock 1000).previous = sampleFirst.id ∧
      (secondBlock 1000).timestamp = 1000 ∧ sampleFirst.timestamp = 2000 :=
  ⟨run_afterSecond (by decide +kernel), by decide +kernel, rfl, rfl, rfl⟩

end Respublica.Controller
