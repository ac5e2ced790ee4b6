import Mathlib.Logic.Relation
import Respublica.Controller.Atomicity
import Respublica.Controller.Layering

/-!
# Resubmission

A node is made for a block before the block is checked, and it stays in the index when the block
is refused or an exception ends its evaluation. From then on the block is known: whatever
happens later and whatever the clock says, it is answered with `ok` and not looked at again.
Since its node is never made final, no block is ever accepted on top of it either. So a
controller that has once refused a block for its time cannot follow a chain through that block.
-/

namespace Respublica.Controller

open Foundation Effect Crypto Program Protocol StateDb

variable {env : Env} {entries : List GenesisEntry} {history : List (Nat × Block)}
  {db after : Database} {root node : Nat} {block : Block} {now : Int}

/-- A call of `process` for a block that came back, with a receipt or without one. -/
inductive Submitted (env : Env) (block : Block) (now : Int) (before : Database) :
    Option BlockReceipt → Database → Prop where
  | accepted {receipt : BlockReceipt} {after : Database} :
      (processBlock env block now).Returns before (.ok receipt) after →
        Submitted env block now before (some receipt) after
  | refused {error : ErrorCode} {after : Database} :
      (processBlock env block now).Returns before (.error error) after →
        Submitted env block now before none after
  | threw {message : String} {after : Database} :
      (∀ parent, Extends block before parent → ¬ MakesIrreversible before parent) →
        (processBlock env block now).Stops before (.exception message) after →
        Submitted env block now before none after

/-- One call of a controller. -/
inductive ProcessStep (env : Env) (before : Database) : Database → Prop where
  | block {block : Block} {now : Int} {receipt : Option BlockReceipt} {after : Database} :
      Submitted env block now before receipt after → ProcessStep env before after
  | transaction (tx : Transaction) :
      ProcessStep env before (processTransaction env tx before).2

/-- A run goes on with every call. -/
theorem ProcessRun.step (run : ProcessRun env entries history db)
    (step : ProcessStep env db after) :
    ∃ later, ProcessRun env entries (history ++ later) after := by
  have unmoved : ∀ {mid}, ProcessRun env entries history mid →
      ∃ later, ProcessRun env entries (history ++ later) mid :=
    fun longer => ⟨[], by rwa [List.append_nil]⟩
  cases step with
  | block submitted =>
    cases submitted with
    | accepted gave => exact ⟨_, run.accepted gave⟩
    | refused gave => exact unmoved (run.refused gave)
    | threw reversible stopped => exact unmoved (run.threw reversible stopped)
  | transaction tx => exact unmoved (run.transaction tx)

/-- And with any number of calls. -/
theorem ProcessRun.steps (run : ProcessRun env entries history db)
    (steps : Relation.ReflTransGen (ProcessStep env) db after) :
    ∃ later, ProcessRun env entries (history ++ later) after := by
  induction steps with
  | refl => exact ⟨[], by rwa [List.append_nil]⟩
  | tail _ step ih =>
    obtain ⟨later, mid⟩ := ih
    obtain ⟨last, final⟩ := mid.step step
    exact ⟨later ++ last, by rwa [← List.append_assoc]⟩

/-- A node of the index with its id, final or not. -/
structure Entered (db : Database) (node : Nat) (id : StateNodeId) (isFinal : Bool) : Prop where
  indexed : node ∈ db.index
  named : db.heap.id node = .ok id
  final : db.heap.final node = isFinal

namespace Entered

variable {id : StateNodeId} {isFinal : Bool}

theorem unmoved (entered : Entered db node id isFinal)
    (inside : ∀ node ∈ db.index, node < db.heap.size)
    (unmoved : Unmoved env db after) : Entered after node id isFinal := by
  have within := inside node entered.indexed
  exact ⟨unmoved.indexes.subset entered.indexed,
    (unmoved.carried.ids node within).trans entered.named,
    (unmoved.settled.final within).trans entered.final⟩

end Entered

/-- An accepted block makes no other node final. -/
theorem Acceptance.finals {checked : Database} {context : Context} {parent : Nat}
    (acceptance : Acceptance env block now db after parent checked context)
    (inside : node < db.heap.size) : after.heap.final node = db.heap.final node := by
  obtain ⟨own, backs, -, checkSettled⟩ := acceptance.child
  obtain ⟨head, forkHeads, -, settled⟩ := acceptance.finalized
  have pushed : Heap.Settled 0 db.heap (withChild db parent own block.id).heap :=
    Heap.settled_makeChild backs block.id
  have childInside := Nat.lt_of_lt_of_le inside pushed.size
  have checkedInside := Nat.lt_of_lt_of_le childInside checkSettled.heap.size
  have appliedInside := Nat.lt_of_lt_of_le checkedInside acceptance.settled.heap.size
  have updated : Heap.final (context.heap.update db.heap.size
      fun delta => { delta with final := true }) node = context.heap.final node := by
    rw [Heap.final, Forest.node?_update, if_neg (Nat.ne_of_gt inside), ← Heap.final]
  calc after.heap.final node
    _ = context.heap.final node :=
        ((settled 0).heap.final (by rw [Forest.size_update]; exact appliedInside)).trans updated
    _ = checked.heap.final node := acceptance.settled.heap.final checkedInside
    _ = db.heap.final node := (checkSettled.heap.final childInside).trans (pushed.final inside)

namespace Entered

variable {id : StateNodeId} {isFinal : Bool}

/-- A node that was entered stays as it is, whatever call follows. -/
theorem step (entered : Entered db node id isFinal)
    (run : ProcessRun env entries history db)
    (step : ProcessStep env db after) : Entered after node id isFinal := by
  have tracked := run.chained.tracked
  cases step with
  | block submitted =>
    cases submitted with
    | accepted gave =>
      obtain ⟨_, _, _, acceptance⟩ := tracked.acceptance gave
      have inside := tracked.inside node entered.indexed
      exact ⟨acceptance.carried.index node entered.indexed,
        (acceptance.carried.ids node inside).trans entered.named,
        (acceptance.finals inside).trans entered.final⟩
    | refused gave =>
      exact entered.unmoved tracked.inside (unmoved_of_refused tracked gave)
    | threw reversible stopped =>
      exact entered.unmoved tracked.inside (unmoved_of_stopped tracked reversible stopped)
  | transaction tx =>
    exact entered.unmoved tracked.inside (unmoved_of_transaction db tx)

/-- Hence it stays throughout every continuation of the run. -/
theorem steps (entered : Entered db node id isFinal)
    (run : ProcessRun env entries history db)
    (later : Relation.ReflTransGen (ProcessStep env) db after) :
    Entered after node id isFinal := by
  induction later with
  | refl => exact entered
  | tail earlier step ih =>
    obtain ⟨_, reachedRun⟩ := run.steps earlier
    exact ih.step reachedRun step

/-- There is one node under an id. -/
theorem unique {other : Nat} (entered : Entered db node id isFinal)
    (run : ProcessRun env entries history db) (indexed : other ∈ db.index)
    (named : db.heap.id other = .ok id) : other = node := by
  have found := run.find_of_mem entered.indexed entered.named
  exact Option.some.inj (Except.ok.inj ((run.find_of_mem indexed named).symm.trans found))

end Entered

/-- What is left on the new child of a block is not final. -/
theorem entered_of_settled (tracked : Tracked history db root) {parent : Nat} {own : Backend}
    (extends_ : Extends block db parent) (backs : db.heap.backend parent = .ok own)
    (settled : Database.Settled db.heap.size (withChild db parent own block.id) after) :
    Entered after db.heap.size block.id false := by
  obtain ⟨indexed, named, -⟩ := tracked.child_outcome extends_ backs
  have inside := lt_size_withChild db parent own block.id
  refine ⟨settled.index ▸ indexed, (settled.heap.id inside).trans named,
    (settled.heap.final inside).trans ?_⟩
  rw [Heap.final_eq (node?_withChild db parent own block.id)]
  rfl

/-- A block that was evaluated has a node, which is final if the block was accepted. -/
theorem Submitted.entered {parent : Nat} {receipt : Option BlockReceipt}
    (submitted : Submitted env block now db receipt after)
    (run : ProcessRun env entries history db)
    (valid : block.validate env.crypto = true) (extends_ : Extends block db parent) :
    Entered after db.heap.size block.id receipt.isSome := by
  have tracked := run.chained.tracked
  obtain ⟨-, own, -, -, backs⟩ :=
    Heap.backend_of_backed tracked.rooted.backed (Heap.lt_size_of_final extends_.final)
  have evaluates := processBlock_evaluates env now tracked valid extends_ backs
  cases submitted with
  | accepted gave =>
    have placed := (run.accepted gave).chained.tracked.placed db.heap.size block
      (List.mem_append_right _ List.mem_cons_self)
    exact ⟨placed.indexed, placed.named, placed.final⟩
  | refused gave =>
    rw [Effect.Returns, evaluates] at gave
    exact entered_of_settled tracked extends_ backs (evaluateBlock_refused gave)
  | threw reversible stopped =>
    rw [Effect.Stops, evaluates] at stopped
    exact entered_of_settled tracked extends_ backs
      (leftBehind_of_stopped tracked backs (reversible parent extends_) stopped).settled

/-- A block is evaluated once. Whatever it came to and whatever calls follow, a valid block with
its id is answered with `ok` at every time and changes nothing. If it was not accepted, then no
block that is ever accepted has its id or names it as its predecessor. -/
theorem block_evaluated_once (run : ProcessRun env entries history db)
    (valid : block.validate env.crypto = true) {parent : Nat}
    (extends_ : Extends block db parent) {receipt : Option BlockReceipt} {final : Database}
    (submitted : Submitted env block now db receipt after)
    (later : Relation.ReflTransGen (ProcessStep env) after final) :
    (∀ again time, again.validate env.crypto = true → again.id = block.id →
      (processBlock env again time).Returns final (.error (.controller .ok)) final) ∧
    (receipt = none → ∀ longer, ProcessRun env entries longer final →
      ∀ node accepted, (node, accepted) ∈ longer →
        accepted.id ≠ block.id ∧ accepted.previous ≠ block.id) := by
  obtain ⟨mid, afterRun⟩ := run.step (.block submitted)
  have entered := (submitted.entered run valid extends_).steps afterRun later
  obtain ⟨_, finalRun⟩ := afterRun.steps later
  refine ⟨fun again time againValid sameId => ?_, ?_⟩
  · refine finalRun.chained.tracked.answers_ok againValid ⟨_, entered.indexed, ?_⟩ time
    rw [entered.named, sameId]
  · rintro rfl other otherRun node accepted mem
    have placed := otherRun.chained.tracked.placed node accepted mem
    have link := otherRun.chained.links node accepted mem
    obtain ⟨parent, parentIndexed, -, parentFinal, parentNamed, -⟩ := link.parent
    constructor
    · intro sameId
      have same := entered.unique otherRun placed.indexed (sameId ▸ link.named)
      have isFinal := placed.final
      rw [same, entered.final] at isFinal
      cases isFinal
    · intro samePrevious
      have same := entered.unique otherRun parentIndexed (samePrevious ▸ parentNamed)
      rw [same, entered.final] at parentFinal
      cases parentFinal

/-- The theorem applies to a block that came too early: after another block was accepted and its
time has come it is answered with `ok`, while no accepted block builds on it. -/
theorem block_evaluated_once_for_earlyBlock :
    ∃ refused final, Submitted .plain earlyBlock 0 sampleGenesis none refused ∧
      final.head = some 2 ∧
      (processBlock .plain earlyBlock 6000000000).Returns final (.error (.controller .ok)) final ∧
      ∀ longer, ProcessRun .plain sampleEntries longer final →
        ∀ node accepted, (node, accepted) ∈ longer → accepted.previous ≠ earlyBlock.id := by
  let refused := (processBlock .plain earlyBlock 0 sampleGenesis).2
  let final := (processBlock .plain sampleFirst 0 refused).2
  have submitted : Submitted .plain earlyBlock 0 sampleGenesis none refused :=
    .refused (returns_of_fst (show (processBlock .plain earlyBlock 0 sampleGenesis).1 =
      .ok (.error (.controller .timestampOutOfBounds)) by decide +kernel))
  obtain ⟨receipt, accepted, -⟩ := returns_ok_of_map_fst
    (show (processBlock .plain sampleFirst 0 refused).1.map (Except.map BlockReceipt.height) =
      .ok (.ok 1) by decide +kernel)
  have extends_ : Extends earlyBlock sampleGenesis 0 :=
    ⟨by decide +kernel, by decide +kernel, by decide +kernel⟩
  obtain ⟨answers, excluded⟩ := block_evaluated_once run_sampleGenesis (by decide +kernel) extends_
    submitted (.single (.block (.accepted accepted)))
  exact ⟨refused, final, submitted, by decide +kernel, answers earlyBlock 6000000000
    (by decide +kernel) rfl, fun longer longerRun node other mem =>
      (excluded rfl longer longerRun node other mem).2⟩

end Respublica.Controller
