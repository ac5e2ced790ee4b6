import Respublica.Controller.Concealment
import Respublica.Controller.Phases
import Respublica.StateDb.Layers

/-!
# Contexts on nodes with the same layers

Two contexts mirror each other if the nodes they work on stand on the same layers, whatever else
their heaps hold. A transaction is executed on a new child and squashed, so the two sides name
their nodes differently; what they leave in the node of the block is the same.
-/

namespace Respublica.Controller.Context

open Foundation Effect Crypto Program Protocol StateDb Heap

/-- The nodes have the same layers, and both contexts are read-only or neither. -/
def Mirrored (left right : Context) : Prop :=
  ∃ heap node intent, left.heap.layers left.stateNode = heap.layers node ∧
    (left.intent = .readOnly ↔ intent = .readOnly) ∧
    right = { left with heap := heap, stateNode := node, intent := intent }

/-- A routine on the node that does the same to the same layers. -/
theorem onNode_mirrored {Value : Type} {routine : Nat → Effect Fault Heap Value}
    (mirrors : ∀ {left right mid : Heap} {first second : Nat} {value : Value},
      left.layers first = right.layers second → (routine first).Returns left value mid →
        ∃ other, (routine second).Returns right value other ∧
          mid.layers first = other.layers second) :
    Parallel Mirrored (do
      let context ← Effect.read
      onHeap (routine context.stateNode)) := by
  rintro left _ value mid ⟨heap, node, intent, same, modes, rfl⟩ gave
  simp only [onHeap, returns_bind, returns_read, returns_within] at gave
  obtain ⟨_, _, ⟨rfl, rfl⟩, after, worked, rfl⟩ := gave
  obtain ⟨other, otherWorked, sameAfter⟩ := mirrors same worked
  refine ⟨_, ?_, other, node, intent, sameAfter, modes, rfl⟩
  simp only [onHeap, returns_bind, returns_read, returns_within]
  exact ⟨_, _, ⟨rfl, rfl⟩, other, otherWorked, rfl⟩

/-- That contexts mirror each other is not seen through. -/
theorem mirrored_conceals : Conceals Mirrored where
  fields := by
    rintro left _ ⟨heap, node, intent, -, -, rfl⟩
    exact ⟨heap, node, intent, rfl⟩
  modes := by
    rintro left _ ⟨heap, node, intent, -, modes, rfl⟩
    exact modes
  others := by
    rintro left _ ⟨heap, node, intent, same, modes, rfl⟩ stack tx meter frames signatures
    exact ⟨heap, node, intent, same, modes, rfl⟩
  reads := by
    rintro left _ ⟨heap, node, intent, same, -, rfl⟩ key
    exact get_of_layers_eq same key
  puts space key value := onNode_mirrored fun same => put_of_layers_eq same
  removes space key := onNode_mirrored fun same => remove_of_layers_eq same

variable {env : Env}

/-- A new child of the node, for the operations of a transaction. -/
theorem mirrored_child {left : Context} {heap : Heap} {node : Nat} {intent : Intent}
    {own other : Backend} (same : left.heap.layers left.stateNode = heap.layers node)
    (modes : left.intent = .readOnly ↔ intent = .readOnly)
    (held : left.heap.backend left.stateNode = .ok own)
    (otherHeld : heap.backend node = .ok other) :
    Mirrored
      { left with
        heap := left.heap.push (some left.stateNode) (childOf own nullId)
        stateNode := left.heap.size }
      { left with
        heap := heap.push (some node) (childOf other nullId)
        stateNode := heap.size
        intent := intent } := by
  refine ⟨_, _, intent, ?_, modes, rfl⟩
  rw [layers_push_child (lt_size_of_backend held),
    layers_push_child (lt_size_of_backend otherHeld), same]
  rfl

/-- Executing a transaction does the same to nodes with the same layers. -/
theorem executeTransaction_mirrored (localsAgree : LocalsAgreeOn Mirrored env)
    (tx : Transaction) : Parallel Mirrored (executeTransaction env tx) := by
  rintro left _ code mid ⟨heap, node, intent, same, modes, rfl⟩ gave
  obtain ⟨child, _, outcome, finished, made, ran, ended⟩ := returns_executeTransaction.mp gave
  obtain ⟨own, held, rfl, rfl⟩ := returns_makeChild.mp made
  obtain ⟨other, otherHeld, -⟩ := backend_of_layers_eq same held
  obtain ⟨otherFinished, otherRan, mirrored⟩ := mirrored_conceals.applyOperations localsAgree
    tx.operations _ _ _ _ (mirrored_child same modes held otherHeld) ran
  have otherMade : (makeChild node nullId).Returns heap heap.size
      (heap.push (some node) (childOf other nullId)) :=
    returns_makeChild.mpr ⟨other, otherHeld, rfl, rfl⟩
  have frame := (applyOperations_frame tx.operations).of_returns ran
  have otherFrame := (applyOperations_frame tx.operations).of_returns otherRan
  -- Programs leave the tree of deltas alone, so both children still hang where they were made.
  have points : finished.heap.parent? finished.stateNode = some left.stateNode := by
    rw [frame.stateNode, frame.heap.parents]
    exact Forest.parent?_push_child (lt_size_of_backend held) _
  have otherPoints : otherFinished.heap.parent? otherFinished.stateNode = some node := by
    rw [otherFrame.stateNode, otherFrame.heap.parents]
    exact Forest.parent?_push_child (lt_size_of_backend otherHeld) _
  have childNode : finished.stateNode = left.heap.size := frame.stateNode
  have otherChildNode : otherFinished.stateNode = heap.size := otherFrame.stateNode
  obtain ⟨finishedHeap, finishedNode, finishedIntent, sameFinished, finishedModes, rfl⟩ := mirrored
  split at ended <;> rename_i failed
  · obtain ⟨rfl, rfl⟩ := ended
    obtain ⟨another, isParent, above⟩ := parent_of_layers_eq sameFinished points
    obtain rfl := Option.some.inj (isParent.symm.trans otherPoints)
    refine ⟨_, returns_executeTransaction.mpr ⟨_, _, code, _, otherMade, otherRan, ?_⟩,
      finishedHeap, another, finishedIntent, above, finishedModes, rfl⟩
    rw [if_pos failed]
    exact ⟨rfl, rfl⟩
  · obtain ⟨squashed, squash, rfl, rfl⟩ := ended
    rw [← childNode] at squash
    obtain ⟨another, otherSquashed, isParent, otherSquash, above⟩ :=
      squashTemporary_of_layers_eq sameFinished points squash
    obtain rfl := Option.some.inj (isParent.symm.trans otherPoints)
    refine ⟨_, returns_executeTransaction.mpr ⟨_, _, outcome, _, otherMade, otherRan, ?_⟩,
      otherSquashed, another, finishedIntent, above, finishedModes, rfl⟩
    rw [if_neg failed]
    exact ⟨otherSquashed, otherChildNode ▸ otherSquash, rfl, rfl⟩

/-- Applying a block gives the same receipt on nodes with the same layers, and does the same to
them. -/
theorem applyBlock_mirrored (localsAgree : LocalsAgreeOn Mirrored env) (block : Block) :
    Parallel Mirrored (applyBlock env block) :=
  mirrored_conceals.applyBlock localsAgree (executeTransaction_mirrored localsAgree) block

/-- So does applying a transaction. -/
theorem applyTransaction_mirrored (localsAgree : LocalsAgreeOn Mirrored env)
    (tx : Transaction) : Parallel Mirrored (applyTransaction env tx) :=
  mirrored_conceals.applyTransaction localsAgree (executeTransaction_mirrored localsAgree) tx

end Respublica.Controller.Context
