import Respublica.Controller.Concealment
import Respublica.StateDb.Alike

/-!
# What execution does not depend on

Applying a transaction looks at the objects of the state and at the context's own fields. It
looks neither at the ids and revisions of state nodes nor at cached Merkle roots, and at the
intent of the context only to see whether it is read-only. So contexts that differ in nothing
else give the same results. What the coin program finds in locals that were never written is
left to the environment, and has to be the same in such contexts.
-/

namespace Respublica.Controller

open Foundation Effect Crypto Program Protocol StateDb

namespace Context

/-- Contexts on heaps with the same contents, both read-only or neither. -/
def Alike (left right : Context) : Prop :=
  ∃ heap intent, Heap.Alike left.heap heap ∧ (left.intent = .readOnly ↔ intent = .readOnly) ∧
    right = { left with heap := heap, intent := intent }

/-- A routine gives the same results in contexts that are alike. -/
abbrev Indifferent {Value : Type} (routine : Run Value) : Prop :=
  Effect.Simulates Alike routine routine

/-- Work on heaps that are alike leaves contexts alike. -/
theorem onHeap_simulates {Value : Type} {first second : Effect Fault Heap Value}
    (simulates : Effect.Simulates Heap.Alike first second) :
    Effect.Simulates Alike (onHeap first) (onHeap second) := by
  refine simulates_within simulates ?_ ?_
  · rintro left _ ⟨heap, intent, alike, -, rfl⟩
    exact alike
  · rintro left _ leftHeap rightHeap ⟨heap, intent, -, modes, rfl⟩ alike
    exact ⟨rightHeap, intent, alike, modes, rfl⟩

/-- Being alike is not seen through. -/
theorem alike_conceals : Conceals Alike where
  fields := by
    rintro left _ ⟨heap, intent, -, -, rfl⟩
    exact ⟨heap, left.stateNode, intent, rfl⟩
  modes := by
    rintro left _ ⟨heap, intent, -, modes, rfl⟩
    exact modes
  others := by
    rintro left _ ⟨heap, intent, alike, modes, rfl⟩ stack tx meter frames signatures
    exact ⟨heap, intent, alike, modes, rfl⟩
  reads := by
    rintro left _ ⟨heap, intent, alike, -, rfl⟩ key
    exact alike.get left.stateNode key
  puts space key value := by
    refine simulates_read ?_
    rintro left _ ⟨heap, intent, -, -, rfl⟩
    exact onHeap_simulates (Heap.put_simulates _ _ _)
  removes space key := by
    refine simulates_read ?_
    rintro left _ ⟨heap, intent, -, -, rfl⟩
    exact onHeap_simulates (Heap.remove_simulates _ _)

/-- A change of other fields. -/
theorem alike_change {change : Context → Context}
    (apart : ∀ context heap intent, change { context with heap := heap, intent := intent } =
      { change context with heap := heap, intent := intent })
    (kept : ∀ context, (change context).heap = context.heap ∧
      (change context).intent = context.intent) :
    ∀ left right, Alike left right → Alike (change left) (change right) := by
  rintro left _ ⟨heap, intent, alike, modes, rfl⟩
  obtain ⟨sameHeap, sameIntent⟩ := kept left
  exact ⟨heap, intent, sameHeap ▸ alike, sameIntent ▸ modes, apart left heap intent⟩

/-- What unwritten locals hold is the same in contexts that are alike. -/
def LocalsAgree (env : Env) : Prop :=
  ∀ left right, Alike left right → env.locals left = env.locals right

variable {env : Env}

theorem setStateNode_indifferent (node : Nat) : Indifferent (setStateNode node) :=
  simulates_modify (alike_change (fun _ _ _ => rfl) fun _ => ⟨rfl, rfl⟩)

/-- A transaction is executed alike, whatever the intent. -/
theorem executeTransaction_indifferent (localsAgree : LocalsAgree env)
    (tx : Transaction) : Indifferent (executeTransaction env tx) := by
  refine simulates_read ?_
  rintro left _ ⟨heap, intent, -, -, rfl⟩
  refine simulates_bind (onHeap_simulates (Heap.makeChild_simulates _ _ _)) fun node => ?_
  refine simulates_bind (setStateNode_indifferent node) fun _ => ?_
  refine simulates_bind (alike_conceals.applyOperations localsAgree _) fun code => ?_
  refine simulates_ite ?_ ?_
  · exact simulates_bind (setStateNode_indifferent _) fun _ => simulates_pure _
  · exact simulates_bind (onHeap_simulates (Heap.squashTemporary_simulates _)) fun _ =>
      simulates_bind (setStateNode_indifferent _) fun _ => simulates_pure _

/-- Applying a transaction gives the same receipt in contexts that are alike. -/
theorem applyTransaction_indifferent (localsAgree : LocalsAgree env)
    (tx : Transaction) : Indifferent (applyTransaction env tx) :=
  alike_conceals.applyTransaction localsAgree (executeTransaction_indifferent localsAgree) tx

end Context

end Respublica.Controller
