import Respublica.Foundation.Interaction

/-!
# Runs from related states

One computation simulates another under a relation of states if, from related states, it
returns whenever the other returns, with the same value and in a related state. The rules
follow the structure of computations; where a computation looks at its state, the two sides
continue with what each of them has seen. Faults are not compared.

Two computations that do exactly the same, faults included, as long as an invariant holds are
`SameOn` it.
-/

namespace Respublica.Foundation

namespace Effect

variable {Fault State Part Value Result : Type}

/-- From related states, what the first computation returns the second returns too. -/
def Simulates (rel : State → State → Prop) (first second : Effect Fault State Value) : Prop :=
  ∀ left right value mid, rel left right → first.Returns left value mid →
    ∃ other, second.Returns right value other ∧ rel mid other

variable {rel : State → State → Prop}

theorem simulates_pure (value : Value) :
    Simulates rel (pure value : Effect Fault State Value) (pure value) := by
  intro left right result mid related gave
  obtain ⟨rfl, rfl⟩ := returns_pure.mp gave
  exact ⟨right, returns_pure.mpr ⟨rfl, rfl⟩, related⟩

theorem simulates_fail (fault : Fault) (second : Effect Fault State Value) :
    Simulates rel (fail fault) second :=
  fun _ _ _ _ _ gave => (not_returns_fail gave).elim

variable {first second : Effect Fault State Value}

/-- Simulations compose. -/
theorem simulates_bind {firstNext secondNext : Value → Effect Fault State Result}
    (starts : Simulates rel first second)
    (continues : ∀ value, Simulates rel (firstNext value) (secondNext value)) :
    Simulates rel (first >>= firstNext) (second >>= secondNext) := by
  intro left right result mid related gave
  obtain ⟨value, middle, started, continued⟩ := returns_bind.mp gave
  obtain ⟨otherMiddle, otherStarted, middleRelated⟩ := starts _ _ _ _ related started
  obtain ⟨other, otherContinued, reachedRelated⟩ := continues value _ _ _ _ middleRelated continued
  exact ⟨other, returns_bind.mpr ⟨value, otherMiddle, otherStarted, otherContinued⟩, reachedRelated⟩

/-- After looking at their states the two sides may go on differently. -/
theorem simulates_read {firstNext secondNext : State → Effect Fault State Result}
    (continues : ∀ left right, rel left right → Simulates rel (firstNext left) (secondNext right)) :
    Simulates rel (read >>= firstNext) (read >>= secondNext) := by
  intro left right result mid related gave
  obtain ⟨_, _, observed, continued⟩ := returns_bind.mp gave
  obtain ⟨rfl, rfl⟩ := returns_read.mp observed
  obtain ⟨other, otherContinued, reachedRelated⟩ := continues _ _ related _ _ _ _ related continued
  exact ⟨other, returns_bind.mpr ⟨right, right, returns_read.mpr ⟨rfl, rfl⟩, otherContinued⟩,
    reachedRelated⟩

/-- Changes that keep the relation simulate each other. -/
theorem simulates_modify {first second : State → State}
    (keeps : ∀ left right, rel left right → rel (first left) (second right)) :
    Simulates rel (modify first : Effect Fault State Unit) (modify second) := by
  intro left right value mid related gave
  obtain rfl := returns_modify.mp gave
  exact ⟨second right, returns_modify.mpr rfl, keeps left right related⟩

theorem simulates_ofExcept (result : Except Fault Value) :
    Simulates rel (ofExcept result : Effect Fault State Value) (ofExcept result) := by
  cases result with
  | error fault => exact simulates_fail fault _
  | ok value => exact simulates_pure value

theorem simulates_expect (fault : Fault) (found : Option Value) :
    Simulates rel (expect fault found : Effect Fault State Value) (expect fault found) := by
  cases found with
  | none => exact simulates_fail fault _
  | some value => exact simulates_pure value

theorem simulates_ite {condition : Prop} [Decidable condition]
    {other another : Effect Fault State Value} (left : Simulates rel first second)
    (right : Simulates rel other another) :
    Simulates rel (if condition then first else other)
      (if condition then second else another) := by
  split
  · exact left
  · exact right

/-- Work on a part, where the parts of related states are related. -/
theorem simulates_within {part : State → Part} {store : State → Part → State}
    {parts : Part → Part → Prop} {first second : Effect Fault Part Value}
    (simulates : Simulates parts first second)
    (reads : ∀ left right, rel left right → parts (part left) (part right))
    (stores : ∀ left right leftPart rightPart, rel left right → parts leftPart rightPart →
      rel (store left leftPart) (store right rightPart)) :
    Simulates rel (within part store first) (within part store second) := by
  intro left right value mid related gave
  obtain ⟨reachedPart, inner, rfl⟩ := returns_within.mp gave
  obtain ⟨otherPart, otherInner, partsRelated⟩ := simulates _ _ _ _ (reads _ _ related) inner
  exact ⟨_, returns_within.mpr ⟨otherPart, otherInner, rfl⟩, stores _ _ _ _ related partsRelated⟩

theorem simulates_ensuring {change : State → State} (simulates : Simulates rel first second)
    (keeps : ∀ left right, rel left right → rel (change left) (change right)) :
    Simulates rel (ensuring change first) (ensuring change second) := by
  intro left right value mid related gave
  obtain ⟨inner, ended, rfl⟩ := returns_ensuring.mp gave
  obtain ⟨other, otherEnded, innerRelated⟩ := simulates _ _ _ _ related ended
  exact ⟨_, returns_ensuring.mpr ⟨other, otherEnded, rfl⟩, keeps _ _ innerRelated⟩

theorem simulates_onFault {change : Fault → Fault} (simulates : Simulates rel first second) :
    Simulates rel (onFault change first) (onFault change second) := by
  intro left right value mid related gave
  obtain ⟨other, otherEnded, reachedRelated⟩ := simulates _ _ _ _ related (returns_onFault.mp gave)
  exact ⟨other, returns_onFault.mpr otherEnded, reachedRelated⟩

section SameOn

variable {invariant : State → Prop}

/-- Where the invariant holds, the computations have the same outcome. -/
def SameOn (invariant : State → Prop) (first second : Effect Fault State Value) : Prop :=
  ∀ state, invariant state → first state = second state

theorem sameOn_refl (computation : Effect Fault State Value) :
    SameOn invariant computation computation := fun _ _ => rfl

variable {first second : Effect Fault State Value}

/-- Routines that are the same where an invariant holds compose, if it is kept. -/
theorem sameOn_bind {firstNext secondNext : Value → Effect Fault State Result}
    (starts : SameOn invariant first second) (keeps : second.Keeps (Preserving invariant))
    (continues : ∀ value, SameOn invariant (firstNext value) (secondNext value)) :
    SameOn invariant (first >>= firstNext) (second >>= secondNext) := by
  intro state holds
  have kept := keeps state holds
  simp only [bind, starts state holds]
  rcases outcome : second state with ⟨fault | value, mid⟩
  · rfl
  · rw [outcome] at kept
    exact continues value mid kept

theorem sameOn_ite {condition : Prop} [Decidable condition]
    {other another : Effect Fault State Value} (left : SameOn invariant first second)
    (right : SameOn invariant other another) :
    SameOn invariant (if condition then first else other)
      (if condition then second else another) := by
  split
  · exact left
  · exact right

theorem sameOn_onFault {change : Fault → Fault} (same : SameOn invariant first second) :
    SameOn invariant (onFault change first) (onFault change second) :=
  fun state holds => onFault_congr (same state holds)

end SameOn

end Effect

namespace Interaction

variable {Fault State Call Value : Type} {Response : Call → Type}
  {rel : State → State → Prop}
  {first second : (request : Call) → Effect Fault State (Response request)}

/-- If all answers are simulated, so is every program that asks for them. -/
theorem simulates_interpret
    (answers : ∀ request, Effect.Simulates rel (first request) (second request))
    (program : Interaction Fault Call Response Value) :
    Effect.Simulates rel (interpret first program) (interpret second program) := by
  induction program with
  | done value => exact Effect.simulates_pure value
  | stop fault => exact Effect.simulates_fail fault _
  | call request next ih => exact Effect.simulates_bind (answers request) ih

/-- A program cannot tell answers apart that are the same on an invariant they keep. -/
theorem sameOn_interpret {invariant : State → Prop}
    (answers : ∀ request, Effect.SameOn invariant (first request) (second request))
    (keeps : ∀ request, (second request).Keeps (Effect.Preserving invariant))
    (program : Interaction Fault Call Response Value) :
    Effect.SameOn invariant (interpret first program) (interpret second program) := by
  induction program with
  | done value => exact Effect.sameOn_refl _
  | stop fault => exact Effect.sameOn_refl _
  | call request next ih => exact Effect.sameOn_bind (answers request) (keeps request) ih

end Interaction

end Respublica.Foundation
