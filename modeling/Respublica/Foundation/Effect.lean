import Mathlib.Order.Defs.Unbundled

/-!
# Faulting computations over a state

`Effect` is the meaning of a stateful routine that may throw or crash. The
state reached is kept when a fault stops the routine, because an exception does
not undo the writes made before it. `Returns` inverts a routine that came back
with a value; `Keeps` follows a preorder through every exit, faults included.
-/

namespace Respublica.Foundation

/-- A sequence succeeds when both of its parts do. -/
theorem bind_eq_ok {Error Value Result : Type} {first : Except Error Value}
    {next : Value → Except Error Result} {result : Result} :
    first >>= next = .ok result ↔ ∃ value, first = .ok value ∧ next value = .ok result := by
  cases first with
  | error error => simp [bind, Except.bind]
  | ok value => simp [bind, Except.bind]

theorem map_eq_ok {Error Value Result : Type} {change : Value → Result}
    {inner : Except Error Value} {result : Result} :
    change <$> inner = .ok result ↔ ∃ value, inner = .ok value ∧ change value = result := by
  cases inner with
  | error error => simp [Functor.map, Except.map]
  | ok value => simp [Functor.map, Except.map]

/-- A computation that returns a value or stops with a fault, and the state it
has reached in either case. -/
def Effect (Fault State Value : Type) : Type := State → Except Fault Value × State

namespace Effect

variable {Fault State Part Value Result : Type}

instance : Monad (Effect Fault State) where
  pure value := fun state => (.ok value, state)
  bind first next := fun state =>
    match first state with
    | (.ok value, mid) => next value mid
    | (.error fault, mid) => (.error fault, mid)

/-- Stop with a fault in the present state. -/
def fail (fault : Fault) : Effect Fault State Value := fun state => (.error fault, state)

/-- Observe the present state. -/
def read : Effect Fault State State := fun state => (.ok state, state)

/-- Change the present state. -/
def modify (change : State → State) : Effect Fault State Unit := fun state => (.ok (), change state)

/-- Take a value that may be missing, stopping with `fault` when it is. -/
def expect (fault : Fault) : Option Value → Effect Fault State Value
  | some value => pure value
  | none => fail fault

/-- Carry on with a result that may already be a fault. -/
def ofExcept : Except Fault Value → Effect Fault State Value
  | .ok value => pure value
  | .error fault => fail fault

/-- Run a computation on one part of a larger state. -/
def within (part : State → Part) (store : State → Part → State)
    (inner : Effect Fault Part Value) : Effect Fault State Value := fun state =>
  ((inner (part state)).1, store state (inner (part state)).2)

/-- Change the state on the way out, whatever the exit. -/
def ensuring (change : State → State) (inner : Effect Fault State Value) :
    Effect Fault State Value := fun state => ((inner state).1, change (inner state).2)

/-- Replace the fault that leaves a computation. -/
def onFault (change : Fault → Fault) (inner : Effect Fault State Value) :
    Effect Fault State Value := fun state =>
  match inner state with
  | (.ok value, mid) => (.ok value, mid)
  | (.error fault, mid) => (.error (change fault), mid)

/-- The computation came back with `value` and reached `after`. -/
def Returns (computation : Effect Fault State Value) (before : State) (value : Value)
    (after : State) : Prop :=
  computation before = (.ok value, after)

variable {computation first inner : Effect Fault State Value} {before after mid : State}
  {value : Value} {result : Result} {project : Value → Result}
  {next : Value → Effect Fault State Result} {fault : Fault} {change : State → State}

/-- A computation has one outcome. -/
theorem Returns.unique {first second : State} {result : Value}
    (left : computation.Returns before value first)
    (right : computation.Returns before result second) : value = result ∧ first = second := by
  have same := left.symm.trans right
  simpa using same

/-- A computation whose outcome is a value has returned it. -/
theorem returns_of_fst (outcome : (computation before).1 = .ok value) :
    computation.Returns before value (computation before).2 :=
  Prod.ext outcome rfl

/-- The same for an outcome of which only a part is known. -/
theorem returns_of_map_fst (outcome : (computation before).1.map project = .ok result) :
    ∃ value, computation.Returns before value (computation before).2 ∧ project value = result := by
  cases found : (computation before).1 with
  | error fault => simp [found, Except.map] at outcome
  | ok value =>
    rw [found] at outcome
    exact ⟨value, returns_of_fst found, Except.ok.inj outcome⟩

/-- The same for a computation that may also return an error. -/
theorem returns_ok_of_map_fst {Error : Type} {computation : Effect Fault State (Except Error Value)}
    (outcome : (computation before).1.map (Except.map project) = .ok (.ok result)) :
    ∃ value, computation.Returns before (.ok value) (computation before).2 ∧
      project value = result := by
  obtain ⟨given, gave, projected⟩ := returns_of_map_fst outcome
  cases given with
  | error error => cases projected
  | ok value => exact ⟨value, gave, Except.ok.inj projected⟩

@[simp] theorem returns_pure {result : Value} :
    (pure value : Effect Fault State Value).Returns before result after ↔
      result = value ∧ after = before := by
  simp [Returns, pure, eq_comm]

/-- A sequence returns exactly when both halves do, in turn. -/
@[simp] theorem returns_bind :
    (first >>= next).Returns before result after ↔
      ∃ value mid, first.Returns before value mid ∧
        (next value).Returns mid result after := by
  simp only [Returns, bind]
  constructor
  · intro gave
    rcases outcome : first before with ⟨fault | value, mid⟩
    · simp [outcome] at gave
    · exact ⟨value, mid, rfl, by simpa [outcome] using gave⟩
  · rintro ⟨value, mid, outcome, gave⟩
    simpa [outcome] using gave

/-- After a first half that returned, a sequence is its second half. -/
theorem Returns.bind_eq (gave : first.Returns before value mid)
    (next : Value → Effect Fault State Result) :
    (first >>= next) before = next value mid := by
  simp only [bind, show first before = _ from gave]

section Steps

variable (next : Value → Effect Fault State Result) (state : State)

/-- Equal starts go on alike. -/
theorem bind_congr_left {first second : Effect Fault State Value} {state : State}
    (same : first state = second state) (next : Value → Effect Fault State Result) :
    (first >>= next) state = (second >>= next) state := by
  simp only [bind, same]

theorem read_bind (next : State → Effect Fault State Result) :
    (read >>= next) state = next state state := rfl

theorem modify_bind (change : State → State) (next : Unit → Effect Fault State Result) :
    (modify change >>= next) state = next () (change state) := rfl

theorem expect_bind (fault : Fault) (value : Value) :
    (expect fault (some value) >>= next) state = next value state := rfl

theorem ofExcept_bind (value : Value) : (ofExcept (.ok value) >>= next) state = next value state :=
  rfl

end Steps

/-- A first part that is known to return can be skipped. -/
theorem Returns.bind_iff {middle : State} (gave : first.Returns before value middle) :
    (first >>= next).Returns before result after ↔ (next value).Returns middle result after := by
  rw [Returns, gave.bind_eq, ← Returns]

@[simp] theorem not_returns_fail :
    ¬ (fail fault : Effect Fault State Value).Returns before value after := by
  simp [Returns, fail]

@[simp] theorem returns_read {value : State} :
    (read : Effect Fault State State).Returns before value after ↔
      value = before ∧ after = before := by
  simp [Returns, read, eq_comm]

@[simp] theorem returns_modify {value : Unit} :
    (modify change : Effect Fault State Unit).Returns before value after ↔
      after = change before := by
  simp [Returns, modify, eq_comm]

@[simp] theorem returns_expect {found : Option Value} :
    (expect fault found).Returns before value after ↔ found = some value ∧ after = before := by
  cases found <;> simp [expect, eq_comm]

@[simp] theorem returns_ofExcept {result : Except Fault Value} :
    (ofExcept result).Returns before value after ↔ result = .ok value ∧ after = before := by
  cases result <;> simp [ofExcept, eq_comm]

@[simp] theorem returns_ite {condition : Prop} [Decidable condition]
    {second : Effect Fault State Value} :
    (if condition then first else second).Returns before value after ↔
      if condition then first.Returns before value after else second.Returns before value
        after := by
  split <;> rfl

/-- Work on a part of a state returns as it does there, and the part is stored back. -/
@[simp] theorem returns_within {part : State → Part} {store : State → Part → State}
    {inner : Effect Fault Part Value} :
    (within part store inner).Returns before value after ↔
      ∃ mid, inner.Returns (part before) value mid ∧ after = store before mid := by
  simp only [Returns, within, Prod.ext_iff]
  constructor
  · rintro ⟨gave, rfl⟩
    exact ⟨_, ⟨gave, rfl⟩, rfl⟩
  · rintro ⟨mid, ⟨gave, rfl⟩, rfl⟩
    exact ⟨gave, rfl⟩

@[simp] theorem returns_ensuring :
    (ensuring change inner).Returns before value after ↔
      ∃ mid, inner.Returns before value mid ∧ after = change mid := by
  simp only [Returns, ensuring, Prod.ext_iff]
  constructor
  · rintro ⟨gave, rfl⟩
    exact ⟨_, ⟨gave, rfl⟩, rfl⟩
  · rintro ⟨mid, ⟨gave, rfl⟩, rfl⟩
    exact ⟨gave, rfl⟩

@[simp] theorem returns_onFault {change : Fault → Fault} :
    (onFault change inner).Returns before value after ↔ inner.Returns before value after := by
  simp only [Returns, onFault]
  rcases inner before with ⟨_ | _, mid⟩ <;> simp

/-- The computation stopped with a fault. -/
def Faults (computation : Effect Fault State Value) (before : State) (fault : Fault) : Prop :=
  (computation before).1 = .error fault

theorem Faults.not_returns (faults : computation.Faults before fault) :
    ¬ computation.Returns before value after := by
  intro gave
  rw [Faults, gave] at faults
  cases faults

/-- A fault of the first half is a fault of the sequence. -/
theorem Faults.bind (faults : first.Faults before fault) :
    (first >>= next).Faults before fault := by
  rw [Faults] at faults
  simp only [Faults, Bind.bind]
  rcases outcome : first before with ⟨stopped | value, mid⟩
  · simpa [outcome] using faults
  · rw [outcome] at faults
    cases faults

/-- A fault after a first half that returned is a fault of the sequence. -/
theorem Returns.bind_faults (gave : first.Returns before value mid)
    (faults : (next value).Faults mid fault) : (first >>= next).Faults before fault := by
  rw [Faults, gave.bind_eq]
  exact faults

/-- After a first half that stopped, a sequence stops there. -/
theorem bind_eq_of_error (stopped : first before = (.error fault, mid))
    (next : Value → Effect Fault State Result) :
    (first >>= next) before = (.error fault, mid) := by
  simp only [Bind.bind, stopped]

/-- The computation comes back with some value. -/
def Completes (computation : Effect Fault State Value) (before : State) : Prop :=
  ∃ value after, computation.Returns before value after

section Completes

variable {first : Effect Fault State Value} {next : Value → Effect Fault State Result}
  {before mid : State} {value : Value}

theorem Returns.completes (gave : first.Returns before value mid) :
    first.Completes before :=
  ⟨value, mid, gave⟩

theorem completes_congr {second : Effect Fault State Value} {other : State}
    (same : first before = second other) : first.Completes before ↔ second.Completes other := by
  simp only [Completes, Returns, same]

theorem completes_pure (value : Value) : (pure value : Effect Fault State Value).Completes before :=
  ⟨value, before, rfl⟩

theorem not_completes_fail (fault : Fault) :
    ¬ (fail fault : Effect Fault State Value).Completes before := by
  rintro ⟨value, after, gave⟩
  exact not_returns_fail gave

/-- After a first half that returned, what is left to complete is the second. -/
theorem Returns.completes_bind (gave : first.Returns before value mid) :
    (first >>= next).Completes before ↔ (next value).Completes mid := by
  rw [Completes, Completes]
  simp only [gave.bind_iff]

theorem not_completes_bind (stuck : ¬ first.Completes before) :
    ¬ (first >>= next).Completes before := by
  rintro ⟨result, after, gave⟩
  obtain ⟨value, mid, firstReturned, -⟩ := returns_bind.mp gave
  exact stuck firstReturned.completes

/-- A sequence whose second half always completes completes with its first. -/
theorem completes_bind (always : ∀ value mid, first.Returns before value mid →
      (next value).Completes mid) :
    (first >>= next).Completes before ↔ first.Completes before := by
  constructor
  · rintro ⟨result, after, gave⟩
    obtain ⟨value, mid, firstReturned, -⟩ := returns_bind.mp gave
    exact firstReturned.completes
  · rintro ⟨value, mid, gave⟩
    exact gave.completes_bind.mpr (always value mid gave)

theorem completes_onFault {change : Fault → Fault} :
    (onFault change first).Completes before ↔ first.Completes before := by
  simp only [Completes, returns_onFault]

theorem completes_ensuring {change : State → State} :
    (ensuring change first).Completes before ↔ first.Completes before := by
  constructor
  · rintro ⟨value, after, gave⟩
    obtain ⟨mid, inner, -⟩ := returns_ensuring.mp gave
    exact inner.completes
  · rintro ⟨value, mid, inner⟩
    exact ⟨value, change mid, returns_ensuring.mpr ⟨mid, inner, rfl⟩⟩

theorem completes_within {part : State → Part} {store : State → Part → State}
    {inner : Effect Fault Part Value} :
    (within part store inner).Completes before ↔ inner.Completes (part before) := by
  constructor
  · rintro ⟨value, after, gave⟩
    obtain ⟨mid, inside, -⟩ := returns_within.mp gave
    exact inside.completes
  · rintro ⟨value, mid, inside⟩
    exact ⟨value, store before mid, returns_within.mpr ⟨mid, inside, rfl⟩⟩

end Completes

/-- The computation stopped with a fault and had reached `after`. -/
def Stops (computation : Effect Fault State Value) (before : State) (fault : Fault)
    (after : State) : Prop :=
  computation before = (.error fault, after)

theorem Returns.not_stops (gave : computation.Returns before value after) :
    ¬ computation.Stops before fault mid := by
  intro stopped
  cases gave.symm.trans stopped

theorem not_stops_pure :
    ¬ (pure value : Effect Fault State Value).Stops before fault after :=
  Returns.not_stops (returns_pure.mpr ⟨rfl, rfl⟩)

/-- A sequence stops in its first half, or in its second half when the first returned. -/
theorem stops_bind :
    (first >>= next).Stops before fault after ↔
      first.Stops before fault after ∨ ∃ value mid, first.Returns before value mid ∧
        (next value).Stops mid fault after := by
  simp only [Stops, Returns, bind]
  constructor
  · intro stopped
    rcases outcome : first before with ⟨found | value, mid⟩
    · exact .inl (by simpa [outcome] using stopped)
    · exact .inr ⟨value, mid, rfl, by simpa [outcome] using stopped⟩
  · rintro (stopped | ⟨value, mid, gave, stopped⟩)
    · simp [stopped]
    · simpa [gave] using stopped

/-- Changing the value at the end does not change the state. -/
theorem snd_bind_pure (first : Effect Fault State Value) (change : Value → Result)
    (before : State) :
    ((first >>= fun value => pure (change value) : Effect Fault State Result) before).2 =
      (first before).2 := by
  simp only [Bind.bind, Pure.pure]
  rcases first before with ⟨_ | _, mid⟩ <;> rfl

/-- Whatever the exit, the state reached is related to the state before. -/
def Keeps (rel : State → State → Prop) (computation : Effect Fault State Value) : Prop :=
  ∀ before, rel before (computation before).2

section Keeps

variable {rel : State → State → Prop}

variable {computation first second : Effect Fault State Value} {before : State}
  {next : Value → Effect Fault State Result} {change : Fault → Fault}

/-- A returning computation relates its two states. -/
theorem Keeps.of_returns (keeps : computation.Keeps rel) {after : State} {value : Value}
    (gave : computation.Returns before value after) : rel before after := by
  have related := keeps before
  rw [gave] at related
  exact related

/-- So does one that stopped. -/
theorem Keeps.of_stops (keeps : computation.Keeps rel) {after : State} {fault : Fault}
    (stopped : computation.Stops before fault after) : rel before after := by
  have related := keeps before
  rw [stopped] at related
  exact related

theorem keeps_pure [Std.Refl rel] (value : Value) :
    (pure value : Effect Fault State Value).Keeps rel :=
  fun before => Std.Refl.refl before

theorem keeps_fail [Std.Refl rel] (fault : Fault) :
    (fail fault : Effect Fault State Value).Keeps rel :=
  fun before => Std.Refl.refl before

theorem keeps_read [Std.Refl rel] : (read : Effect Fault State State).Keeps rel :=
  fun before => Std.Refl.refl before

/-- A change keeps a relation that every state has with its change. -/
theorem keeps_modify {change : State → State} (related : ∀ state, rel state (change state)) :
    (modify change : Effect Fault State Unit).Keeps rel :=
  related

theorem keeps_expect [Std.Refl rel] (fault : Fault) (found : Option Value) :
    (expect fault found : Effect Fault State Value).Keeps rel := by
  cases found with
  | none => exact keeps_fail fault
  | some value => exact keeps_pure value

theorem keeps_ofExcept [Std.Refl rel] (result : Except Fault Value) :
    (ofExcept result : Effect Fault State Value).Keeps rel := by
  cases result with
  | error fault => exact keeps_fail fault
  | ok value => exact keeps_pure value

/-- A preorder kept by both halves is kept by their sequence, whichever half
the fault comes from. -/
theorem keeps_bind [IsTrans State rel] (firstKeeps : first.Keeps rel)
    (nextKeeps : ∀ value, (next value).Keeps rel) : (first >>= next).Keeps rel := by
  intro before
  have toMiddle := firstKeeps before
  simp only [bind]
  rcases outcome : first before with ⟨fault | value, mid⟩
  · simpa only [outcome] using toMiddle
  · rw [outcome] at toMiddle
    exact IsTrans.trans _ _ _ toMiddle (nextKeeps value mid)

/-- The pointwise rule, for steps that are right only in the states they are reached in. -/
theorem related_bind (stopped : rel before (first before).2)
    (continued : ∀ value mid, first.Returns before value mid → rel before (next value mid).2) :
    rel before ((first >>= next) before).2 := by
  simp only [bind]
  rcases outcome : first before with ⟨fault | value, mid⟩
  · simpa only [outcome] using stopped
  · exact continued value mid outcome

theorem onFault_congr (same : first before = second before) :
    onFault change first before = onFault change second before := by
  rw [onFault, onFault, same]

theorem snd_onFault (change : Fault → Fault) (inner : Effect Fault State Value) (before : State) :
    (onFault change inner before).2 = (inner before).2 := by
  simp only [onFault]
  rcases inner before with ⟨_ | _, mid⟩ <;> rfl

theorem keeps_onFault {inner : Effect Fault State Value} (keeps : inner.Keeps rel) :
    (onFault change inner).Keeps rel := by
  intro before
  rw [snd_onFault]
  exact keeps before

theorem keeps_ite {condition : Prop} [Decidable condition] (firstKeeps : first.Keeps rel)
    (secondKeeps : second.Keeps rel) :
    (if condition then first else second).Keeps rel := by
  split
  · exact firstKeeps
  · exact secondKeeps

/-- A routine on a part keeps what its effect on the part amounts to on the whole. -/
theorem keeps_within {part : State → Part} {store : State → Part → State}
    {inner : Effect Fault Part Value} {partRelation : Part → Part → Prop}
    (innerKeeps : inner.Keeps partRelation)
    (lifts : ∀ state mid, partRelation (part state) mid → rel state (store state mid)) :
    (within part store inner).Keeps rel :=
  fun before => lifts before _ (innerKeeps (part before))

/-- A smaller relation that is kept gives every larger one. -/
theorem Keeps.mono {larger : State → State → Prop} (keeps : computation.Keeps rel)
    (weaker : ∀ before after, rel before after → larger before after) :
    computation.Keeps larger :=
  fun before => weaker _ _ (keeps before)

end Keeps

/-- Keeping an invariant, as a preorder: if it held before, it holds after. -/
def Preserving (invariant : State → Prop) (before after : State) : Prop :=
  invariant before → invariant after

instance (invariant : State → Prop) : Std.Refl (Preserving invariant) := ⟨fun _ holds => holds⟩

instance (invariant : State → Prop) : IsTrans State (Preserving invariant) :=
  ⟨fun _ _ _ first second holds => second (first holds)⟩

end Effect

end Respublica.Foundation
