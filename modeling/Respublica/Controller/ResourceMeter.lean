import Respublica.Program.SystemInterface

/-!
# Resource metering

A meter holds what is left of three resources in a block. While a session is open, every
use is also paid for from the session at the resource's cost; without one it is booked as
system use. The three `use_*` routines of the source differ in the fields they touch, in
their limit error and, for compute, in the comparison with what is left.
-/

namespace Respublica.Controller

open Foundation Effect Program StateDb

/-- One amount per resource. -/
structure ResourceState where
  diskStorage : UInt64
  networkBandwidth : UInt64
  computeBandwidth : UInt64
deriving DecidableEq

/-- Resources compare field by field. -/
instance : LE ResourceState where
  le left right := left.diskStorage ≤ right.diskStorage ∧
    left.networkBandwidth ≤ right.networkBandwidth ∧
    left.computeBandwidth ≤ right.computeBandwidth

theorem ResourceState.le_refl (state : ResourceState) : state ≤ state :=
  ⟨UInt64.le_refl _, UInt64.le_refl _, UInt64.le_refl _⟩

theorem ResourceState.le_trans {first second third : ResourceState} (left : first ≤ second)
    (right : second ≤ third) : first ≤ third :=
  ⟨UInt64.le_trans left.1 right.1, UInt64.le_trans left.2.1 right.2.1,
    UInt64.le_trans left.2.2 right.2.2⟩

/-- What resources are worth at the given costs. -/
def ResourceState.worth (state cost : ResourceState) : Nat :=
  state.diskStorage.toNat * cost.diskStorage.toNat +
    state.networkBandwidth.toNat * cost.networkBandwidth.toNat +
    state.computeBandwidth.toNat * cost.computeBandwidth.toNat

/-- An amount taken from what is there is worth what is missing afterwards. -/
theorem ResourceState.sub_mul_add {amount available : UInt64} (enough : amount ≤ available)
    (cost : UInt64) : (available - amount).toNat * cost.toNat + amount.toNat * cost.toNat =
      available.toNat * cost.toNat := by
  have bound := UInt64.le_iff_toNat_le.mp enough
  rw [← Nat.add_mul, UInt64.toNat_sub_of_le _ _ enough, Nat.sub_add_cancel bound]

/-- `state::resource_limits`: a limit and a cost per resource. -/
structure ResourceLimits where
  limit : ResourceState
  cost : ResourceState
deriving DecidableEq

/-- What a transaction may still spend. -/
structure Session where
  initialResources : UInt64
  remainingResources : UInt64
deriving DecidableEq

namespace Session

def create (resources : UInt64) : Session := ⟨resources, resources⟩

def usedResources (session : Session) : UInt64 :=
  session.initialResources - session.remainingResources

/-- Spend from a session, or say that it does not have enough. -/
def useResources (session : Session) (resources : UInt64) : Result Session :=
  if session.remainingResources < resources then .error (.controller .insufficientResources)
  else .ok { session with remainingResources := session.remainingResources - resources }

end Session

/-- The meter. An expired session is `none`. -/
structure Meter where
  remaining : ResourceState
  systemUse : ResourceState
  limits : ResourceLimits
  session : Option Session
deriving DecidableEq

namespace Meter

/-- Start metering against new limits; an open session stays open. -/
def setResourceLimits (meter : Meter) (limits : ResourceLimits) : Meter :=
  { meter with remaining := limits.limit, systemUse := ⟨0, 0, 0⟩, limits := limits }

/-- A new meter, with the largest limits and no costs. -/
def create : Meter :=
  setResourceLimits ⟨⟨0, 0, 0⟩, ⟨0, 0, 0⟩, ⟨⟨0, 0, 0⟩, ⟨0, 0, 0⟩⟩, none⟩
    ⟨⟨maxWord, maxWord, maxWord⟩, ⟨0, 0, 0⟩⟩

/-- How one resource is metered: its field, its limit error, and when an amount is too
much for what remains. An amount that is not too much is there. -/
structure Metered where
  read : ResourceState → UInt64
  write : ResourceState → UInt64 → ResourceState
  limitExceeded : ControllerErrc
  tooMuch : (amount remaining : UInt64) → Bool
  read_le : ∀ lower upper : ResourceState, lower ≤ upper → read lower ≤ read upper
  write_le : ∀ state amount, amount ≤ read state → write state amount ≤ state
  le_of_not_tooMuch : ∀ amount remaining, tooMuch amount remaining = false → amount ≤ remaining
  leaves_disk : ∀ state amount, tooMuch amount (read state) = false → 0 < state.diskStorage →
    0 < (write state (read state - amount)).diskStorage
  worth_write : ∀ cost state amount, amount ≤ read state →
    (write state (read state - amount)).worth cost + amount.toNat * (read cost).toNat =
      state.worth cost

/-- Pay for an amount from the session, or book it as system use. -/
def charge (metered : Metered) (amount : UInt64) : Effect Fault Meter (Result Unit) := do
  let meter ← Effect.read
  match meter.session with
  | none => do
      Effect.modify fun meter => { meter with
        systemUse := metered.write meter.systemUse (metered.read meter.systemUse + amount) }
      pure (.ok ())
  | some session =>
    if metered.read meter.limits.cost = 0 then Effect.fail .assertion
    else if maxWord / metered.read meter.limits.cost < amount then
      Effect.fail (.exception "rc overflow")
    else
      match session.useResources (amount * metered.read meter.limits.cost) with
      | .error error => pure (.error error)
      | .ok spent => do
          Effect.modify fun meter => { meter with session := some spent }
          pure (.ok ())

/-- Use an amount of one resource. -/
def use (metered : Metered) (amount : UInt64) : Effect Fault Meter ErrorCode := do
  let meter ← Effect.read
  if metered.tooMuch amount (metered.read meter.remaining) then
    pure (.controller metered.limitExceeded)
  else do
    match ← charge metered amount with
    | .error error => pure error
    | .ok () => do
        Effect.modify fun meter => { meter with
          remaining := metered.write meter.remaining (metered.read meter.remaining - amount) }
        pure (.controller .ok)

variable {amount ticks : UInt64} {meter before after : Meter} {session : Session}
  {metered : Metered} {code : ErrorCode}

/-- Less than what there is leaves something. -/
theorem sub_pos_of_lt {remaining : UInt64} (less : amount < remaining) :
    0 < remaining - amount := by
  have bounds := UInt64.lt_iff_toNat_lt.mp less
  rw [UInt64.lt_iff_toNat_lt, UInt64.toNat_sub_of_le _ _ (UInt64.le_of_lt less)]
  change 0 < remaining.toNat - amount.toNat
  omega

/-- Disk storage; using all that remains is already too much, so some always remains. -/
def diskStorage : Metered where
  read := ResourceState.diskStorage
  write state amount := { state with diskStorage := amount }
  limitExceeded := .diskStorageLimitExceeded
  tooMuch amount remaining := decide (remaining ≤ amount)
  read_le _ _ below := below.1
  write_le _ _ less := ⟨less, UInt64.le_refl _, UInt64.le_refl _⟩
  le_of_not_tooMuch _ _ enough := UInt64.le_of_lt (UInt64.not_le.mp (of_decide_eq_false enough))
  leaves_disk _ _ enough _ := sub_pos_of_lt (UInt64.not_le.mp (of_decide_eq_false enough))
  worth_write cost _ _ enough := by
    have taken := ResourceState.sub_mul_add enough cost.diskStorage
    simp only [ResourceState.worth]
    omega

/-- Network bandwidth; using all that remains is already too much. -/
def networkBandwidth : Metered where
  read := ResourceState.networkBandwidth
  write state amount := { state with networkBandwidth := amount }
  limitExceeded := .networkBandwidthLimitExceeded
  tooMuch amount remaining := decide (remaining ≤ amount)
  read_le _ _ below := below.2.1
  write_le _ _ less := ⟨UInt64.le_refl _, less, UInt64.le_refl _⟩
  le_of_not_tooMuch _ _ enough := UInt64.le_of_lt (UInt64.not_le.mp (of_decide_eq_false enough))
  leaves_disk _ _ _ some := some
  worth_write cost _ _ enough := by
    have taken := ResourceState.sub_mul_add enough cost.networkBandwidth
    simp only [ResourceState.worth]
    omega

/-- Compute bandwidth; all that remains can be used. -/
def computeBandwidth : Metered where
  read := ResourceState.computeBandwidth
  write state amount := { state with computeBandwidth := amount }
  limitExceeded := .computeBandwidthLimitExceeded
  tooMuch amount remaining := decide (remaining < amount)
  read_le _ _ below := below.2.2
  write_le _ _ less := ⟨UInt64.le_refl _, UInt64.le_refl _, less⟩
  le_of_not_tooMuch _ _ enough := UInt64.not_lt.mp (of_decide_eq_false enough)
  leaves_disk _ _ _ some := some
  worth_write cost _ _ enough := by
    have taken := ResourceState.sub_mul_add enough cost.computeBandwidth
    simp only [ResourceState.worth]
    omega

def useDiskStorage (bytes : UInt64) : Effect Fault Meter ErrorCode := use diskStorage bytes

def useNetworkBandwidth (bytes : UInt64) : Effect Fault Meter ErrorCode :=
  use networkBandwidth bytes

def useComputeBandwidth (ticks : UInt64) : Effect Fault Meter ErrorCode :=
  use computeBandwidth ticks

/-- What remains of a resource, counting what the session can still pay for. A cost of
zero would be divided by. -/
def remainingOf (metered : Metered) (meter : Meter) : UInt64 :=
  match meter.session with
  | none => metered.read meter.remaining
  | some session =>
    min (metered.read meter.remaining)
      (session.remainingResources / metered.read meter.limits.cost)

def remainingDiskStorage : Meter → UInt64 := remainingOf diskStorage

def remainingNetworkBandwidth : Meter → UInt64 := remainingOf networkBandwidth

def remainingComputeBandwidth : Meter → UInt64 := remainingOf computeBandwidth

/-- What any use of a meter keeps: resources only go down, disk storage not to zero, limits and
the presence of a session stay, and a session pays exactly for what is used. -/
structure Spent (before after : Meter) : Prop where
  remaining : after.remaining ≤ before.remaining
  diskStorage : 0 < before.remaining.diskStorage → 0 < after.remaining.diskStorage
  limits : after.limits = before.limits
  session : after.session.isSome = before.session.isSome
  paid : ∀ session, before.session = some session → ∃ left, after.session = some left ∧
    left.initialResources = session.initialResources ∧
    left.remainingResources.toNat + before.remaining.worth before.limits.cost =
      session.remainingResources.toNat + after.remaining.worth before.limits.cost

instance : Std.Refl Spent :=
  ⟨fun _ => ⟨ResourceState.le_refl _, fun some => some, rfl, rfl, fun session held =>
    ⟨session, held, rfl, rfl⟩⟩⟩

instance : IsTrans Meter Spent where
  trans first second third earlier later := by
    refine ⟨ResourceState.le_trans later.remaining earlier.remaining,
      fun some => later.diskStorage (earlier.diskStorage some), later.limits.trans earlier.limits,
      later.session.trans earlier.session, fun session held => ?_⟩
    obtain ⟨between, betweenHeld, betweenInitial, betweenPaid⟩ := earlier.paid session held
    obtain ⟨left, leftHeld, leftInitial, leftPaid⟩ := later.paid between betweenHeld
    rw [earlier.limits] at leftPaid
    exact ⟨left, leftHeld, leftInitial.trans betweenInitial, by omega⟩

/-- A price that passes the overflow check is the product of the numbers. -/
theorem toNat_price {cost : UInt64} (fits : ¬ maxWord / cost < amount) (costs : cost ≠ 0) :
    (amount * cost).toNat = amount.toNat * cost.toNat := by
  have positive : 0 < cost.toNat := UInt64.pos_iff_ne_zero.mpr costs
  have bound := UInt64.le_iff_toNat_le.mp (UInt64.not_lt.mp fits)
  rw [UInt64.toNat_div, Nat.le_div_iff_mul_le positive, toNat_maxWord] at bound
  rw [UInt64.toNat_mul, Nat.mod_eq_of_lt (by omega)]

/-- Without a session a use is only held against what remains. -/
theorem use_unpaid (metered : Metered) (unpaid : meter.session = none) (amount : UInt64) :
    use metered amount meter =
      if metered.tooMuch amount (metered.read meter.remaining) then
        (.ok (.controller metered.limitExceeded), meter)
      else (.ok (.controller .ok), { meter with
        systemUse := metered.write meter.systemUse (metered.read meter.systemUse + amount)
        remaining := metered.write meter.remaining (metered.read meter.remaining - amount) }) := by
  have charged : (charge metered amount).Returns meter (.ok ()) { meter with
      systemUse := metered.write meter.systemUse (metered.read meter.systemUse + amount) } := by
    obtain ⟨remaining, systemUse, limits, session⟩ := meter
    obtain rfl : session = none := unpaid
    rfl
  rw [use, read_bind]
  split
  · rfl
  · rw [Effect.Returns.bind_eq charged]
    rfl

/-- With a session a charge has a price, and the session has to have that much. -/
theorem charge_paying (metered : Metered) (held : meter.session = some session) (amount : UInt64) :
    charge metered amount meter =
      if metered.read meter.limits.cost = 0 then (.error .assertion, meter)
      else if maxWord / metered.read meter.limits.cost < amount then
        (.error (.exception "rc overflow"), meter)
      else if session.remainingResources < amount * metered.read meter.limits.cost then
        (.ok (.error (.controller .insufficientResources)), meter)
      else (.ok (.ok ()), { meter with session := some { session with
        remainingResources :=
          session.remainingResources - amount * metered.read meter.limits.cost } }) := by
  obtain ⟨remaining, systemUse, limits, _⟩ := meter
  obtain rfl := held
  rw [charge, read_bind]
  simp only [Session.useResources]
  split
  · rfl
  split
  · rfl
  split
  · rfl
  · rfl

/-- What a use that goes well does: the amount was there, it is gone from what remains, and an
open session has paid its price. -/
structure Used (metered : Metered) (amount : UInt64) (before after : Meter) : Prop where
  available : metered.tooMuch amount (metered.read before.remaining) = false
  remaining : after.remaining =
    metered.write before.remaining (metered.read before.remaining - amount)
  limits : after.limits = before.limits
  session : after.session.isSome = before.session.isSome
  paid : ∀ session, before.session = some session → 0 < (metered.read before.limits.cost).toNat ∧
    ∃ left, after.session = some left ∧ left.initialResources = session.initialResources ∧
      left.remainingResources.toNat + amount.toNat * (metered.read before.limits.cost).toNat =
        session.remainingResources.toNat

/-- Why a use is refused: there is not so much, or the session cannot pay for it. -/
inductive Refused (metered : Metered) (amount : UInt64) (meter : Meter) : ErrorCode → Prop where
  | limit : metered.tooMuch amount (metered.read meter.remaining) = true →
      Refused metered amount meter (.controller metered.limitExceeded)
  | session {session : Session} : meter.session = some session →
      session.remainingResources.toNat < amount.toNat * (metered.read meter.limits.cost).toNat →
        Refused metered amount meter (.controller .insufficientResources)

/-- An open session cannot price an amount that is there. -/
structure Unpriced (metered : Metered) (amount : UInt64) (meter : Meter) : Prop where
  available : metered.tooMuch amount (metered.read meter.remaining) = false
  session : meter.session.isSome
  price : metered.read meter.limits.cost = 0 ∨ maxWord / metered.read meter.limits.cost < amount

/-- A use goes well, or it leaves the meter as it is: it is refused with a code, or stopped by a
fault. -/
theorem use_outcome (metered : Metered) (amount : UInt64) (meter : Meter) :
    (∃ after, use metered amount meter = (.ok (.controller .ok), after) ∧
        Used metered amount meter after) ∨
      (∃ code, use metered amount meter = (.ok code, meter) ∧ Refused metered amount meter code) ∨
      ∃ fault, use metered amount meter = (.error fault, meter) ∧
        Unpriced metered amount meter := by
  cases held : meter.session with
  | none =>
    rw [use_unpaid metered held]
    split
    · rename_i tooMuch
      exact .inr (.inl ⟨_, rfl, .limit tooMuch⟩)
    · rename_i enough
      refine .inl ⟨_, rfl, by simpa using enough, rfl, rfl, rfl, fun session some => ?_⟩
      rw [held] at some
      cases some
  | some session =>
    have charged := charge_paying metered held amount
    have isOpen : meter.session.isSome := by rw [held]; rfl
    rw [use, read_bind]
    split
    · rename_i tooMuch
      exact .inr (.inl ⟨_, rfl, .limit tooMuch⟩)
    rename_i enough
    rw [Bool.not_eq_true] at enough
    split at charged
    · rename_i costless
      exact .inr (.inr ⟨_, bind_eq_of_error charged _, enough, isOpen, .inl costless⟩)
    rename_i costs
    split at charged
    · rename_i overflows
      exact .inr (.inr ⟨_, bind_eq_of_error charged _, enough, isOpen, .inr overflows⟩)
    rename_i fits
    split at charged
    · rename_i poor
      have short := UInt64.lt_iff_toNat_lt.mp poor
      rw [toNat_price fits costs] at short
      exact .inr (.inl ⟨_, Effect.Returns.bind_eq charged _, .session held short⟩)
    · rename_i rich
      have affordable := UInt64.not_lt.mp rich
      have bound := UInt64.le_iff_toNat_le.mp affordable
      rw [toNat_price fits costs] at bound
      refine .inl ⟨_, Effect.Returns.bind_eq charged _, enough, rfl, rfl, isOpen.symm,
        fun other same => ?_⟩
      obtain rfl : session = other := Option.some.inj (held.symm.trans same)
      refine ⟨UInt64.pos_iff_ne_zero.mpr costs, _, rfl, rfl, ?_⟩
      rw [UInt64.toNat_sub_of_le _ _ affordable, toNat_price fits costs]
      omega

theorem Used.spent (used : Used metered amount before after) : Spent before after := by
  have available := metered.le_of_not_tooMuch _ _ used.available
  refine ⟨used.remaining ▸ metered.write_le _ _ (UInt64.sub_le available),
    used.remaining ▸ metered.leaves_disk _ _ used.available, used.limits, used.session,
    fun session held => ?_⟩
  obtain ⟨-, left, leftHeld, initial, paid⟩ := used.paid session held
  have worth := metered.worth_write before.limits.cost before.remaining amount available
  exact ⟨left, leftHeld, initial, by rw [used.remaining]; omega⟩

/-- Use of a resource only spends, on every exit. -/
theorem use_spends (metered : Metered) (amount : UInt64) : (use metered amount).Keeps Spent := by
  intro meter
  obtain ⟨after, well, used⟩ | ⟨code, refused, -⟩ | ⟨fault, threw, -⟩ :=
    use_outcome metered amount meter
  · rw [well]
    exact used.spent
  · rw [refused]
    exact Std.Refl.refl meter
  · rw [threw]
    exact Std.Refl.refl meter

/-- What uses of the other resources keep: no disk storage is used either. -/
structure SparesStorage (before after : Meter) : Prop where
  spent : Spent before after
  diskStorage : after.remaining.diskStorage = before.remaining.diskStorage

/-- Use of any other resource spares the disk storage. -/
theorem use_spares (amount : UInt64)
    (elsewhere : ∀ state left, (metered.write state left).diskStorage = state.diskStorage) :
    (use metered amount).Keeps SparesStorage := by
  intro meter
  refine ⟨use_spends metered amount meter, ?_⟩
  obtain ⟨after, well, used⟩ | ⟨code, refused, -⟩ | ⟨fault, threw, -⟩ :=
    use_outcome metered amount meter
  · rw [well, used.remaining]
    exact elsewhere _ _
  · rw [refused]
  · rw [threw]

theorem useComputeBandwidth_spares (ticks : UInt64) :
    (useComputeBandwidth ticks).Keeps SparesStorage :=
  use_spares ticks fun _ _ => rfl

theorem useNetworkBandwidth_spares (bytes : UInt64) :
    (useNetworkBandwidth bytes).Keeps SparesStorage :=
  use_spares bytes fun _ _ => rfl

/-- What is known of a use that returned. -/
theorem outcome_of_use (gave : (use metered amount).Returns meter code after) :
    (code = .controller .ok ∧ Used metered amount meter after) ∨
      (after = meter ∧ Refused metered amount meter code) := by
  obtain ⟨mid, well, used⟩ | ⟨given, refused, reason⟩ | ⟨fault, threw, -⟩ :=
    use_outcome metered amount meter
  · obtain ⟨rfl, rfl⟩ := gave.unique well
    exact .inl ⟨rfl, used⟩
  · obtain ⟨rfl, rfl⟩ := gave.unique refused
    exact .inr ⟨rfl, reason⟩
  · cases gave.symm.trans threw

/-- A use that is refused leaves the meter and its session as they are. -/
theorem use_refused (gave : (use metered amount).Returns meter code after)
    (failed : code.failed = true) :
    after = meter := by
  obtain ⟨rfl, -⟩ | ⟨same, -⟩ := outcome_of_use gave
  · exact absurd failed (by decide)
  · exact same

/-- An open session can price whatever remains of a resource. -/
def Priced (metered : Metered) (meter : Meter) : Prop :=
  meter.session.isSome → metered.read meter.limits.cost ≠ 0 ∧
    metered.read meter.remaining ≤ maxWord / metered.read meter.limits.cost

/-- Using a resource that can be priced returns, with or without an error code. -/
theorem use_returns (priced : Priced metered meter) (amount : UInt64) :
    ∃ code after, (use metered amount).Returns meter code after := by
  obtain ⟨after, well, -⟩ | ⟨code, refused, -⟩ | ⟨fault, -, unpriced⟩ :=
    use_outcome metered amount meter
  · exact ⟨_, after, well⟩
  · exact ⟨code, meter, refused⟩
  · obtain ⟨costs, fits⟩ := priced unpriced.session
    have available := metered.le_of_not_tooMuch _ _ unpriced.available
    rcases unpriced.price with costless | overflows
    · exact absurd costless costs
    · exact absurd overflows (UInt64.not_lt.mpr (UInt64.le_trans available fits))

/-- The price of a single tick never overflows. -/
theorem Unpriced.costless (unpriced : Unpriced computeBandwidth 1 meter) :
    meter.limits.cost.computeBandwidth = 0 := by
  rcases unpriced.price with costless | overflows
  · exact costless
  · by_contra costs
    have positive : 0 < meter.limits.cost.computeBandwidth.toNat := UInt64.pos_iff_ne_zero.mpr costs
    have bounded := meter.limits.cost.computeBandwidth.toNat_lt
    have short := UInt64.lt_iff_toNat_lt.mp overflows
    rw [UInt64.toNat_div, toNat_maxWord, UInt64.toNat_one] at short
    have fits : 1 ≤ 18446744073709551615 / meter.limits.cost.computeBandwidth.toNat :=
      (Nat.le_div_iff_mul_le positive).mpr (by omega)
    exact Nat.not_lt.mpr fits short

/-- A tick that has a price is taken or refused. -/
theorem useTick_returns (costs : meter.session.isSome → meter.limits.cost.computeBandwidth ≠ 0) :
    ∃ code after, (useComputeBandwidth 1).Returns meter code after := by
  obtain ⟨after, well, -⟩ | ⟨code, refused, -⟩ | ⟨fault, -, unpriced⟩ :=
    use_outcome computeBandwidth 1 meter
  · exact ⟨_, after, well⟩
  · exact ⟨code, meter, refused⟩
  · exact absurd unpriced.costless (costs unpriced.session)

/-- An amount that is there and that an open session can pay for is used. -/
theorem use_paid (metered : Metered) (amount : UInt64) {price : Nat}
    (held : meter.session = some session) (costs : (metered.read meter.limits.cost).toNat = price)
    (positive : 0 < price) (enough : metered.tooMuch amount (metered.read meter.remaining) = false)
    (paid : amount.toNat * price ≤ session.remainingResources.toNat) :
    ∃ left after, (use metered amount).Returns meter (.controller .ok) after ∧
      after.session = some left ∧ after.limits = meter.limits ∧
      left.remainingResources.toNat = session.remainingResources.toNat - amount.toNat * price ∧
      after.remaining =
        metered.write meter.remaining (metered.read meter.remaining - amount) := by
  obtain ⟨after, well, used⟩ | ⟨code, -, refused⟩ | ⟨fault, -, unpriced⟩ :=
    use_outcome metered amount meter
  · obtain ⟨-, left, leftHeld, -, exact_⟩ := used.paid session held
    rw [costs] at exact_
    exact ⟨left, after, well, leftHeld, used.limits, by omega, used.remaining⟩
  · cases refused with
    | limit tooMuch => cases enough.symm.trans tooMuch
    | session same poor =>
      obtain rfl := Option.some.inj (held.symm.trans same)
      rw [costs] at poor
      omega
  · have bounded := session.remainingResources.toNat_lt
    rcases unpriced.price with costless | overflows
    · rw [costless] at costs
      exact absurd costs (Nat.ne_of_lt positive)
    · have short := UInt64.lt_iff_toNat_lt.mp overflows
      rw [UInt64.toNat_div, costs, Nat.div_lt_iff_lt_mul positive, toNat_maxWord] at short
      omega

/-- Storage that was used was there, and more than that. -/
theorem lt_of_useDiskStorage {bytes : UInt64}
    (gave : (useDiskStorage bytes).Returns meter code after) (well : code.failed = false) :
    bytes < meter.remaining.diskStorage := by
  obtain ⟨-, used⟩ | ⟨-, refused⟩ := outcome_of_use gave
  · exact UInt64.not_le.mp (of_decide_eq_false used.available)
  · cases refused <;> cases well

/-- No session is open, or it can pay for an amount. -/
def Affordable (metered : Metered) (amount : UInt64) (meter : Meter) : Prop :=
  ∀ session ∈ meter.session,
    amount.toNat * (metered.read meter.limits.cost).toNat ≤ session.remainingResources.toNat

instance (metered : Metered) (amount : UInt64) (meter : Meter) :
    Decidable (Affordable metered amount meter) :=
  inferInstanceAs (Decidable (∀ session ∈ meter.session, _ ≤ _))

theorem affordable_of_unpaid (unpaid : meter.session = none) (metered : Metered) (amount : UInt64) :
    Affordable metered amount meter := by
  intro session held
  rw [unpaid] at held
  cases held

/-- With a session, what its resources cover is affordable. -/
theorem affordable_iff (held : meter.session = some session) (metered : Metered) (amount : UInt64) :
    Affordable metered amount meter ↔
      amount.toNat * (metered.read meter.limits.cost).toNat ≤ session.remainingResources.toNat := by
  rw [Affordable, held]
  simp

theorem Used.affordable (used : Used metered amount before after) :
    Affordable metered amount before := by
  intro session held
  obtain ⟨-, left, -, -, paid⟩ := used.paid session held
  omega

/-- A session is charged at a positive price only. -/
theorem Used.costs (used : Used metered amount before after) (present : before.session.isSome) :
    0 < metered.read before.limits.cost := by
  obtain ⟨session, held⟩ := Option.isSome_iff_exists.mp present
  exact UInt64.lt_iff_toNat_lt.mpr (used.paid session held).1

/-- A refusal is reported. -/
theorem Refused.ne_ok (refused : Refused metered amount meter code)
    (reported : metered.limitExceeded ≠ .ok) :
    code ≠ .controller .ok := by
  cases refused with
  | limit => exact fun same => reported (ErrorCode.controller.inj same)
  | session => decide

theorem remainingOf_le (metered : Metered) (meter : Meter) :
    remainingOf metered meter ≤ metered.read meter.remaining := by
  rw [remainingOf, UInt64.le_iff_toNat_le]
  split
  · exact Nat.le_refl _
  · rw [UInt64.toNat_min]
    exact Nat.min_le_left _ _

/-- What remains of a resource is what the block has left and the session can pay for. -/
theorem le_remainingOf_iff (costs : meter.session.isSome → 0 < metered.read meter.limits.cost)
    (amount : UInt64) :
    amount ≤ remainingOf metered meter ↔
      amount ≤ metered.read meter.remaining ∧ Affordable metered amount meter := by
  cases held : meter.session with
  | none =>
    rw [remainingOf, held]
    exact ⟨fun enough => ⟨enough, affordable_of_unpaid held metered amount⟩, And.left⟩
  | some session =>
    have positive := UInt64.lt_iff_toNat_lt.mp (costs (by rw [held]; rfl))
    rw [remainingOf, held, affordable_iff held]
    simp only [UInt64.le_iff_toNat_le, UInt64.toNat_min, UInt64.toNat_div]
    rw [Nat.le_min, Nat.le_div_iff_mul_le positive]

/-- A use goes well exactly when the amount is not too much for the block and the session can
pay for it. -/
theorem use_ok_iff (costs : meter.session.isSome → 0 < metered.read meter.limits.cost)
    (reported : metered.limitExceeded ≠ .ok) (amount : UInt64) :
    (∃ after, (use metered amount).Returns meter (.controller .ok) after) ↔
      metered.tooMuch amount (metered.read meter.remaining) = false ∧
        Affordable metered amount meter := by
  constructor
  · rintro ⟨after, gave⟩
    obtain ⟨-, used⟩ | ⟨-, refused⟩ := outcome_of_use gave
    · exact ⟨used.available, used.affordable⟩
    · exact absurd rfl (refused.ne_ok reported)
  · rintro ⟨enough, affordable⟩
    cases held : meter.session with
    | none =>
      have outcome := use_unpaid metered held amount
      rw [enough] at outcome
      exact ⟨_, outcome⟩
    | some session =>
      obtain ⟨-, after, well, -⟩ := use_paid metered amount held rfl
        (UInt64.lt_iff_toNat_lt.mp (costs (by rw [held]; rfl))) enough (affordable session held)
      exact ⟨after, well⟩

/-- Compute that is refused does not remain. -/
theorem Refused.remainingCompute_lt (refused : Refused computeBandwidth ticks meter code) :
    remainingComputeBandwidth meter < ticks ∧ code.failed = true := by
  cases refused with
  | limit tooMuch =>
    have short : meter.remaining.computeBandwidth < ticks := of_decide_eq_true tooMuch
    exact ⟨UInt64.lt_of_le_of_lt (remainingOf_le computeBandwidth meter) short, rfl⟩
  | session held poor =>
    have costs : 0 < computeBandwidth.read meter.limits.cost := by
      refine UInt64.pos_iff_ne_zero.mpr fun costless => ?_
      rw [costless, UInt64.toNat_zero, Nat.mul_zero] at poor
      exact absurd poor (Nat.not_lt_zero _)
    refine ⟨UInt64.not_le.mp fun remains => ?_, rfl⟩
    have affordable := ((le_remainingOf_iff (fun _ => costs) ticks).mp remains).2 _ held
    omega

/-- Compute that remains can be used and is gone afterwards; more than that is refused. -/
theorem outcome_of_useComputeBandwidth
    (gave : (useComputeBandwidth ticks).Returns meter code after) :
    (ticks ≤ remainingComputeBandwidth meter ∧ code.failed = false ∧
        after.remaining.computeBandwidth.toNat + ticks.toNat =
          meter.remaining.computeBandwidth.toNat) ∨
      (remainingComputeBandwidth meter < ticks ∧ code.failed = true ∧ after = meter) := by
  obtain ⟨rfl, used⟩ | ⟨same, refused⟩ := outcome_of_use gave
  · have available : ticks ≤ meter.remaining.computeBandwidth :=
      computeBandwidth.le_of_not_tooMuch _ _ used.available
    have bound := UInt64.le_iff_toNat_le.mp available
    have taken : after.remaining.computeBandwidth = meter.remaining.computeBandwidth - ticks :=
      congrArg ResourceState.computeBandwidth used.remaining
    refine .inl ⟨(le_remainingOf_iff used.costs ticks).mpr ⟨available, used.affordable⟩, rfl, ?_⟩
    rw [taken, UInt64.toNat_sub_of_le _ _ available]
    omega
  · exact .inr ⟨refused.remainingCompute_lt.1, refused.remainingCompute_lt.2, same⟩

/-- What a use of an amount is expected to do: it goes well exactly when the amount remains, and
then it is gone from what the block has left, and no more remains than before. -/
structure Agrees (metered : Metered) (amount : UInt64) (meter : Meter) : Prop where
  admits : (∃ after, (use metered amount).Returns meter (.controller .ok) after) ↔
    amount ≤ remainingOf metered meter
  takes : ∀ after, (use metered amount).Returns meter (.controller .ok) after →
    remainingOf metered after ≤ remainingOf metered meter ∧
      (metered.read after.remaining).toNat + amount.toNat = (metered.read meter.remaining).toNat

/-- A use leaves no more of a resource than remained before. -/
theorem Used.remainingOf_le (used : Used metered amount before after) :
    remainingOf metered after ≤ remainingOf metered before := by
  have less : metered.read after.remaining ≤ metered.read before.remaining :=
    metered.read_le _ _ used.spent.remaining
  cases held : before.session with
  | none =>
    have unpaid : after.session = none := by
      rw [← Option.not_isSome_iff_eq_none, used.session, held]
      exact Bool.false_ne_true
    simpa only [remainingOf, unpaid, held] using less
  | some session =>
    obtain ⟨positive, left, leftHeld, -, paid⟩ := used.paid session held
    simp only [remainingOf, held, leftHeld, used.limits]
    rw [UInt64.le_iff_toNat_le] at less ⊢
    simp only [UInt64.toNat_min, UInt64.toNat_div]
    exact min_le_min less (Nat.div_le_div_right (by omega))

/-- A use does what is expected unless the amount remains and the block's comparison still calls
it too much. -/
theorem agrees_iff (costs : 0 < metered.read meter.limits.cost)
    (reported : metered.limitExceeded ≠ .ok)
    (written : ∀ state left, metered.read (metered.write state left) = left) (amount : UInt64) :
    Agrees metered amount meter ↔
      (amount ≤ metered.read meter.remaining → Affordable metered amount meter →
        metered.tooMuch amount (metered.read meter.remaining) = false) := by
  have granted := use_ok_iff (fun _ => costs) reported amount
  have remains := le_remainingOf_iff (fun _ => costs) amount
  constructor
  · intro agrees enough affordable
    exact (granted.mp (agrees.admits.mpr (remains.mpr ⟨enough, affordable⟩))).1
  · intro exact_
    refine ⟨⟨fun well => ?_, fun enough => ?_⟩, fun after gave => ?_⟩
    · obtain ⟨available, affordable⟩ := granted.mp well
      exact remains.mpr ⟨metered.le_of_not_tooMuch _ _ available, affordable⟩
    · obtain ⟨available, affordable⟩ := remains.mp enough
      exact granted.mpr ⟨exact_ available affordable, affordable⟩
    · obtain ⟨-, used⟩ | ⟨-, refused⟩ := outcome_of_use gave
      · have available := metered.le_of_not_tooMuch _ _ used.available
        have bound := UInt64.le_iff_toNat_le.mp available
        refine ⟨used.remainingOf_le, ?_⟩
        rw [used.remaining, written, UInt64.toNat_sub_of_le _ _ available]
        omega
      · exact absurd rfl (refused.ne_ok reported)

/-- With positive costs, a use of compute does what is expected of it. A use of disk storage or
network bandwidth does unless it asks for exactly what the block has left and no session is open
or the open one can pay for it; that much remains, and it is refused. -/
theorem limits_agree_iff {meter : Meter} (diskCosts : 0 < meter.limits.cost.diskStorage)
    (networkCosts : 0 < meter.limits.cost.networkBandwidth)
    (computeCosts : 0 < meter.limits.cost.computeBandwidth) (amount : UInt64) :
    (Agrees diskStorage amount meter ↔ ¬ (amount = meter.remaining.diskStorage ∧
        Affordable diskStorage amount meter)) ∧
      (Agrees networkBandwidth amount meter ↔ ¬ (amount = meter.remaining.networkBandwidth ∧
        Affordable networkBandwidth amount meter)) ∧
      Agrees computeBandwidth amount meter := by
  have strict : ∀ {remaining : UInt64} {affordable : Prop},
      (amount ≤ remaining → affordable → decide (remaining ≤ amount) = false) ↔
        ¬ (amount = remaining ∧ affordable) := by
    intro remaining affordable
    rw [decide_eq_false_iff_not, UInt64.not_le]
    constructor
    · rintro less ⟨rfl, pays⟩
      exact UInt64.lt_irrefl _ (less (UInt64.le_refl _) pays)
    · intro differs enough pays
      exact UInt64.lt_of_le_of_ne enough fun same => differs ⟨same, pays⟩
  refine ⟨?_, ?_, ?_⟩
  · exact (agrees_iff diskCosts (by decide) (fun _ _ => rfl) amount).trans strict
  · exact (agrees_iff networkCosts (by decide) (fun _ _ => rfl) amount).trans strict
  · refine (agrees_iff computeCosts (by decide) (fun _ _ => rfl) amount).mpr fun enough _ => ?_
    exact decide_eq_false (UInt64.not_lt.mpr enough)

/-- A meter of five units of each resource at a cost of one, and no session. -/
def fiveLeft : Meter :=
  setResourceLimits create ⟨⟨5, 5, 5⟩, ⟨1, 1, 1⟩⟩

/-- With five left four bytes are granted and five are not, and five ticks are. -/
theorem limits_agree_of_five : Agrees diskStorage 4 fiveLeft ∧ Agrees computeBandwidth 5 fiveLeft :=
  ⟨(limits_agree_iff (by decide) (by decide) (by decide) 4).1.mpr (by decide),
    (limits_agree_iff (by decide) (by decide) (by decide) 5).2.2⟩

/-- Five bytes remain, and using five bytes is refused, on disk and on the network. -/
theorem all_that_remains_is_refused :
    remainingDiskStorage fiveLeft = 5 ∧
      (useDiskStorage 5 fiveLeft).1 = .ok (.controller .diskStorageLimitExceeded) ∧
      ¬ Agrees diskStorage 5 fiveLeft ∧
      remainingNetworkBandwidth fiveLeft = 5 ∧
      (useNetworkBandwidth 5 fiveLeft).1 = .ok (.controller .networkBandwidthLimitExceeded) ∧
      ¬ Agrees networkBandwidth 5 fiveLeft := by
  have refused : ∀ {metered : Metered}, (use metered 5 fiveLeft).1 ≠ .ok (.controller .ok) →
      remainingOf metered fiveLeft = 5 → ¬ Agrees metered 5 fiveLeft := by
    intro metered fails remains agrees
    obtain ⟨after, gave⟩ := agrees.admits.mpr (by rw [remains]; exact UInt64.le_refl _)
    exact fails (congrArg Prod.fst gave)
  exact ⟨rfl, rfl, refused (by decide +kernel) rfl, rfl, rfl, refused (by decide +kernel) rfl⟩

/-- Every resource can be priced. -/
structure Payable (meter : Meter) : Prop where
  diskStorage : Priced diskStorage meter
  networkBandwidth : Priced networkBandwidth meter
  computeBandwidth : Priced computeBandwidth meter

/-- Spending leaves prices positive. -/
theorem Priced.of_spent (priced : Priced metered before) (spent : Spent before after) :
    Priced metered after := by
  intro present
  obtain ⟨costs, fits⟩ := priced (spent.session ▸ present)
  rw [spent.limits]
  exact ⟨costs, UInt64.le_trans (metered.read_le _ _ spent.remaining) fits⟩

/-- Spending leaves a meter payable. -/
theorem Payable.of_spent (payable : Payable before) (spent : Spent before after) : Payable after :=
  ⟨payable.diskStorage.of_spent spent, payable.networkBandwidth.of_spent spent,
    payable.computeBandwidth.of_spent spent⟩

end Meter

end Respublica.Controller
